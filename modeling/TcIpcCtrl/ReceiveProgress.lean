import TcIpcCtrl.Delivery

/-!
When the receive path makes progress. The decoder takes the length of a frame
from its header without comparing it with the buffer, so a header that
announces more than the buffer can hold is waited for forever. A run makes
progress throughout exactly if the scan of the bytes that are handed to the
decoder never comes to such a header.
-/
namespace TcIpcCtrl.ReceiveProgress

open Cells Package WhileLoop Runs RingBuffer RingContents RingEffects Tokens FrameGrammar
  TcIpcCtrl.Parser DecoderPasses DecoderRefinement RoundTrip ReceivePath Delivery
open ReadRing (readRingBufferSize)

/-- A header for a frame that the buffer of the decoder cannot hold. -/
structure Oversized (bs : List UInt8) : Prop where
  room : 12 ≤ bs.length
  start : StartsFrame bs
  size : tmmParserBufSize < frameSize (lengthField bs)

/-- What the decoder has in front of it after the next read, past the frame that
it is waiting for. -/
def bytesAhead (s : Receiver) (n : ℤ) : List UInt8 :=
  let bytes := nextBytes s n ++ slice s.parser.data (nextBytes s n).length s.parser.dataSize
  if s.parser.parserState = stateData then bytes.drop (frameSize s.parser.parserData.length)
  else bytes

/-- The step makes the decoder scan up to an oversized header. -/
def MeetsOversized (s : Receiver) (e : Event) : Prop :=
  e = .turn ∧ ∃ n, s.availableSize = some n ∧ 0 < n ∧ Meets frames Oversized (bytesAhead s n)

/-- The decoder has room for more bytes, takes some whenever the ring had any, and
waits for no frame that its buffer cannot hold. -/
structure Progresses (s : Receiver) : Prop where
  free : 0 < tcParserFreeSpace s.parser
  takes : ∀ n t, s.availableSize = some n → 0 < n → step s .turn = some t →
    s.taken.length < t.taken.length
  fits : s.parser.parserState = stateData →
    frameSize s.parser.parserData.length ≤ tmmParserBufSize

theorem not_oversized_of_short {bs : List UInt8} (h : bs.length < 12) : ¬ Oversized bs := by
  intro hover
  have hroom := hover.room
  omega

theorem not_meets_nil : ¬ Meets frames Oversized [] := by
  intro hmeets
  cases hmeets with
  | here hover =>
    have hroom := hover.room
    cases hroom
  | later hnext =>
    obtain ⟨hlen, -⟩ := nextToken_take [] _ _ hnext
    cases hlen

/-- Within the buffer an oversized frame is never complete. -/
theorem nextToken_of_oversized {bs : List UInt8} (hle : bs.length ≤ tmmParserBufSize)
    (h : Oversized bs) : nextToken bs = .wait := by
  have hroom := h.room
  have hsize := h.size
  have hshort : ¬ bs.length < 12 := by omega
  have hwait : bs.length < frameSize (lengthField bs) := by omega
  simp only [nextToken, ipcMinimumPacketSize, hshort, if_false, h.start, if_true, hwait]

/-- With room in the decoder a turn takes bytes. -/
theorem progresses_iff {s : Receiver} (hs : Sound s) : Progresses s ↔
    (s.parser.parserState = stateData →
      frameSize s.parser.parserData.length ≤ tmmParserBufSize) := by
  constructor
  · intro hprogress
    exact hprogress.fits
  · intro hfits
    have hroom : s.parser.dataSize < 1024 := by
      rcases hs.parser.state with ⟨-, hshort⟩ | ⟨hdata, -, hshort⟩
      · omega
      · have hle := hfits hdata
        simp only [tmmParserBufSize, ipcMaximumDataSize] at hle
        omega
    refine ⟨?_, ?_, hfits⟩
    · rw [hs.parser.freeSpace_eq]
      omega
    · intro n t hn hpos hstep
      have hbound := (hs.seen n hn).1
      have hlen := length_readData_out hs hn hpos
      have hsize := readSize_eq hs hn
      obtain ⟨out, u, hturns⟩ := parse_turns hs hn hpos (by simpa [step, hn] using hstep)
      rw [hturns.eq]
      show s.taken.length < (s.taken ++ (readData s n).out).length
      rw [List.length_append, hlen, hsize]
      omega

/-- The decoder waits for a frame it had latched before, or scans what is ahead. -/
theorem ends_ahead {s t : Receiver} (hs : Sound s) {n : ℤ} {out : List ReceivedData}
    {u : ParserHandle} (hturns : Turns s t n out u) :
    (s.parser.parserState = stateData ∧ u = handed s n ∧ bytesAhead s n = []) ∨
      ∃ outs rest, Scans frames (bytesAhead s n) outs rest ∧ Leaves (handed s n) u rest := by
  have hp := handed_placed hs hturns.seen
  obtain ⟨hoff, -, -, -, hstate, hdata, -⟩ := handed_eq hs hturns.seen
  have hwindow := window_handed hs hturns.seen hturns.pos
  have hlen := hp.length_window
  rcases hs.parser.state with ⟨hidle, -⟩ | ⟨hdataState, -, -⟩
  · have hahead : bytesAhead s n = window (handed s n) := by
      rw [hwindow, bytesAhead, if_neg]
      rw [hidle]
      decide
    obtain ⟨outs, rest, hscan⟩ := Scans.total frames (bytesAhead s n)
    obtain ⟨v, hends, hleaves⟩ := ends_of_scans hscan (handed s n) hp (hstate.trans hidle)
      hahead.symm
    obtain ⟨-, rfl⟩ := hturns.ends.det hends
    exact Or.inr ⟨outs, rest, hscan, hleaves⟩
  · have hahead : bytesAhead s n =
        (window (handed s n)).drop (frameSize (handed s n).parserData.length) := by
      rw [hwindow, bytesAhead, if_pos hdataState, hdata]
    have hroom : 12 ≤ (handed s n).dataSize - (handed s n).offset := by
      refine hp.room ?_
      rw [hstate, hdataState]
      decide
    by_cases hfit : frameSize (handed s n).parserData.length ≤
        (handed s n).dataSize - (handed s n).offset
    · obtain ⟨outs, rest, hscan⟩ := Scans.total frames (bytesAhead s n)
      have hconsume : Placed (consume (handed s n)) :=
        placed_consume hp.dataSize_le (by omega)
      obtain ⟨v, hends, hleaves⟩ := ends_of_scans hscan (consume (handed s n)) hconsume rfl
        (by rw [window_consume, hahead])
      have hframe := (leads_frame hp hroom (hstate.trans hdataState) hfit).ends hends
      obtain ⟨-, rfl⟩ := hturns.ends.det hframe
      exact Or.inr ⟨outs, rest, hscan, hleaves.of_same (keeps_consume _)⟩
    · have hwait := ends_wait hp hroom (hstate.trans hdataState) (by omega)
      obtain ⟨-, rfl⟩ := hturns.ends.det hwait
      refine Or.inl ⟨hdataState, rfl, ?_⟩
      rw [hahead, List.drop_eq_nil_of_le (by omega)]

/-- A turn leaves the decoder waiting in vain exactly if the scan ends at an
oversized header. -/
theorem turn_progresses_iff {s t : Receiver} (hs : Sound s) (ht : Sound t) {n : ℤ}
    {out : List ReceivedData} {u : ParserHandle} (hturns : Turns s t n out u)
    (hprogress : Progresses s) : Progresses t ↔ ¬ Meets frames Oversized (bytesAhead s n) := by
  have hp := handed_placed hs hturns.seen
  obtain ⟨-, -, -, -, -, hdata, -⟩ := handed_eq hs hturns.seen
  have hparser : t.parser = compact u := by rw [hturns.eq]
  rw [progresses_iff ht, hparser]
  show (u.parserState = stateData → frameSize u.parserData.length ≤ tmmParserBufSize) ↔ _
  rcases ends_ahead hs hturns with ⟨hdataState, rfl, hnil⟩ | ⟨outs, rest, hscan, hleaves⟩
  · rw [hnil, hdata]
    exact iff_of_true (fun _ => hprogress.fits hdataState) not_meets_nil
  · have hbound : (bytesAhead s n).length ≤ tmmParserBufSize := by
      have hlen := hp.length_window
      have hle := hp.dataSize_le
      rw [window_handed hs hturns.seen hturns.pos] at hlen
      unfold bytesAhead
      dsimp only
      split
      · rw [List.length_drop]
        omega
      · omega
    rw [hscan.meets_iff fun ys hys hover =>
      nextToken_of_oversized (Nat.le_trans hys hbound) hover]
    rcases hleaves.resumes with hidle | ⟨hstate, hl⟩
    · refine iff_of_true ?_ (not_oversized_of_short (hleaves.idle hidle))
      intro hdataState
      rw [hidle] at hdataState
      cases hdataState
    · have hroom := hl.room
      have hstart := hl.start
      rw [hleaves.window] at hroom hstart
      rw [hl.length, hleaves.window]
      constructor
      · intro hfits hover
        have hsize := hover.size
        have hle := hfits hstate
        omega
      · intro hover _
        by_contra hlt
        exact hover ⟨hroom, hstart, by omega⟩

theorem step_progresses_iff {s t : Receiver} (hs : Sound s) (hprogress : Progresses s) {e : Event}
    (h : step s e = some t) : Progresses t ↔ ¬ MeetsOversized s e := by
  have ht := step_sound hs h
  have hfits := hprogress.fits
  rcases step_cases hs h with ⟨readBufs, rfl, -, -, rfl⟩ | ⟨rfl, -, rfl⟩ | ⟨rfl, hzero, rfl⟩ |
    ⟨rfl, n, out, u, hturns⟩
  · refine iff_of_true ((progresses_iff ht).mpr hfits) ?_
    rintro ⟨hturn, -⟩
    cases hturn
  · refine iff_of_true ((progresses_iff ht).mpr hfits) ?_
    rintro ⟨hturn, -⟩
    cases hturn
  · refine iff_of_true ((progresses_iff ht).mpr hfits) ?_
    rintro ⟨-, n, hn, hpos, -⟩
    rw [hzero, Option.some.injEq] at hn
    omega
  · rw [turn_progresses_iff hs ht hturns hprogress]
    refine not_congr ?_
    constructor
    · intro hmeets
      exact ⟨rfl, n, hturns.seen, hturns.pos, hmeets⟩
    · rintro ⟨-, m, hm, -, hmeets⟩
      rw [hturns.seen, Option.some.injEq] at hm
      rw [hm]
      exact hmeets

/-- A run makes progress in every state it visits exactly if none of its steps
makes the decoder scan up to an oversized header. -/
theorem run_progresses_iff (cells : List UInt8) (hcells : cells.length = readRingBufferSize)
    (parserData : IpcMsg) (stale cb : Bool) (es : List Event) {t : Receiver}
    (hrun : runFrom step (start cells hcells parserData stale cb) es = some t) :
    (∀ u, Visits step (start cells hcells parserData stale cb) es u → Progresses u) ↔
      ∀ u e, Takes step (start cells hcells parserData stale cb) es u e →
        ¬ MeetsOversized u e := by
  have hsound := start_sound cells hcells parserData stale cb
  refine visits_iff_takes Sound Progresses (fun s e => ¬ MeetsOversized s e) hsound ?_
    (fun _ _ _ hs hstep => step_sound hs hstep)
    (fun _ _ _ hs hprogress hstep => step_progresses_iff hs hprogress hstep) es hrun
  refine (progresses_iff hsound).mpr ?_
  intro hdata
  cases cb <;> cases hdata

/-- A frame and the first twelve bytes of another, and then the rest of it. -/
def frameAndRest : List Event :=
  piecewise [sendStartPattern.frame ++ sendStartPattern.frame.take 12,
    sendStartPattern.frame.drop 12]

theorem frameAndRest_fits : ∀ pre ∈ frameAndRest.inits, ∀ u ∈ runFrom step fresh pre,
    u.parser.parserState = stateData →
      frameSize u.parser.parserData.length ≤ tmmParserBufSize := by
  decide +kernel

theorem run_progresses_iff_frames :
    (∀ u, Visits step fresh frameAndRest u → Progresses u) ∧
      ∀ u e, Takes step fresh frameAndRest u e → ¬ MeetsOversized u e :=
  have hrun : (runFrom step fresh frameAndRest).isSome = true := by decide +kernel
  have ⟨_, ht⟩ := Option.isSome_iff_exists.mp hrun
  have hprogress : ∀ u, Visits step fresh frameAndRest u → Progresses u :=
    fun u ⟨pre, hpre, hu⟩ =>
      have hsound := reach_sound (start_sound _ _ _ _ _) (reach_of_runFrom pre hu)
      (progresses_iff hsound).mpr
        (frameAndRest_fits pre ((List.mem_inits _ _).mpr hpre) u (Option.mem_def.mpr hu))
  ⟨hprogress, (run_progresses_iff _ _ _ _ _ frameAndRest ht).mp hprogress⟩

/-- FF 55 AA, two commands, and a length of 65535. -/
def oversizedHeader : List UInt8 := [0xff, 0x55, 0xaa, 0x00, 0x00, 0x00, 0x00, 0xff, 0xff]

/-- After an oversized header and as many bytes as the buffer holds, the decoder
has no room left and takes nothing more. -/
theorem oversized_header_wedges :
    ¬ ∀ (cells : List UInt8) (hcells : cells.length = readRingBufferSize) (parserData : IpcMsg)
      (stale cb : Bool) (s : Receiver),
      Reach step Free (start cells hcells parserData stale cb) s → Progresses s := by
  intro h
  have hfree : (runFrom step fresh (piecewise ((oversizedHeader ++ List.replicate 119 0x00) ::
      List.replicate 7 (List.replicate 128 0x00)))).map
        (fun s => tcParserFreeSpace s.parser) = some 0 := by
    decide +kernel
  obtain ⟨s, hrun, hzero⟩ := Option.map_eq_some_iff.mp hfree
  have hpos := (h _ _ _ _ _ s (reach_of_runFrom _ hrun)).free
  rw [hzero] at hpos
  cases hpos

end TcIpcCtrl.ReceiveProgress
