import TcIpcCtrl.ReceivePath

/-!
What the receive path delivers. tc_parser_BufAddr points at `offset`, not
behind the bytes that are left over, so a read that finds bytes left over puts
the new bytes on top of them. In runs where every read leaves the old bytes
followed by the new ones, the messages delivered are those of the stream taken
so far; in other runs messages are lost or made up.
-/
namespace TcIpcCtrl.Delivery

open Cells Package WhileLoop Runs BoundedQueue RingBuffer RingContents RingEffects Tokens
  FrameGrammar TcIpcCtrl.Parser DecoderPasses DecoderRefinement RoundTrip ReceivePath
open ReadRing (readRingBufferSize tmmReadSize)

/-- The bytes that the next read takes. -/
def nextBytes (s : Receiver) (n : ℤ) : List UInt8 :=
  (contents s.readRing).take (readSize n (tcParserFreeSpace s.parser))

/-- Stored from index 0 on, the next bytes make the buffer hold what is left over
and then themselves. With nothing left over they always do. -/
def Appends (s : Receiver) (n : ℤ) : Prop :=
  nextBytes s n ++ slice s.parser.data (nextBytes s n).length s.parser.dataSize =
    slice s.parser.data 0 s.parser.dataSize ++ nextBytes s n

instance (s : Receiver) (n : ℤ) : Decidable (Appends s n) := inferInstanceAs (Decidable (_ = _))

def ReadAppends (s : Receiver) : Event → Prop
  | .arrive _ => True
  | .look => True
  | .turn => Appends s (s.availableSize.getD 0)

instance (s : Receiver) : (e : Event) → Decidable (ReadAppends s e)
  | .arrive _ => inferInstanceAs (Decidable True)
  | .look => inferInstanceAs (Decidable True)
  | .turn => inferInstanceAs (Decidable (Appends _ _))

/-- The ring has room for what arrives. -/
def Fits (s : Receiver) : Event → Prop
  | .arrive readBufs => (readBufs.length : ℤ) ≤ tcBufferFreeSpace s.readRing
  | .look => True
  | .turn => True

instance (s : Receiver) : (e : Event) → Decidable (Fits s e)
  | .arrive _ => inferInstanceAs (Decidable (_ ≤ _))
  | .look => inferInstanceAs (Decidable True)
  | .turn => inferInstanceAs (Decidable True)

def FitsAndAppends (s : Receiver) (e : Event) : Prop := Fits s e ∧ ReadAppends s e

instance (s : Receiver) (e : Event) : Decidable (FitsAndAppends s e) :=
  inferInstanceAs (Decidable (_ ∧ _))

theorem appends_of_empty (s : Receiver) (n : ℤ) (h : s.parser.dataSize = 0) : Appends s n := by
  simp only [Appends, h, slice, List.take_zero, List.append_nil, List.nil_append]

/-- The read writes over the front of the buffer. -/
theorem window_handed {s : Receiver} (hs : Sound s) {n : ℤ} (hn : s.availableSize = some n)
    (hpos : 0 < n) : window (handed s n) =
      nextBytes s n ++ slice s.parser.data (nextBytes s n).length s.parser.dataSize := by
  obtain ⟨hoff, hsize, hdata, -⟩ := handed_eq hs hn
  obtain ⟨-, -, hout⟩ := readData_ok hs hn hpos
  have hlen := length_readData_out hs hn hpos
  have hfree := readSize_le_free hs hn
  have hcells := s.parser.data_length
  simp only [tmmParserBufSize, ipcMaximumDataSize] at hcells
  have hbytes : (readData s n).out = nextBytes s n := hout
  rw [hbytes] at hlen hdata
  rw [window_of_offset hoff, hsize, hdata, memcpy_eq _ _ _ (by omega), List.take_zero,
    List.nil_append, Nat.zero_add, ← hlen, List.take_append, List.take_of_length_le (by omega),
    slice]
  congr 2
  omega

theorem window_rests {h : ParserHandle} (hr : Rests h) : window h = slice h.data 0 h.dataSize := by
  rw [window, hr.offset, Nat.sub_zero]

/-- Bytes that are appended leave the header at the front as it was latched. -/
theorem resumes_of_append {h t : ParserHandle} {bytes : List UInt8} (hresumes : Resumes h)
    (hstate : t.parserState = h.parserState) (hdata : t.parserData = h.parserData)
    (hwindow : window t = window h ++ bytes) : Resumes t := by
  rcases hresumes with hidle | ⟨hs, hl⟩
  · exact Or.inl (hstate.trans hidle)
  · have hroom := hl.room
    refine Or.inr ⟨hstate.trans hs, ?_, ?_, ?_, ?_, ?_⟩
    · rw [hwindow, List.length_append]
      omega
    · rw [hwindow, startsFrame_append _ _ hroom]
      exact hl.start
    · rw [hwindow, hdata, hl.cmd1,
        field_append _ _ _ (by simp only [ipcProtocolCommand1HighOffset]; omega)]
    · rw [hwindow, hdata, hl.cmd2,
        field_append _ _ _ (by simp only [ipcProtocolCommand2HighOffset]; omega)]
    · rw [hwindow, hdata, hl.length, lengthField_append _ _ hroom]

/-- The messages delivered and the bytes left over are the scan of the bytes
taken. -/
structure Tracks (s : Receiver) : Prop where
  sound : Sound s
  callback : s.parser.parserReceivedData = true
  resumes : Resumes s.parser
  scans : Scans frames s.taken s.delivered (window s.parser)

theorem start_tracks (cells : List UInt8) (hcells : cells.length = readRingBufferSize)
    (parserData : IpcMsg) (stale : Bool) : Tracks (start cells hcells parserData stale true) where
  sound := start_sound cells hcells parserData stale true
  callback := rfl
  resumes := Or.inl rfl
  scans := .wait rfl

theorem turn_tracks {s t : Receiver} (hs : Tracks s) (ht : Sound t) {n : ℤ}
    {out : List ReceivedData} {u : ParserHandle} (hturns : Turns s t n out u)
    (happends : Appends s n) : Tracks t := by
  have hsound := hs.sound
  obtain ⟨-, -, -, -, hstate, hdata, hcb⟩ := handed_eq hsound hturns.seen
  obtain ⟨-, -, hout⟩ := readData_ok hsound hturns.seen hturns.pos
  have hp := handed_placed hsound hturns.seen
  have hwindow : window (handed s n) = window s.parser ++ nextBytes s n := by
    rw [window_handed hsound hturns.seen hturns.pos, happends, window_rests hsound.parser]
  have hresumes := resumes_of_append hs.resumes hstate hdata hwindow
  obtain ⟨outs, rest, hscan⟩ := Scans.total frames (window s.parser ++ nextBytes s n)
  have hscan' := hscan
  rw [← hwindow] at hscan'
  obtain ⟨v, hdecode, hreturned⟩ := tcParserDecoder_scans hp hresumes hscan'
  rw [tcParserDecoder_eq hp hturns.ends, heard, hcb, hs.callback, if_pos rfl, Option.some.injEq,
    Prod.mk.injEq] at hdecode
  obtain ⟨rfl, rfl⟩ := hdecode
  have hparser : t.parser = compact u := by rw [hturns.eq]
  have htaken : t.taken = s.taken ++ nextBytes s n := by rw [hturns.eq, hout, nextBytes]
  have hdelivered : t.delivered = s.delivered ++ out := by rw [hturns.eq]
  refine ⟨ht, ?_, ?_, ?_⟩
  · rw [hparser, hreturned.callback, hcb, hs.callback]
  · rw [hparser]
    exact hreturned.resumes
  · rw [htaken, hdelivered, hparser, hreturned.window]
    exact hs.scans.append hscan

theorem step_tracks {s t : Receiver} (hs : Tracks s) {e : Event} (happends : ReadAppends s e)
    (h : step s e = some t) : Tracks t := by
  have hsound := step_sound hs.sound h
  rcases step_cases hs.sound h with ⟨readBufs, -, -, -, rfl⟩ | ⟨-, -, rfl⟩ | ⟨-, -, rfl⟩ |
    ⟨rfl, n, out, u, hturns⟩
  · exact ⟨hsound, hs.callback, hs.resumes, hs.scans⟩
  · exact ⟨hsound, hs.callback, hs.resumes, hs.scans⟩
  · exact ⟨hsound, hs.callback, hs.resumes, hs.scans⟩
  · refine turn_tracks hs hsound hturns ?_
    rw [ReadAppends, hturns.seen, Option.getD_some] at happends
    exact happends

/-- Nothing is lost in a ring with room. -/
structure Flows (s : Receiver) : Prop where
  sound : Sound s
  arrived : s.arrived = s.taken ++ contents s.readRing

theorem flows_of_ring {s : Receiver} (hs : Flows s) {ring : TcRingbuf UInt8} {bytes : List UInt8}
    (hcontents : contents ring = contents s.readRing ++ bytes)
    (hsound : Sound { s with readRing := ring, arrived := s.arrived ++ bytes }) :
    Flows { s with readRing := ring, arrived := s.arrived ++ bytes } := by
  refine ⟨hsound, ?_⟩
  show s.arrived ++ bytes = s.taken ++ contents ring
  rw [hcontents, hs.arrived, List.append_assoc]

theorem step_flows {s t : Receiver} (hs : Flows s) {e : Event} (hfits : Fits s e)
    (h : step s e = some t) : Flows t := by
  have hsound := step_sound hs.sound h
  rcases step_cases hs.sound h with ⟨readBufs, rfl, -, hle, rfl⟩ | ⟨-, -, rfl⟩ | ⟨-, -, rfl⟩ |
    ⟨rfl, n, out, u, hturns⟩
  · have hlt : readBufs.length < s.readRing.maxBufferSize := by
      rw [hs.sound.ring_size, readRingBufferSize]
      simp only [tmmReadSize] at hle
      omega
    have hcount := count_lt s.readRing hs.sound.ring
    have hpushed := readThreadPass_pushed s.readRing hs.sound.ring readBufs hlt
    rw [Fits, freeSpace_eq s.readRing hs.sound.ring] at hfits
    exact flows_of_ring hs (hpushed.of_fits hs.sound.ring (by omega)) hsound
  · exact ⟨hsound, hs.arrived⟩
  · exact ⟨hsound, hs.arrived⟩
  · obtain ⟨-, -, hout⟩ := readData_ok hs.sound hturns.seen hturns.pos
    have hle := readSize_le_count hs.sound hturns.seen
    refine ⟨hsound, ?_⟩
    rw [hturns.eq]
    show s.arrived = s.taken ++ (readData s n).out ++ contents (advance s.readRing _)
    rw [hs.arrived, hout, contents_advance s.readRing hs.sound.ring _ hle, List.append_assoc,
      List.take_append_drop]

/-- While every read appends, the messages delivered are always the first ones
sent, and all of them once the whole stream has been taken. -/
theorem delivers_in_order (sends : List Send) (cells : List UInt8)
    (hcells : cells.length = readRingBufferSize) (parserData : IpcMsg) (stale : Bool)
    {s : Receiver} (h : Reach step FitsAndAppends (start cells hcells parserData stale true) s)
    (harrived : s.arrived <+: stream sends) :
    s.delivered <+: sends.map Send.delivered ∧
      (s.taken = stream sends → s.delivered = sends.map Send.delivered) := by
  have htracks : Tracks s := h.invariant Tracks (start_tracks cells hcells parserData stale)
    fun _ _ _ ht hC hstep => step_tracks ht hC.2 hstep
  have hflows : Flows s := h.invariant Flows
    ⟨start_sound cells hcells parserData stale true, rfl⟩
    fun _ _ _ ht hC hstep => step_flows ht hC.1 hstep
  have hscan := scans_stream sends
  constructor
  · have htaken : s.taken <+: stream sends := by
      refine List.IsPrefix.trans ?_ harrived
      rw [hflows.arrived]
      exact List.prefix_append _ _
    obtain ⟨rest, hrest⟩ := htaken
    rw [← hrest] at hscan
    exact htracks.scans.outs_prefix hscan
  · intro hall
    have hdone := htracks.scans
    rw [hall] at hdone
    exact (hdone.det hscan).1

/-- While every read appends, every message delivered has its own frame in the
bytes taken, in their order. -/
theorem delivered_found (cells : List UInt8) (hcells : cells.length = readRingBufferSize)
    (parserData : IpcMsg) (stale : Bool) {s : Receiver}
    (h : Reach step ReadAppends (start cells hcells parserData stale true) s) :
    Found Carries s.taken s.delivered := by
  have htracks : Tracks s := h.invariant Tracks (start_tracks cells hcells parserData stale)
    fun _ _ _ ht hC hstep => step_tracks ht hC hstep
  exact htracks.scans.found carries_of_token

/-! Runs on fixed streams -/

/-- A new receiver with a registered callback. -/
def fresh : Receiver :=
  start (List.replicate readRingBufferSize 0x00) List.length_replicate ⟨0, 0, 0, none⟩ false true

/-- Each piece arrives and is read before the next. -/
def piecewise (pieces : List (List UInt8)) : List Event :=
  pieces.flatMap fun piece => [.arrive piece, .look, .turn]

def summary (r : Option Receiver) : Option (List UInt8 × List UInt8 × List ReceivedData) :=
  r.map fun s => (s.arrived, s.taken, s.delivered)

theorem exists_of_summary {r : Option Receiver} {arrived taken : List UInt8}
    {delivered : List ReceivedData} (h : summary r = some (arrived, taken, delivered)) :
    ∃ s, r = some s ∧ s.arrived = arrived ∧ s.taken = taken ∧ s.delivered = delivered := by
  obtain ⟨s, hs, hsummary⟩ := Option.map_eq_some_iff.mp h
  simp only [Prod.mk.injEq] at hsummary
  exact ⟨s, hs, hsummary⟩

/-- Two messages, each read as it arrives. -/
theorem delivers_in_order_whole :
    ∃ s, runFrom (guarded step FitsAndAppends) fresh
        (piecewise [stream [sendStartPattern], stream [sendEmpty]]) = some s ∧
      s.delivered = [sendStartPattern, sendEmpty].map Send.delivered :=
  have hsummary : summary (runFrom (guarded step FitsAndAppends) fresh
      (piecewise [stream [sendStartPattern], stream [sendEmpty]])) =
        some (stream [sendStartPattern, sendEmpty], stream [sendStartPattern, sendEmpty],
          [sendStartPattern.delivered, sendEmpty.delivered]) := by
    decide +kernel
  have ⟨s, hrun, harrived, htaken, _⟩ := exists_of_summary hsummary
  ⟨s, hrun, (delivers_in_order [sendStartPattern, sendEmpty] _ _ _ _ (reach_of_guarded _ hrun)
    (by rw [harrived])).2 htaken⟩

/-- Of a frame that arrives in two halves, the second half is stored over the
first, and the message is never delivered. -/
theorem split_frame_is_lost :
    ¬ ∀ (sends : List Send) (cells : List UInt8) (hcells : cells.length = readRingBufferSize)
      (parserData : IpcMsg) (stale : Bool) (s : Receiver),
      Reach step Fits (start cells hcells parserData stale true) s →
      s.arrived <+: stream sends →
      s.delivered <+: sends.map Send.delivered ∧
        (s.taken = stream sends → s.delivered = sends.map Send.delivered) := by
  intro h
  have hsummary : summary (runFrom (guarded step Fits) fresh
      (piecewise [(stream [sendEmpty]).take 6, (stream [sendEmpty]).drop 6])) =
        some (stream [sendEmpty], stream [sendEmpty], []) := by
    decide +kernel
  obtain ⟨s, hrun, harrived, htaken, hdelivered⟩ := exists_of_summary hsummary
  have hall := (h [sendEmpty] _ _ _ _ s (reach_of_guarded _ hrun) (by rw [harrived])).2 htaken
  rw [hdelivered] at hall
  cases hall

/-- Two messages, each read as it arrives, with a stray byte in front. -/
theorem delivered_found_whole :
    ∃ s, runFrom (guarded step ReadAppends) fresh
        (piecewise [0x00 :: stream [sendStartPattern], stream [sendEmpty]]) = some s ∧
      s.delivered = [sendStartPattern.delivered, sendEmpty.delivered] ∧
      Found Carries s.taken s.delivered :=
  have hsummary : summary (runFrom (guarded step ReadAppends) fresh
      (piecewise [0x00 :: stream [sendStartPattern], stream [sendEmpty]])) =
        some (0x00 :: stream [sendStartPattern, sendEmpty],
          0x00 :: stream [sendStartPattern, sendEmpty],
          [sendStartPattern.delivered, sendEmpty.delivered]) := by
    decide +kernel
  have ⟨s, hrun, _, _, hdelivered⟩ := exists_of_summary hsummary
  ⟨s, hrun, hdelivered, delivered_found _ _ _ _ (reach_of_guarded _ hrun)⟩

/-- Two messages within 24 bytes need two frames of twelve bytes. -/
theorem startsFrame_of_found {xs ys : List UInt8} {m m' : ReceivedData}
    (hxs : xs.length = 12) (hys : ys.length = 12) (h : Found Carries (xs ++ ys) [m, m']) :
    StartsFrame ys := by
  obtain ⟨zs, hzs⟩ : ∃ zs, xs ++ ys = zs := ⟨_, rfl⟩
  rw [hzs] at h
  cases h with
  | @cons gap seg rest _ _ hseg hrest =>
    cases hrest with
    | @cons gap' seg' rest' _ _ hseg' _ =>
      have hlen := congrArg List.length hzs
      have hge := frameSize_ge m.length
      have hge' := frameSize_ge m'.length
      rw [← hseg.size] at hge
      rw [← hseg'.size] at hge'
      simp only [List.length_append, hxs, hys] at hlen
      obtain rfl : gap = [] := List.length_eq_zero_iff.mp (by omega)
      obtain rfl : gap' = [] := List.length_eq_zero_iff.mp (by omega)
      obtain rfl : rest' = [] := List.length_eq_zero_iff.mp (by omega)
      simp only [List.nil_append, List.append_nil] at hzs
      obtain ⟨-, rfl⟩ := List.append_inj hzs (by omega)
      exact hseg'.start

/-- A frame is delivered again when twelve FF bytes follow it one at a time: each
is stored over its first byte, which is FF already. -/
theorem frame_is_replayed :
    ¬ ∀ (cells : List UInt8) (hcells : cells.length = readRingBufferSize)
      (parserData : IpcMsg) (stale : Bool) (s : Receiver),
      Reach step Free (start cells hcells parserData stale true) s →
      Found Carries s.taken s.delivered := by
  intro h
  have hsummary : summary (runFrom step fresh
      (piecewise (stream [sendEmpty] :: List.replicate 12 [0xff]))) =
        some (stream [sendEmpty] ++ List.replicate 12 0xff,
          stream [sendEmpty] ++ List.replicate 12 0xff,
          [sendEmpty.delivered, sendEmpty.delivered]) := by
    decide +kernel
  obtain ⟨s, hrun, -, htaken, hdelivered⟩ := exists_of_summary hsummary
  have hfound := h _ _ _ _ s (reach_of_runFrom _ hrun)
  rw [htaken, hdelivered] at hfound
  have hlen : (stream [sendEmpty]).length = 12 := by decide +kernel
  have hstart := startsFrame_of_found hlen List.length_replicate hfound
  exact absurd hstart (by decide)

end TcIpcCtrl.Delivery
