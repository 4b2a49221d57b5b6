import TcIpcCtrl.PacedLink

/-!
A receiver that has been fed anything before. When it rests in StateIdle, the fewer
than twelve bytes it has left over lie behind every later read and are never looked
at in front of it: whole frames that come from then on are delivered as by a new
receiver. When it rests in StateData, the header it has latched is used for whatever
is stored over the front of the buffer.
-/
namespace TcIpcCtrl.StrayBytes

open CInt Cells Package WhileLoop Runs RingBuffer RingContents RingEffects Tokens FrameGrammar
  TcIpcCtrl.Parser DecoderPasses DecoderRefinement RoundTrip ReceivePath Delivery
open ReadRing (readRingBufferSize tmmReadSize)
open PacedLink (Whole Cut cut_all whole_nil)

/-! The callback stays registered -/

theorem step_callback {s t : Receiver} (hs : Sound s) {e : Event} (h : step s e = some t) :
    t.parser.parserReceivedData = s.parser.parserReceivedData := by
  rcases step_cases hs h with ⟨_, -, -, -, rfl⟩ | ⟨-, -, rfl⟩ | ⟨-, -, rfl⟩ |
    ⟨-, n, out, u, hturns⟩
  · rfl
  · rfl
  · rfl
  · obtain ⟨-, -, -, -, -, -, hcb⟩ := handed_eq hs hturns.seen
    obtain ⟨-, hsame, -⟩ := ends_safe (handed_placed hs hturns.seen) hturns.ends
    rw [hturns.eq]
    exact hsame.callback.trans hcb

theorem reach_registered (cells : List UInt8) (hcells : cells.length = readRingBufferSize)
    (parserData : IpcMsg) (stale : Bool) {t : Receiver}
    (h : Reach step Free (start cells hcells parserData stale true) t) :
    Sound t ∧ t.parser.parserReceivedData = true :=
  h.invariant (fun u => Sound u ∧ u.parser.parserReceivedData = true)
    ⟨start_sound cells hcells parserData stale true, rfl⟩ fun _ _ _ ⟨hsound, hcb⟩ _ hstep =>
      ⟨step_sound hsound hstep, (step_callback hsound hstep).trans hcb⟩

/-! A receiver at rest in StateIdle -/

/-- Whole frames arrive, with room for them in the ring, and the decoder has room for
all that a look finds. -/
def Framed (s : Receiver) : Event → Prop
  | .arrive readBufs => Whole readBufs ∧ (readBufs.length : ℤ) ≤ tcBufferFreeSpace s.readRing
  | .look => tcBufferDataAvailable s.readRing ≤ tcParserFreeSpace s.parser
  | .turn => True

/-- Since `r` the calls `got` have been taken and delivered, and as many bytes are left
over as there were. -/
structure Follows (r s : Receiver) (got : List Send) : Prop where
  sound : Sound s
  callback : s.parser.parserReceivedData = true
  idle : s.parser.parserState = stateIdle
  stray : s.parser.dataSize = r.parser.dataSize
  ring : Whole (contents s.readRing)
  looked : ∀ n, s.availableSize = some n →
    n ≤ tcParserFreeSpace s.parser ∧ Cut n.toNat (contents s.readRing)
  arrived : s.arrived = r.arrived ++ stream got ++ contents s.readRing
  taken : s.taken = r.taken ++ stream got
  delivered : s.delivered = r.delivered ++ got.map Send.delivered

theorem dataSize_lt_of_idle {h : ParserHandle} (hr : Rests h)
    (hidle : h.parserState = stateIdle) : h.dataSize < 12 := by
  rcases hr.state with ⟨-, hshort⟩ | ⟨hdata, -⟩
  · exact hshort
  · rw [hidle] at hdata
    cases hdata

theorem follows_refl {r : Receiver} (hr : Sound r) (hcb : r.parser.parserReceivedData = true)
    (hidle : r.parser.parserState = stateIdle) (hring : contents r.readRing = [])
    (hlook : r.availableSize = none) : Follows r r [] := by
  refine ⟨hr, hcb, hidle, rfl, hring ▸ whole_nil, ?_, ?_, ?_, ?_⟩
  · intro n hn
    rw [hlook] at hn
    cases hn
  · rw [hring, List.append_nil]
    exact (List.append_nil _).symm
  · exact (List.append_nil _).symm
  · exact (List.append_nil _).symm

/-- Whole frames in front of fewer than twelve bytes scan to their messages, and the
bytes behind them stay. -/
theorem scans_stray (sends : List Send) {bytes : List UInt8} (hshort : bytes.length < 12) :
    Scans frames (stream sends ++ bytes) (sends.map Send.delivered) bytes := by
  have hwait : Scans frames ([] ++ bytes) [] bytes := .wait (if_pos hshort)
  have hscan := (scans_stream sends).append hwait
  rwa [List.append_nil] at hscan

theorem follows_of_ring {r s : Receiver} {got : List Send} (hs : Follows r s got)
    {bytes : List UInt8} (hbytes : Whole bytes) {ring : TcRingbuf UInt8}
    (hcontents : contents ring = contents s.readRing ++ bytes)
    (hsound : Sound { s with readRing := ring, arrived := s.arrived ++ bytes }) :
    Follows r { s with readRing := ring, arrived := s.arrived ++ bytes } got := by
  refine ⟨hsound, hs.callback, hs.idle, hs.stray, ?_, ?_, ?_, hs.taken, hs.delivered⟩
  · change Whole (contents ring)
    rw [hcontents]
    exact hs.ring.append hbytes
  · intro n hn
    obtain ⟨hle, hcut⟩ := hs.looked n hn
    refine ⟨hle, ?_⟩
    change Cut n.toNat (contents ring)
    rw [hcontents]
    exact hcut.append hbytes
  · change s.arrived ++ bytes = r.arrived ++ stream got ++ contents ring
    rw [hcontents, hs.arrived, List.append_assoc]

theorem arrive_follows {r s t : Receiver} {got : List Send} (hs : Follows r s got)
    {readBufs : List UInt8} (hframed : Framed s (.arrive readBufs))
    (h : step s (.arrive readBufs) = some t) : Follows r t got := by
  obtain ⟨hwhole, hfits⟩ := hframed
  have hv := hs.sound.ring
  have hsound := step_sound hs.sound h
  have hcount := count_lt s.readRing hv
  rw [freeSpace_eq s.readRing hv] at hfits
  rcases step_cases hs.sound h with ⟨bytes, heq, -, -, rfl⟩ | ⟨heq, -⟩ | ⟨heq, -⟩ | ⟨heq, -⟩
  · cases heq
    have hpushed := readThreadPass_pushed s.readRing hv readBufs (by omega)
    exact follows_of_ring hs hwhole (hpushed.of_fits hv (by omega)) hsound
  · cases heq
  · cases heq
  · cases heq

theorem look_follows {r s t : Receiver} {got : List Send} (hs : Follows r s got)
    (hframed : Framed s .look) (h : step s .look = some t) : Follows r t got := by
  have hv := hs.sound.ring
  have hsound := step_sound hs.sound h
  rw [Framed, dataAvailable_eq s.readRing hv] at hframed
  rcases step_cases hs.sound h with ⟨_, heq, -⟩ | ⟨-, -, rfl⟩ | ⟨heq, -⟩ | ⟨heq, -⟩
  · cases heq
  · refine ⟨hsound, hs.callback, hs.idle, hs.stray, hs.ring, ?_, hs.arrived, hs.taken,
      hs.delivered⟩
    intro n hn
    obtain rfl := Option.some.inj hn
    refine ⟨hframed, ?_⟩
    rw [Int.toNat_natCast]
    exact cut_all hs.ring (length_contents s.readRing hv)
  · cases heq
  · cases heq

/-- The frames that are taken lie in front of the stray bytes. -/
theorem window_of_turn {r s : Receiver} {got : List Send} (hs : Follows r s got) {n : ℤ}
    (hn : s.availableSize = some n) (hpos : 0 < n) :
    ∃ sends bytes, (contents s.readRing).take n.toNat = stream sends ∧
      readSize n (tcParserFreeSpace s.parser) = n.toNat ∧
      window (handed s n) = stream sends ++ bytes ∧ bytes.length = s.parser.dataSize := by
  obtain ⟨hle, hcut⟩ := hs.looked n hn
  obtain ⟨sends, hsends⟩ := hcut.before
  have hsize := readSize_eq hs.sound hn
  have hfree := readSize_le_free hs.sound hn
  have hcells := s.parser.data_length
  simp only [tmmParserBufSize, ipcMaximumDataSize] at hcells
  rw [hs.sound.parser.freeSpace_eq] at hle
  rw [Nat.min_eq_left (by omega)] at hsize
  have hnext : nextBytes s n = stream sends := by rw [nextBytes, hsize, hsends]
  have hlen : (nextBytes s n).length = n.toNat := by
    rw [nextBytes, hsize, List.length_take, Nat.min_eq_left hcut.le]
  refine ⟨sends, slice s.parser.data (nextBytes s n).length s.parser.dataSize, hsends, hsize,
    ?_, ?_⟩
  · rw [window_handed hs.sound hn hpos, hnext]
  · rw [hlen]
    exact length_slice _ _ _ (by omega)

/-- The call of the decoder in such a turn delivers these frames and nothing else. -/
theorem decodes_of_turn {r s t : Receiver} {got : List Send} (hs : Follows r s got) {n : ℤ}
    {out : List ReceivedData} {u : ParserHandle} (hturns : Turns s t n out u) :
    ∃ sends, (contents s.readRing).take n.toNat = stream sends ∧
      readSize n (tcParserFreeSpace s.parser) = n.toNat ∧ out = sends.map Send.delivered ∧
      (compact u).parserReceivedData = true ∧ (compact u).parserState = stateIdle ∧
      (compact u).dataSize = s.parser.dataSize := by
  obtain ⟨sends, bytes, hsends, hsize, hwindow, hstray⟩ :=
    window_of_turn hs hturns.seen hturns.pos
  obtain ⟨-, -, -, -, hstate, -, hcb⟩ := handed_eq hs.sound hturns.seen
  have hp := handed_placed hs.sound hturns.seen
  have hshort : bytes.length < 12 := by
    rw [hstray]
    exact dataSize_lt_of_idle hs.sound.parser hs.idle
  have hscan := scans_stray sends hshort
  rw [← hwindow] at hscan
  obtain ⟨v, hdecode, hreturned⟩ :=
    tcParserDecoder_scans hp (Or.inl (hstate.trans hs.idle)) hscan
  rw [tcParserDecoder_eq hp hturns.ends, heard, hcb, hs.callback, if_pos rfl,
    Option.some.injEq, Prod.mk.injEq] at hdecode
  obtain ⟨rfl, rfl⟩ := hdecode
  have hidle : (compact u).parserState = stateIdle := by
    rcases hreturned.resumes with hidle | ⟨-, hl⟩
    · exact hidle
    · have hroom := hl.room
      rw [hreturned.window] at hroom
      omega
  exact ⟨sends, hsends, hsize, rfl, hreturned.callback.trans (hcb.trans hs.callback), hidle,
    hreturned.dataSize.trans hstray⟩

theorem turn_follows {r s t : Receiver} {got : List Send} (hs : Follows r s got)
    (h : step s .turn = some t) : ∃ sends, Follows r t (got ++ sends) := by
  have hv := hs.sound.ring
  have hsound := step_sound hs.sound h
  rcases step_cases hs.sound h with ⟨_, heq, -⟩ | ⟨heq, -⟩ | ⟨-, -, rfl⟩ |
    ⟨-, n, out, u, hturns⟩
  · cases heq
  · cases heq
  · refine ⟨[], ?_⟩
    rw [List.append_nil]
    exact ⟨hsound, hs.callback, hs.idle, hs.stray, hs.ring, fun n hn => (by cases hn),
      hs.arrived, hs.taken, hs.delivered⟩
  · obtain ⟨sends, hsends, hsize, rfl, hcb, hidle, hstray⟩ := decodes_of_turn hs hturns
    obtain ⟨-, -, hout⟩ := readData_ok hs.sound hturns.seen hturns.pos
    obtain ⟨-, hcut⟩ := hs.looked n hturns.seen
    have hcount := readSize_le_count hs.sound hturns.seen
    have hafter : contents (advance s.readRing n.toNat) =
        (contents s.readRing).drop n.toNat :=
      contents_advance s.readRing hv _ (hsize ▸ hcount)
    have heq := hturns.eq
    rw [hsize] at heq hout
    rw [hout, hsends] at heq
    rw [heq] at hsound ⊢
    refine ⟨sends, hsound, hcb, hidle, hstray.trans hs.stray, ?_, fun n hn => (by cases hn),
      ?_, ?_, ?_⟩
    · change Whole (contents (advance s.readRing n.toNat))
      rw [hafter]
      exact hcut.after
    · change s.arrived = r.arrived ++ stream (got ++ sends) ++
        contents (advance s.readRing n.toNat)
      rw [hafter, stream_append, ← hsends, hs.arrived]
      simp only [List.append_assoc, List.take_append_drop]
    · change s.taken ++ stream sends = r.taken ++ stream (got ++ sends)
      rw [hs.taken, stream_append, List.append_assoc]
    · change s.delivered ++ sends.map Send.delivered =
        r.delivered ++ (got ++ sends).map Send.delivered
      rw [hs.delivered, List.map_append, List.append_assoc]

theorem step_follows {r s t : Receiver} {got : List Send} (hs : Follows r s got) {e : Event}
    (hframed : Framed s e) (h : step s e = some t) : ∃ got', Follows r t got' := by
  cases e with
  | arrive readBufs => exact ⟨got, arrive_follows hs hframed h⟩
  | look => exact ⟨got, look_follows hs hframed h⟩
  | turn =>
    obtain ⟨sends, ht⟩ := turn_follows hs h
    exact ⟨got ++ sends, ht⟩

/-- Whatever the receiver was fed before: once it rests in StateIdle with an empty ring
and no look pending, frames that arrive whole, each with room in the ring, and are taken
whole are delivered each once and in order, and the bytes left over stay as many, fewer
than twelve. -/
theorem idle_receiver_delivers (cells : List UInt8) (hcells : cells.length = readRingBufferSize)
    (parserData : IpcMsg) (stale : Bool) {r s : Receiver}
    (hr : Reach step Free (start cells hcells parserData stale true) r)
    (hidle : r.parser.parserState = stateIdle) (hring : contents r.readRing = [])
    (hlook : r.availableSize = none) (h : Reach step Framed r s) :
    ∃ got more, s.arrived = r.arrived ++ stream (got ++ more) ∧
      contents s.readRing = stream more ∧ s.taken = r.taken ++ stream got ∧
      s.delivered = r.delivered ++ got.map Send.delivered ∧
      s.parser.dataSize = r.parser.dataSize ∧ s.parser.dataSize < 12 := by
  obtain ⟨hsound, hcb⟩ := reach_registered cells hcells parserData stale hr
  have hfollows : ∃ got, Follows r s got := h.invariant (fun u => ∃ got, Follows r u got)
    ⟨[], follows_refl hsound hcb hidle hring hlook⟩
    fun _ _ _ ⟨_, hu⟩ hframed hstep => step_follows hu hframed hstep
  obtain ⟨got, hs⟩ := hfollows
  obtain ⟨more, hmore⟩ := hs.ring
  refine ⟨got, more, ?_, hmore, hs.taken, hs.delivered, hs.stray, ?_⟩
  · rw [stream_append, ← List.append_assoc, ← hmore]
    exact hs.arrived
  · exact dataSize_lt_of_idle hs.sound.parser hs.idle

/-- Three bytes that begin no frame, and a frame after them. -/
theorem idle_receiver_delivers_one :
    ∃ r s, runFrom step fresh (piecewise [[0x01, 0x02, 0x03]]) = some r ∧
      runFrom step r (piecewise [sendEmpty.frame]) = some s ∧
      ∃ got more, s.arrived = r.arrived ++ stream (got ++ more) ∧
        contents s.readRing = stream more ∧ s.taken = r.taken ++ stream got ∧
        s.delivered = r.delivered ++ got.map Send.delivered ∧
        s.parser.dataSize = r.parser.dataSize ∧ s.parser.dataSize < 12 := by
  have hrun : ((runFrom step fresh (piecewise [[0x01, 0x02, 0x03]])).bind fun r =>
      (step r (.arrive sendEmpty.frame)).bind fun u => (step u .look).bind fun v =>
        (step v .turn).map fun _ => decide (r.parser.parserState = stateIdle ∧
          contents r.readRing = [] ∧ r.availableSize = none ∧
          (sendEmpty.frame.length : ℤ) ≤ tcBufferFreeSpace r.readRing ∧
          tcBufferDataAvailable u.readRing ≤ tcParserFreeSpace u.parser)) = some true := by
    decide +kernel
  obtain ⟨r, hr, hrun⟩ := Option.bind_eq_some_iff.mp hrun
  obtain ⟨u, hu, hrun⟩ := Option.bind_eq_some_iff.mp hrun
  obtain ⟨v, hv, hrun⟩ := Option.bind_eq_some_iff.mp hrun
  obtain ⟨s, hs, hrun⟩ := Option.map_eq_some_iff.mp hrun
  obtain ⟨hidle, hring, hlook, hfits, hroom⟩ := of_decide_eq_true hrun
  have harrived : Reach step Framed r u :=
    .tail (e := .arrive sendEmpty.frame) .refl ⟨PacedLink.whole_frame sendEmpty, hfits⟩ hu
  have hreach : Reach step Framed r s :=
    .tail (e := .turn) (.tail (e := .look) harrived hroom hv) trivial hs
  refine ⟨r, s, hr, ?_, idle_receiver_delivers _ _ _ _ (reach_of_runFrom _ hr) hidle hring hlook
    hreach⟩
  simp only [piecewise, List.flatMap_singleton, runFrom, hu, hv, hs, Option.bind_some]

/-! A receiver at rest in StateData -/

/-- Since `r`, in which the decoder waits for a frame, it has only counted bytes. -/
structure Deaf (r s : Receiver) : Prop where
  state : s.parser.parserState = stateData
  header : s.parser.parserData = r.parser.parserData
  delivered : s.delivered = r.delivered
  later : r.taken.length ≤ s.taken.length
  counted : s.parser.dataSize + r.taken.length = r.parser.dataSize + s.taken.length

/-- The bytes of the announced frame have all been counted. -/
def Counted (r s : Receiver) : Prop :=
  frameSize r.parser.parserData.length ≤ tmmParserBufSize ∧
    r.taken.length + (frameSize r.parser.parserData.length - r.parser.dataSize) ≤ s.taken.length

theorem Deaf.of_same {r s t : Receiver} (hs : Deaf r s) (hparser : t.parser = s.parser)
    (htaken : t.taken = s.taken) (hdelivered : t.delivered = s.delivered) : Deaf r t := by
  refine ⟨?_, ?_, hdelivered.trans hs.delivered, htaken ▸ hs.later, ?_⟩
  · rw [hparser]
    exact hs.state
  · rw [hparser]
    exact hs.header
  · rw [hparser, htaken]
    exact hs.counted

theorem turn_deaf {r s t : Receiver} (hs : Sound s) (hdeaf : Deaf r s) {n : ℤ}
    {out : List ReceivedData} {u : ParserHandle} (hturns : Turns s t n out u) :
    Deaf r t ∨ Counted r t := by
  obtain ⟨hoffset, hdataSize, -, -, hstate, hlatched, -⟩ := handed_eq hs hturns.seen
  have hp := handed_placed hs hturns.seen
  have hlen := length_readData_out hs hturns.seen hturns.pos
  have hfree := readSize_le_free hs hturns.seen
  have hlater := hdeaf.later
  have hcounted := hdeaf.counted
  have htaken : t.taken.length = s.taken.length + (readData s n).out.length := by
    rw [hturns.eq, List.length_append]
  have hheader : (handed s n).parserData = r.parser.parserData := hlatched.trans hdeaf.header
  by_cases hshort : (handed s n).dataSize < frameSize r.parser.parserData.length
  · -- The pass that looks for the end of the frame stops the loop.
    have hwaits : (handed s n).parserState = stateData := hstate.trans hdeaf.state
    have hroom := hp.room (by rw [hwaits]; decide)
    have hends := ends_wait hp hroom hwaits (by rw [hheader, hoffset, Nat.sub_zero]; exact hshort)
    obtain ⟨rfl, rfl⟩ := hturns.ends.det hends
    obtain ⟨-, hsize, -⟩ := compact_eq hp
    refine Or.inl ⟨?_, ?_, ?_, by omega, ?_⟩
    · rw [hturns.eq]
      exact hwaits
    · rw [hturns.eq]
      exact hheader
    · rw [hturns.eq]
      change s.delivered ++ [] = r.delivered
      rw [List.append_nil, hdeaf.delivered]
    · have hparser : t.parser.dataSize = (handed s n).dataSize := by
        rw [hturns.eq]
        change (compact (handed s n)).dataSize = _
        rw [hsize, hoffset, Nat.sub_zero]
      omega
  · refine Or.inr ⟨?_, ?_⟩
    · simp only [tmmParserBufSize, ipcMaximumDataSize]
      omega
    · omega

theorem step_deaf {r s t : Receiver} (hs : Sound s) (hcase : Deaf r s ∨ Counted r s) {e : Event}
    (h : step s e = some t) : Deaf r t ∨ Counted r t := by
  have hsame : ∀ v : Receiver, v.parser = s.parser → v.taken = s.taken →
      v.delivered = s.delivered → Deaf r v ∨ Counted r v := by
    intro v hparser htaken hdelivered
    refine hcase.imp (fun hdeaf => hdeaf.of_same hparser htaken hdelivered) fun hcounted => ?_
    rw [Counted, htaken]
    exact hcounted
  rcases step_cases hs h with ⟨_, -, -, -, rfl⟩ | ⟨-, -, rfl⟩ | ⟨-, -, rfl⟩ |
    ⟨-, n, out, u, hturns⟩
  · exact hsame _ rfl rfl rfl
  · exact hsame _ rfl rfl rfl
  · exact hsame _ rfl rfl rfl
  · rcases hcase with hdeaf | hcounted
    · exact turn_deaf hs hdeaf hturns
    · refine Or.inr ⟨hcounted.1, Nat.le_trans hcounted.2 ?_⟩
      rw [hturns.eq, List.length_append]
      exact Nat.le_add_right _ _

/-- A receiver that waits for a frame gives out nothing and keeps the header it has
latched until as many bytes as are missing have been taken, whatever they are; when
the announced frame does not fit into the buffer, for ever. -/
theorem waiting_receiver_is_deaf (cells : List UInt8)
    (hcells : cells.length = readRingBufferSize) (parserData : IpcMsg) (stale cb : Bool)
    {r s : Receiver} (hr : Reach step Free (start cells hcells parserData stale cb) r)
    (hwaits : r.parser.parserState = stateData) (h : Reach step Free r s) :
    (s.taken.length <
        r.taken.length + (frameSize r.parser.parserData.length - r.parser.dataSize) →
      Deaf r s) ∧
      (tmmParserBufSize < frameSize r.parser.parserData.length → Deaf r s) := by
  have hsound := reach_sound (start_sound cells hcells parserData stale cb) hr
  obtain ⟨-, hcase⟩ : Sound s ∧ (Deaf r s ∨ Counted r s) :=
    h.invariant (fun u => Sound u ∧ (Deaf r u ∨ Counted r u))
      ⟨hsound, Or.inl ⟨hwaits, rfl, rfl, Nat.le_refl _, rfl⟩⟩
      fun _ _ _ ⟨hu, hcase⟩ _ hstep => ⟨step_sound hu hstep, step_deaf hu hcase hstep⟩
  rcases hcase with hdeaf | ⟨hfits, hcounted⟩
  · exact ⟨fun _ => hdeaf, fun _ => hdeaf⟩
  · exact ⟨fun hfew => absurd hcounted (Nat.not_le_of_lt hfew),
      fun hbig => absurd hfits (Nat.not_le_of_lt hbig)⟩

/-- FF FF for the length. -/
def oversized : List UInt8 := [0xff, 0x55, 0xaa, 0, 0, 0, 0, 0xff, 0xff, 0, 0, 0]

theorem waiting_receiver_is_deaf_oversized :
    ∃ r s, runFrom step fresh (piecewise [oversized]) = some r ∧
      runFrom step r (piecewise [sendEmpty.frame]) = some s ∧ Deaf r s := by
  have hrun : ((runFrom step fresh (piecewise [oversized])).bind fun r =>
      (runFrom step r (piecewise [sendEmpty.frame])).map fun _ =>
        decide (r.parser.parserState = stateData ∧
          tmmParserBufSize < frameSize r.parser.parserData.length)) = some true := by
    decide +kernel
  obtain ⟨r, hr, hrun⟩ := Option.bind_eq_some_iff.mp hrun
  obtain ⟨s, hs, hrun⟩ := Option.map_eq_some_iff.mp hrun
  obtain ⟨hwaits, hbig⟩ := of_decide_eq_true hrun
  exact ⟨r, s, hr, hs, (waiting_receiver_is_deaf _ _ _ _ _ (reach_of_runFrom _ hr) hwaits
    (reach_of_runFrom _ hs)).2 hbig⟩

/-- The payload of `call` under the commands that `h` has latched. -/
def mixed (h : ParserHandle) (call : Send) : ReceivedData :=
  { call.delivered with cmd1 := h.parserData.cmd1, cmd2 := h.parserData.cmd2 }

theorem framed_mixed {h : ParserHandle} {call : Send} {bytes : List UInt8}
    (hwindow : window h = call.frame ++ bytes) (hlength : call.length = h.parserData.length) :
    framed h = mixed h call := by
  have hc := call.carries_frame
  have hsize : frameSize call.length = call.frame.length := hc.size.symm
  have hdata : dataOf (window h) h.parserData.length = call.delivered.data := by
    rw [hwindow, ← hlength, dataOf_append _ _ _ (Nat.le_of_eq hsize)]
    exact hc.data.symm
  rw [framed, mixed, hdata, ← hlength]
  rfl

/-- The loop takes such a frame for the one whose header is latched. -/
theorem leads_mixed {h : ParserHandle} (hp : Placed h) (hwaits : h.parserState = stateData)
    (hcb : h.parserReceivedData = true) {call : Send} {bytes : List UInt8}
    (hwindow : window h = call.frame ++ bytes) (hlength : call.length = h.parserData.length) :
    Leads decodeGuard decodeBody h [mixed h call] (consume h) ∧ Placed (consume h) := by
  have hc := call.carries_frame
  have hsize : call.frame.length = frameSize call.length := hc.size
  have hge := frameSize_ge call.length
  have hroom := hp.length_window
  rw [hwindow, List.length_append] at hroom
  have hcrc : CrcOk (window h) (frameSize h.parserData.length) := by
    rw [← hlength, ← hsize, hwindow, crcOk_append _ _ _ (by omega) (Nat.le_refl _)]
    exact hc.crc
  have hleads := leads_frame hp (by omega) hwaits (by rw [← hlength]; omega)
  rw [if_pos hcrc, heard, hcb, if_pos rfl, framed_mixed hwindow hlength] at hleads
  exact ⟨hleads, placed_consume hp.dataSize_le (by rw [← hlength]; omega)⟩

/-- A receiver that waits for the rest of a frame takes a whole frame of the announced
length for it: the checksum is that of the new frame, the commands are those of the
old one. -/
theorem waiting_receiver_mixes (cells : List UInt8) (hcells : cells.length = readRingBufferSize)
    (parserData : IpcMsg) (stale : Bool) {r t : Receiver}
    (hr : Reach step Free (start cells hcells parserData stale true) r)
    (hwaits : r.parser.parserState = stateData) {n : ℤ} (hlook : r.availableSize = some n)
    (call : Send) (hbytes : nextBytes r n = call.frame)
    (hlength : call.length = r.parser.parserData.length) (h : step r .turn = some t) :
    ∃ more, t.delivered = r.delivered ++ mixed r.parser call :: more := by
  obtain ⟨hsound, hcb⟩ := reach_registered cells hcells parserData stale hr
  rcases step_cases hsound h with ⟨_, heq, -⟩ | ⟨heq, -⟩ | ⟨-, hzero, -⟩ |
    ⟨-, n', out, u, hturns⟩
  · cases heq
  · cases heq
  · -- Nothing was seen, so there is no frame to take.
    have hsize : call.frame.length = frameSize call.length := call.carries_frame.size
    have hge := frameSize_ge call.length
    rw [hlook, Option.some.injEq] at hzero
    have hnone : readSize n (tcParserFreeSpace r.parser) = 0 := by
      rw [readSize_eq hsound hlook, hzero]
      exact Nat.zero_min _
    rw [nextBytes, hnone, List.take_zero] at hbytes
    rw [← hbytes, List.length_nil] at hsize
    omega
  · obtain rfl : n' = n := Option.some.inj (hturns.seen.symm.trans hlook)
    obtain ⟨-, -, -, -, hstate, hlatched, hheard⟩ := handed_eq hsound hlook
    have hwindow := window_handed hsound hlook hturns.pos
    rw [hbytes] at hwindow
    obtain ⟨hleads, hplaced⟩ := leads_mixed (handed_placed hsound hlook) (hstate.trans hwaits)
      (hheard.trans hcb) hwindow (hlength.trans (by rw [hlatched]))
    obtain ⟨v, more, hends⟩ := decoder_ends hplaced
    obtain ⟨hout, -⟩ := hturns.ends.det (hleads.ends hends)
    refine ⟨more, ?_⟩
    rw [hturns.eq]
    change r.delivered ++ out = _
    rw [hout, mixed, mixed, hlatched]
    rfl

/-- A call with a payload as long as that of `sendStartPattern`. -/
def sendThree : Send where
  sendBuf := List.replicate 520 0x11
  cmd1 := 0x1112
  cmd2 := 0x1314
  buf := some [0x21, 0x22, 0x23]
  length := 3
  sendBuf_length := List.length_replicate
  payload := ⟨rfl⟩
  length_le := sendStartPattern.length_le

/-- Of the first of two frames the last two bytes are lost. -/
def firstCut : List Event :=
  piecewise [sendStartPattern.frame.take 12] ++ [.arrive sendThree.frame, .look]

theorem waiting_receiver_mixes_three :
    ∃ r t, runFrom step fresh firstCut = some r ∧ step r .turn = some t ∧
      ∃ more, t.delivered =
        r.delivered ++ ⟨0x0102, 0x0304, 3, some [0x21, 0x22, 0x23]⟩ :: more := by
  have hrun : ((runFrom step fresh firstCut).bind fun r => (step r .turn).map fun _ =>
      decide (r.parser.parserState = stateData ∧ r.availableSize = some 14 ∧
        nextBytes r 14 = sendThree.frame ∧ sendThree.length = r.parser.parserData.length ∧
        mixed r.parser sendThree = ⟨0x0102, 0x0304, 3, some [0x21, 0x22, 0x23]⟩)) =
          some true := by
    decide +kernel
  obtain ⟨r, hr, hrun⟩ := Option.bind_eq_some_iff.mp hrun
  obtain ⟨t, ht, hrun⟩ := Option.map_eq_some_iff.mp hrun
  obtain ⟨hwaits, hlook, hbytes, hlength, hmixed⟩ := of_decide_eq_true hrun
  have hdelivered := waiting_receiver_mixes _ _ _ _ (reach_of_runFrom _ hr) hwaits hlook sendThree
    hbytes hlength ht
  rw [hmixed] at hdelivered
  exact ⟨r, t, hr, ht, hdelivered⟩

end TcIpcCtrl.StrayBytes
