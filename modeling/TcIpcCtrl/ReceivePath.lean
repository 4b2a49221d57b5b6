import TcIpcCtrl.ReadRing
import TcIpcCtrl.RoundTrip

/-!
The receive path: ReadThread fills the read ring, ParserThread empties it into
the buffer of the decoder. A run interleaves whole passes of ReadThread with
the two halves of a pass of ParserThread, the look at the ring and the turn
that follows it. Every reachable state keeps the bookkeeping of the decoder in
place, whatever the stream and however it is cut.
-/
namespace TcIpcCtrl.ReceivePath

open CInt Cells Package WhileLoop Runs BoundedQueue RingBuffer RingContents RingEffects
  TcIpcCtrl.Parser DecoderPasses DecoderRefinement RoundTrip
open ReadRing (readRingBufferSize tmmReadSize needsOverwrite needsOverwrite_eq_true pushRead
  pushRead_pushed)

/-- The body of ReadThread once `read` has returned the bytes `readBufs`. -/
def readThreadPass (ring : TcRingbuf UInt8) (readBufs : List UInt8) : Call UInt8 :=
  pushRead ring readBufs (needsOverwrite ring readBufs)

/-- The read ring, the decoder, and where ParserThread stands: `availableSize`
is set between its look at the ring and the rest of its pass. -/
structure Receiver where
  readRing : TcRingbuf UInt8
  parser : ParserHandle
  availableSize : Option ℤ
  /-- bytes read from the device so far -/
  arrived : List UInt8
  /-- bytes popped from the ring so far -/
  taken : List UInt8
  /-- messages given to the callback so far -/
  delivered : List ReceivedData

inductive Event
  | arrive (readBufs : List UInt8)
  | look
  | turn

def readSize (availableSize : ℤ) (parserSize : ℕ) : ℕ :=
  if u32 availableSize > parserSize then parserSize else u32 availableSize

/-- tc_ipc_read_data has stored `bytes` at tc_parser_BufAddr and tc_parser_push_size
has counted them. -/
def pushed (h : ParserHandle) (bytes : List UInt8) (size : ℕ) : ParserHandle :=
  tcParserPushSize (h.store (tcParserBufAddr h) bytes) size

/-- What tc_ipc_read_data does in the pass that follows the look. -/
def readData (s : Receiver) (availableSize : ℤ) : Call UInt8 :=
  tcPopBuffer s.readRing (readSize availableSize (tcParserFreeSpace s.parser))

/-- The decoder as it is called in the pass that follows the look. -/
def handed (s : Receiver) (availableSize : ℤ) : ParserHandle :=
  pushed s.parser (readData s availableSize).out
    (readSize availableSize (tcParserFreeSpace s.parser))

/-- The rest of a pass of ParserThread; `none` when the decoder does not return. -/
def parse (s : Receiver) (availableSize : ℤ) : Option Receiver :=
  if availableSize > 0 then
    if (readData s availableSize).ret = 0 then
      (tcParserDecoder (handed s availableSize)).map fun r =>
        { s with
          readRing := (readData s availableSize).ring
          parser := r.1
          availableSize := none
          taken := s.taken ++ (readData s availableSize).out
          delivered := s.delivered ++ r.2 }
    else some { s with readRing := (readData s availableSize).ring, availableSize := none }
  else some { s with availableSize := none }

def step (s : Receiver) : Event → Option Receiver
  | .arrive readBufs =>
    if 1 ≤ readBufs.length ∧ readBufs.length ≤ tmmReadSize then
      some { s with
        readRing := (readThreadPass s.readRing readBufs).ring
        arrived := s.arrived ++ readBufs }
    else none
  | .look =>
    if s.availableSize = none then
      some { s with availableSize := some (tcBufferDataAvailable s.readRing) }
    else none
  | .turn => s.availableSize.bind fun availableSize => parse s availableSize

/-- The state in which the threads are started: `cells` and `parserData` are what
the allocation left, `stale` its callback pointer, `cb` the one registered. -/
def start (cells : List UInt8) (hcells : cells.length = readRingBufferSize) (parserData : IpcMsg)
    (stale cb : Bool) : Receiver :=
  { readRing := tcBufferInit cells readRingBufferSize hcells
    parser := ipcParserResisterCallback (ipcParserHandleInit parserData stale) cb
    availableSize := none
    arrived := []
    taken := []
    delivered := [] }

/-- The decoder between two of its calls. -/
structure Rests (h : ParserHandle) : Prop where
  offset : h.offset = 0
  dataSize_le : h.dataSize ≤ h.maxSize
  maxSize : h.maxSize = 1024
  state : (h.parserState = stateIdle ∧ h.dataSize < 12) ∨
    (h.parserState = stateData ∧ 12 ≤ h.dataSize ∧
      h.dataSize < FrameGrammar.frameSize h.parserData.length)

theorem rests_init (parserData : IpcMsg) (stale : Bool) :
    Rests (ipcParserHandleInit parserData stale) :=
  ⟨rfl, Nat.zero_le _, rfl, Or.inl ⟨rfl, Nat.succ_pos 11⟩⟩

theorem Rests.register {h : ParserHandle} (hr : Rests h) (cb : Bool) :
    Rests (ipcParserResisterCallback h cb) := by
  cases cb with
  | false => exact hr
  | true => exact ⟨hr.offset, hr.dataSize_le, hr.maxSize, hr.state⟩

theorem stored_dataSize (h : ParserHandle) (pos : ℕ) (src : List UInt8) (size : ℕ)
    (hfit : h.dataSize + size ≤ 1024) :
    (tcParserPushSize (h.store pos src) size).dataSize = h.dataSize + size :=
  u32_add h.dataSize size (by omega)

/-- Bytes that have been counted, wherever they were stored, leave the decoder in
place for its next call. -/
theorem stored_placed {h : ParserHandle} (hr : Rests h) (pos : ℕ) (src : List UInt8) (size : ℕ)
    (hfit : h.dataSize + size ≤ 1024) : Placed (tcParserPushSize (h.store pos src) size) := by
  have hsize := stored_dataSize h pos src size hfit
  have hoffset : (tcParserPushSize (h.store pos src) size).offset = 0 := hr.offset
  have hle : (tcParserPushSize (h.store pos src) size).dataSize ≤ tmmParserBufSize := by
    rw [hsize]
    exact hfit
  rcases hr.state with ⟨hidle, -⟩ | ⟨hdata, hroom, -⟩
  · exact placed_of_idle (by omega) hle hidle
  · exact placed_of_data hle (by omega) hdata

/-- What every step keeps. -/
structure Sound (s : Receiver) : Prop where
  ring : Valid s.readRing
  ring_size : s.readRing.maxBufferSize = readRingBufferSize
  parser : Rests s.parser
  seen : ∀ n, s.availableSize = some n → 0 ≤ n ∧ n ≤ count s.readRing

theorem start_sound (cells : List UInt8) (hcells : cells.length = readRingBufferSize)
    (parserData : IpcMsg) (stale cb : Bool) : Sound (start cells hcells parserData stale cb) where
  ring := init_valid cells _ hcells (by decide) (by decide)
  ring_size := rfl
  parser := (rests_init parserData stale).register cb
  seen n hn := by cases hn

/-! ReadThread -/

/-- Nothing comes between the decision and the push, so a pass keeps the newest
bytes that fit. -/
theorem readThreadPass_pushed (ring : TcRingbuf UInt8) (hv : Valid ring) (readBufs : List UInt8)
    (hlt : readBufs.length < ring.maxBufferSize) :
    Pushed ring (readThreadPass ring readBufs).ring readBufs := by
  have hcount := count_lt ring hv
  have hneeds := needsOverwrite_eq_true ring hv readBufs hlt
  apply pushRead_pushed ring hv readBufs _ hlt
  · intro hfits
    by_contra hfull
    rw [hneeds.mpr (Nat.le_of_not_lt hfull)] at hfits
    cases hfits
  · intro hover
    have hfull := hneeds.mp hover
    rw [freeSpace_eq ring hv]
    omega

/-! ParserThread -/

theorem Rests.freeSpace_eq {h : ParserHandle} (hr : Rests h) :
    tcParserFreeSpace h = 1024 - h.dataSize := by
  have hle := hr.dataSize_le
  rw [hr.maxSize] at hle
  rw [tcParserFreeSpace, hr.offset, hr.maxSize]
  have hsum : u32 ((0 : ℕ) + h.dataSize) = h.dataSize := by
    rw [u32_add _ _ (by omega), Nat.zero_add]
  rw [hsum]
  exact u32_sub 1024 _ hle (by decide)

section Turn

variable {s : Receiver} (hs : Sound s) {n : ℤ} (hn : s.availableSize = some n) (hpos : 0 < n)

include hs hn

theorem readSize_eq :
    readSize n (tcParserFreeSpace s.parser) = min n.toNat (1024 - s.parser.dataSize) := by
  obtain ⟨hlo, hhi⟩ := hs.seen n hn
  have hcount := count_lt s.readRing hs.ring
  have hsize := hs.ring.size_lt
  have hu32 : u32 n = n.toNat := by
    unfold u32
    omega
  rw [readSize, hu32, hs.parser.freeSpace_eq]
  split <;> omega

theorem readSize_le_count : readSize n (tcParserFreeSpace s.parser) ≤ count s.readRing := by
  obtain ⟨hlo, hhi⟩ := hs.seen n hn
  rw [readSize_eq hs hn]
  omega

theorem readSize_le_free :
    s.parser.dataSize + readSize n (tcParserFreeSpace s.parser) ≤ 1024 := by
  have hle := hs.parser.dataSize_le
  rw [hs.parser.maxSize] at hle
  rw [readSize_eq hs hn]
  omega

theorem handed_eq : (handed s n).offset = 0 ∧
    (handed s n).dataSize = s.parser.dataSize + readSize n (tcParserFreeSpace s.parser) ∧
    (handed s n).data = memcpy s.parser.data 0 (readData s n).out ∧
    (handed s n).maxSize = 1024 ∧
    (handed s n).parserState = s.parser.parserState ∧
    (handed s n).parserData = s.parser.parserData ∧
    (handed s n).parserReceivedData = s.parser.parserReceivedData := by
  have hle := readSize_le_free hs hn
  have hoff := hs.parser.offset
  refine ⟨hoff, stored_dataSize s.parser _ _ _ hle, ?_, hs.parser.maxSize, rfl, rfl, rfl⟩
  show memcpy s.parser.data s.parser.offset (readData s n).out = _
  rw [hoff]

theorem handed_placed : Placed (handed s n) :=
  stored_placed hs.parser _ _ _ (readSize_le_free hs hn)

include hpos

/-- What is popped is there, so the pop succeeds. -/
theorem readData_ok :
    (readData s n).ring = advance s.readRing (readSize n (tcParserFreeSpace s.parser)) ∧
      (readData s n).ret = 0 ∧
      (readData s n).out =
        (contents s.readRing).take (readSize n (tcParserFreeSpace s.parser)) := by
  obtain ⟨hlo, hhi⟩ := hs.seen n hn
  obtain ⟨hring, hret, hout, -⟩ := tcPopBuffer_ok s.readRing hs.ring _ (by omega)
    (readSize_le_count hs hn)
  exact ⟨hring, hret, hout⟩

theorem length_readData_out :
    (readData s n).out.length = readSize n (tcParserFreeSpace s.parser) := by
  obtain ⟨-, -, hout⟩ := readData_ok hs hn hpos
  have hle := readSize_le_count hs hn
  rw [hout, List.length_take, length_contents s.readRing hs.ring]
  omega

end Turn

theorem rests_compact {h t : ParserHandle} {out : List ReceivedData} (hp : Placed h)
    (hmax : h.maxSize = 1024) (hends : Ends decodeGuard decodeBody h out t) :
    Rests (compact t) := by
  obtain ⟨ht, hsame, hstate⟩ := ends_safe hp hends
  obtain ⟨hoff, hsize, -⟩ := compact_eq ht
  have hle := ht.dataSize_le
  simp only [tmmParserBufSize, ipcMaximumDataSize] at hle
  have hmax' : (compact t).maxSize = 1024 := hsame.maxSize.trans hmax
  refine ⟨hoff, ?_, hmax', ?_⟩
  · rw [hmax', hsize]
    omega
  · rw [hsize]
    rcases hstate with ⟨hidle, hshort⟩ | ⟨hdata, hshort⟩
    · exact Or.inl ⟨hidle, hshort⟩
    · refine Or.inr ⟨hdata, ht.room ?_, hshort⟩
      rw [hdata]
      decide

/-! What a step can do -/

/-- The rest of a pass that reads from the ring. -/
structure Turns (s t : Receiver) (n : ℤ) (out : List ReceivedData) (u : ParserHandle) : Prop where
  seen : s.availableSize = some n
  pos : 0 < n
  ends : Ends decodeGuard decodeBody (handed s n) out u
  eq : t =
    { s with
      readRing := advance s.readRing (readSize n (tcParserFreeSpace s.parser))
      parser := compact u
      availableSize := none
      taken := s.taken ++ (readData s n).out
      delivered := s.delivered ++ out }

theorem parse_turns {s t : Receiver} (hs : Sound s) {n : ℤ} (hn : s.availableSize = some n)
    (hpos : 0 < n) (h : parse s n = some t) : ∃ out u, Turns s t n out u := by
  obtain ⟨hring, hret, -⟩ := readData_ok hs hn hpos
  have hp := handed_placed hs hn
  obtain ⟨u, out, hends⟩ := decoder_ends hp
  rw [parse, if_pos hpos, if_pos hret, tcParserDecoder_eq hp hends, hring] at h
  exact ⟨out, u, hn, hpos, hends, (Option.some.inj h).symm⟩

/-- A pass of ParserThread always comes to its end. -/
theorem parse_isSome {s : Receiver} (hs : Sound s) {n : ℤ} (hn : s.availableSize = some n) :
    ∃ t, parse s n = some t := by
  by_cases hpos : 0 < n
  · obtain ⟨-, hret, -⟩ := readData_ok hs hn hpos
    have hp := handed_placed hs hn
    obtain ⟨u, out, hends⟩ := decoder_ends hp
    rw [parse, if_pos hpos, if_pos hret, tcParserDecoder_eq hp hends]
    exact ⟨_, rfl⟩
  · rw [parse, if_neg hpos]
    exact ⟨_, rfl⟩

theorem step_cases {s t : Receiver} (hs : Sound s) {e : Event} (h : step s e = some t) :
    (∃ readBufs, e = .arrive readBufs ∧ 1 ≤ readBufs.length ∧ readBufs.length ≤ tmmReadSize ∧
      t = { s with
        readRing := (readThreadPass s.readRing readBufs).ring
        arrived := s.arrived ++ readBufs }) ∨
    (e = .look ∧ s.availableSize = none ∧
      t = { s with availableSize := some (count s.readRing : ℤ) }) ∨
    (e = .turn ∧ s.availableSize = some 0 ∧ t = { s with availableSize := none }) ∨
    (e = .turn ∧ ∃ n out u, Turns s t n out u) := by
  cases e with
  | arrive readBufs =>
    by_cases hlen : 1 ≤ readBufs.length ∧ readBufs.length ≤ tmmReadSize
    · rw [step, if_pos hlen] at h
      exact Or.inl ⟨readBufs, rfl, hlen.1, hlen.2, (Option.some.inj h).symm⟩
    · rw [step, if_neg hlen] at h
      cases h
  | look =>
    by_cases hnone : s.availableSize = none
    · rw [step, if_pos hnone, dataAvailable_eq s.readRing hs.ring] at h
      exact Or.inr (Or.inl ⟨rfl, hnone, (Option.some.inj h).symm⟩)
    · rw [step, if_neg hnone] at h
      cases h
  | turn =>
    obtain ⟨n, hn, hparse⟩ := Option.bind_eq_some_iff.mp h
    by_cases hpos : 0 < n
    · obtain ⟨out, u, hturns⟩ := parse_turns hs hn hpos hparse
      exact Or.inr (Or.inr (Or.inr ⟨rfl, n, out, u, hturns⟩))
    · obtain rfl : n = 0 := by
        have hlo := (hs.seen n hn).1
        omega
      rw [parse, if_neg hpos] at hparse
      exact Or.inr (Or.inr (Or.inl ⟨rfl, hn, (Option.some.inj hparse).symm⟩))

theorem sound_of_ring {s : Receiver} (hs : Sound s) {ring : TcRingbuf UInt8} (hv : Valid ring)
    (hsize : ring.maxBufferSize = s.readRing.maxBufferSize)
    (hcount : count s.readRing ≤ count ring) (arrived : List UInt8) :
    Sound { s with readRing := ring, arrived := arrived } := by
  refine ⟨hv, hsize.trans hs.ring_size, hs.parser, ?_⟩
  intro n hn
  obtain ⟨hlo, hhi⟩ := hs.seen n hn
  refine ⟨hlo, ?_⟩
  show n ≤ (count ring : ℤ)
  omega

theorem step_sound {s t : Receiver} (hs : Sound s) {e : Event} (h : step s e = some t) :
    Sound t := by
  rcases step_cases hs h with ⟨readBufs, -, -, hle, rfl⟩ | ⟨-, -, rfl⟩ | ⟨-, -, rfl⟩ |
    ⟨-, n, out, u, hturns⟩
  · have hlt : readBufs.length < s.readRing.maxBufferSize := by
      rw [hs.ring_size, readRingBufferSize]
      simp only [tmmReadSize] at hle
      omega
    have hpushed := readThreadPass_pushed s.readRing hs.ring readBufs hlt
    exact sound_of_ring hs hpushed.valid hpushed.size (hpushed.count_le hs.ring) _
  · refine ⟨hs.ring, hs.ring_size, hs.parser, ?_⟩
    intro n hn
    obtain rfl := Option.some.inj hn
    exact ⟨Int.natCast_nonneg _, Int.le_refl _⟩
  · refine ⟨hs.ring, hs.ring_size, hs.parser, ?_⟩
    intro n hn
    cases hn
  · have hp := handed_placed hs hturns.seen
    have hmax := (handed_eq hs hturns.seen).2.2.2.1
    rw [hturns.eq]
    refine ⟨advance_valid _ hs.ring _, hs.ring_size, rests_compact hp hmax hturns.ends, ?_⟩
    intro n hn
    cases hn

theorem reach_sound {C : Receiver → Event → Prop} {s t : Receiver} (hs : Sound s)
    (h : Reach step C s t) : Sound t :=
  h.invariant Sound hs fun _ _ _ hsound _ hstep => step_sound hsound hstep

/-! Memory safety -/

/-- The decoder at the head of its loop: where the next pass may reach. -/
structure InBounds (t : ParserHandle) : Prop where
  offset_le : t.offset ≤ t.dataSize
  accesses : decodeGuard t = true → ∀ sp ∈ (decodePass t).spans, sp.Within t.dataSize
  inBufferLen_exact : inBufferLen t = t.dataSize - t.offset
  crcOffset_exact : t.parserState = stateCrc →
    t.parserData.length.toNat + ipcProtocolDataOffset < 65536

theorem inBounds_of_placed {t : ParserHandle} (hp : Placed t) : InBounds t := by
  refine ⟨hp.offset_le, ?_, hp.inBufferLen_eq, ?_⟩
  · intro hg
    exact (decodePass_safe_of_guard hp hg).spans
  · intro hcrc
    have hfit := hp.complete hcrc
    have hle := hp.dataSize_le
    simp only [tmmParserBufSize, ipcMaximumDataSize] at hle
    unfold FrameGrammar.frameSize at hfit
    simp only [ipcProtocolDataOffset]
    omega

/-- Both indices of a pass of the compaction loop. -/
theorem compaction_inBounds {t : ParserHandle} (hp : Placed t) (i : ℕ)
    (hi : i < u32 (t.dataSize - t.offset)) : i < t.dataSize ∧ i + t.offset < t.dataSize := by
  have hoff := hp.offset_le
  have hle := hp.dataSize_le
  simp only [tmmParserBufSize, ipcMaximumDataSize] at hle
  rw [u32_sub _ _ hoff (by omega)] at hi
  omega

/-- In every reachable state the decoder is at rest in its buffer, the next read
fits behind its bytes, and the call that follows stays in bounds. -/
theorem parser_in_bounds (cells : List UInt8) (hcells : cells.length = readRingBufferSize)
    (parserData : IpcMsg) (stale cb : Bool) {s : Receiver}
    (h : Reach step Free (start cells hcells parserData stale cb) s) :
    s.parser.offset = 0 ∧ s.parser.dataSize ≤ s.parser.maxSize ∧ s.parser.maxSize = 1024 ∧
      (s.parser.parserState = stateIdle ∨ s.parser.parserState = stateData) ∧
      (tcParserFreeSpace s.parser : ℤ) =
        s.parser.maxSize - (s.parser.offset + s.parser.dataSize) ∧
      ∀ n, s.availableSize = some n → 0 < n →
        (readData s n).ret = tcBufferOk ∧
        (readData s n).out.length = readSize n (tcParserFreeSpace s.parser) ∧
        tcParserBufAddr s.parser + readSize n (tcParserFreeSpace s.parser) ≤
          s.parser.data.length ∧
        (∀ t, Passes decodeGuard decodeBody (handed s n) t → InBounds t) ∧
        ∀ t out, Ends decodeGuard decodeBody (handed s n) out t →
          ∀ i, i < u32 (t.dataSize - t.offset) → i < t.dataSize ∧ i + t.offset < t.dataSize := by
  have hs := reach_sound (start_sound cells hcells parserData stale cb) h
  have hrests := hs.parser
  have hle := hrests.dataSize_le
  refine ⟨hrests.offset, hle, hrests.maxSize, ?_, ?_, ?_⟩
  · rcases hrests.state with ⟨hidle, -⟩ | ⟨hdata, -⟩
    · exact Or.inl hidle
    · exact Or.inr hdata
  · rw [hrests.freeSpace_eq, hrests.offset, hrests.maxSize]
    rw [hrests.maxSize] at hle
    omega
  · intro n hn hpos
    have hp := handed_placed hs hn
    obtain ⟨-, hret, -⟩ := readData_ok hs hn hpos
    refine ⟨hret, length_readData_out hs hn hpos, ?_, ?_, ?_⟩
    · have hfree := readSize_le_free hs hn
      have hlen := s.parser.data_length
      simp only [tmmParserBufSize, ipcMaximumDataSize] at hlen
      rw [tcParserBufAddr, hrests.offset]
      omega
    · intro t hpasses
      exact inBounds_of_placed (passes_safe hp hpasses).1
    · intro t out hends i hi
      exact compaction_inBounds (ends_safe hp hends).1 i hi

/-- A frame and half of another, once decoded and with the other half in the ring. -/
theorem parser_in_bounds_halves :
    ∃ s, runFrom step (start (List.replicate readRingBufferSize 0x00) List.length_replicate
        ⟨0, 0, 0, none⟩ false true) [.arrive (sendStartPattern.frame ++ sendEmpty.frame.take 6),
          .look, .turn, .arrive (sendEmpty.frame.drop 6), .look] = some s ∧
      s.parser.dataSize = 6 ∧ (readData s 6).out.length = 6 ∧
      tcParserBufAddr s.parser + 6 ≤ s.parser.data.length ∧
      (∀ t, Passes decodeGuard decodeBody (handed s 6) t → InBounds t) ∧
      ∀ t out, Ends decodeGuard decodeBody (handed s 6) out t →
        ∀ i, i < u32 (t.dataSize - t.offset) → i < t.dataSize ∧ i + t.offset < t.dataSize :=
  have hrun : (runFrom step (start (List.replicate readRingBufferSize 0x00) List.length_replicate
      ⟨0, 0, 0, none⟩ false true) [.arrive (sendStartPattern.frame ++ sendEmpty.frame.take 6),
        .look, .turn, .arrive (sendEmpty.frame.drop 6), .look]).map
          (fun s => (s.parser.dataSize, s.availableSize, tcParserFreeSpace s.parser)) =
            some (6, some 6, 1018) := by
    decide +kernel
  have ⟨s, hs, heq⟩ := Option.map_eq_some_iff.mp hrun
  have ⟨hsize, hpending⟩ := Prod.mk.inj heq
  have ⟨hseen, hfree⟩ := Prod.mk.inj hpending
  have hbounds := (parser_in_bounds _ _ _ _ _ (reach_of_runFrom _ hs)).2.2.2.2.2 6 hseen
    (by decide)
  have hread : readSize 6 (tcParserFreeSpace s.parser) = 6 := by
    rw [hfree]
    decide
  ⟨s, hs, hsize, hbounds.2.1.trans hread, hread ▸ hbounds.2.2.1, hbounds.2.2.2.1,
    hbounds.2.2.2.2⟩

end TcIpcCtrl.ReceivePath
