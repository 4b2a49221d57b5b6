import TcIpcCtrl.ThreadedReceiver

/-!
What the decoder costs and what it gives out. A frame that is not complete is
left in place with its header latched, so no byte of it is read again before the
rest is there; over any run the reads, the passes and the frames delivered are
paid for by the bytes taken from the ring.
-/
namespace TcIpcCtrl.DecoderWork

open CInt Cells Package WhileLoop Tokens Runs RingBuffer RingContents RingEffects FrameGrammar
  TcIpcCtrl.Parser DecoderPasses DecoderRefinement RoundTrip
open ReadRing (readRingBufferSize)
open ReceivePath (Receiver Turns readSize readData handed)
open ThreadedReceiver (Threads Event fresh)

/-! What a call costs -/

/-- The ranges of `data` that a call of tc_parser_decoder reads in its loop. -/
def decoderReads (h : ParserHandle) : List Span :=
  ((loop decodeGuard (retag decodeBody fun u => (decodePass u).spans) (decodeFuel h) h).map
    Prod.snd).getD []

def bytesRead (h : ParserHandle) : ℕ := ((decoderReads h).map Span.len).sum

/-- How often the body of its loop is entered. -/
def passCount (h : ParserHandle) : ℕ :=
  (((loop decodeGuard (retag decodeBody fun _ => [()]) (decodeFuel h) h).map Prod.snd).getD
    []).length

/-- The fuel does not depend on what a pass emits. -/
theorem loop_retag {τ : Type} {h t : ParserHandle} {out : List ReceivedData} (hp : Placed h)
    (hends : Ends decodeGuard decodeBody h out t) (emit : ParserHandle → List τ) :
    ∃ out', loop decodeGuard (retag decodeBody emit) (decodeFuel h) h = some (t, out') ∧
      Ends decodeGuard (retag decodeBody emit) h out' t := by
  obtain ⟨out', hout'⟩ := hends.retag emit
  have hpass : ∀ u, Placed u → decodeGuard u = true → (retag decodeBody emit u).stop = false →
      Placed (retag decodeBody emit u).state ∧
        passesLeft (retag decodeBody emit u).state < passesLeft u :=
    fun _ hu hg hstop => pass_less hu hg hstop
  exact ⟨out', hout'.loop_eq hpass hp (passesLeft_lt_decodeFuel hp.state_cases), hout'⟩

/-- The bytes that the passes since the last byte consumed may have read. -/
def readSoFar (state : ℤ) : ℕ :=
  if state = stateIdle then 0
  else if state = stateSync then 1
  else if state = stateStart then 2
  else if state = stateHader then 3
  else if state = stateData then 9
  else 10

/-- Three reads for each byte left, less those already done. -/
def readsLeft (left : ℕ) (state : ℤ) : ℕ := 3 * left - readSoFar state

/-- `passesLeft` as a function of the bytes left. -/
def passesAhead (left : ℕ) (state : ℤ) : ℕ := 6 * left + (5 - state).toNat

/-- The bytes left. -/
def bytesLeft (left : ℕ) (_ : ℤ) : ℕ := left

theorem readsLeft_add (left more : ℕ) (state : ℤ) :
    readsLeft (left + more) state ≤ readsLeft left state + 3 * more := by
  unfold readsLeft
  omega

theorem passesAhead_add (left more : ℕ) (state : ℤ) :
    passesAhead (left + more) state ≤ passesAhead left state + 6 * more := by
  unfold passesAhead
  omega

theorem bytesLeft_add (left more : ℕ) (state : ℤ) :
    bytesLeft (left + more) state ≤ bytesLeft left state + 1 * more := by
  unfold bytesLeft
  omega

/-- What a handle can still pay. -/
def balance (rule : ℕ → ℤ → ℕ) (h : ParserHandle) : ℕ :=
  rule (h.dataSize - h.offset) h.parserState

section Reads

variable {h : ParserHandle} (hp : Placed h) (hroom : 12 ≤ h.dataSize - h.offset)

include hp hroom

/-- A byte that does not match pays for itself and for those that matched before. -/
theorem matchByte_reads (i : ℕ) (code : UInt8) (next : ℤ) (hle : readSoFar h.parserState ≤ 2)
    (hnext : readSoFar next = readSoFar h.parserState + 1) :
    ((matchByte h i code next).spans.map Span.len).sum +
      balance readsLeft (matchByte h i code next).handle ≤ balance readsLeft h := by
  by_cases hbyte : inBuffer h i = code
  · rw [matchByte, if_pos hbyte]
    change 1 + (3 * (h.dataSize - h.offset) - readSoFar next) ≤
      3 * (h.dataSize - h.offset) - readSoFar h.parserState
    omega
  · have hsize := hp.dataSize_le
    simp only [tmmParserBufSize, ipcMaximumDataSize] at hsize
    rw [matchByte, if_neg hbyte]
    change 1 + (3 * (h.dataSize - u32 (h.offset + 1)) - 0) ≤
      3 * (h.dataSize - h.offset) - readSoFar h.parserState
    rw [u32_succ h.offset (by omega)]
    omega

omit hp in
theorem latchHeader_reads (hs : h.parserState = stateHader) :
    ((latchHeader h).spans.map Span.len).sum + balance readsLeft (latchHeader h).handle ≤
      balance readsLeft h := by
  change 6 + (3 * (h.dataSize - h.offset) - 9) ≤
    3 * (h.dataSize - h.offset) - readSoFar h.parserState
  have hsoFar : readSoFar h.parserState = 3 := by rw [hs]; rfl
  omega

theorem waitData_reads (hs : h.parserState = stateData) :
    ((waitData h).spans.map Span.len).sum + balance readsLeft (waitData h).handle ≤
      balance readsLeft h := by
  have hsoFar : readSoFar h.parserState = 9 := by rw [hs]; rfl
  rw [hp.waitData_eq]
  by_cases hfit : frameSize h.parserData.length ≤ h.dataSize - h.offset
  · rw [if_pos hfit]
    change ((if h.parserData.length = 0 then []
      else [(⟨h.offset + ipcProtocolDataOffset, 1⟩ : Span)]).map Span.len).sum +
        (3 * (h.dataSize - h.offset) - 10) ≤ 3 * (h.dataSize - h.offset) - readSoFar h.parserState
    split
    · rw [List.map_nil, List.sum_nil]
      omega
    · change 1 + _ ≤ _
      omega
  · rw [if_neg hfit, List.map_nil, List.sum_nil, Nat.zero_add]

omit hroom in
/-- The checksum covers the frame once, the callback reads the payload once more. -/
theorem checkCrc_spans_sum (hs : h.parserState = stateCrc) :
    ((checkCrc h).spans.map Span.len).sum + 11 ≤ 2 * frameSize h.parserData.length := by
  have hcrc := hp.crcOffset_eq hs
  have hlength : h.parserData.length.toNat + 11 ≤ frameSize h.parserData.length := by
    rw [frameSize]
    omega
  have hge := frameSize_ge h.parserData.length
  have hread : (([(⟨h.offset + crcOffset h.parserData.length, 2⟩ : Span),
      ⟨h.offset, crcOffset h.parserData.length⟩]).map Span.len).sum =
        frameSize h.parserData.length := by
    rw [← hcrc]
    simp only [List.map_cons, List.map_nil, List.sum_cons, List.sum_nil]
    omega
  have hpayload : ((h.parserData.data.map fun p =>
      (⟨p, h.parserData.length.toNat⟩ : Span)).toList.map Span.len).sum ≤
        h.parserData.length.toNat := by
    cases h.parserData.data with
    | none => exact Nat.zero_le _
    | some p => exact Nat.le_refl _
  simp only [checkCrc]
  split
  · split
    · rw [List.map_append, List.sum_append, hread]
      omega
    · rw [hread]
      omega
  · rw [List.map_nil, List.sum_nil]
    omega

omit hroom in
theorem checkCrc_reads (hs : h.parserState = stateCrc) :
    ((checkCrc h).spans.map Span.len).sum + balance readsLeft (checkCrc h).handle ≤
      balance readsLeft h := by
  have hsum := checkCrc_spans_sum hp hs
  have hfit := hp.complete hs
  have hsoFar : readSoFar h.parserState = 10 := by rw [hs]; rfl
  rw [(hp.checkCrc_eq hs).1]
  change _ + (3 * (h.dataSize - (h.offset + frameSize h.parserData.length)) - 0) ≤
    3 * (h.dataSize - h.offset) - readSoFar h.parserState
  omega

theorem decodePass_reads :
    ((decodePass h).spans.map Span.len).sum + balance readsLeft (decodePass h).handle ≤
      balance readsLeft h := by
  rcases hp.state_cases with hs | hs | hs | hs | hs | hs
  · rw [decodePass_idle hs]
    exact matchByte_reads hp hroom _ _ _ (by rw [hs]; decide) (by rw [hs]; rfl)
  · rw [decodePass_sync hs]
    exact matchByte_reads hp hroom _ _ _ (by rw [hs]; decide) (by rw [hs]; rfl)
  · rw [decodePass_start hs]
    exact matchByte_reads hp hroom _ _ _ (by rw [hs]; decide) (by rw [hs]; rfl)
  · rw [decodePass_hader hs]
    exact latchHeader_reads hroom hs
  · rw [decodePass_data hs]
    exact waitData_reads hp hroom hs
  · rw [decodePass_crc hs]
    exact checkCrc_reads hp hs

end Reads

/-- Of the passes only the one that waits for the rest of a frame stops, and it leaves
everything as it is. -/
theorem decodePass_stopped {h : ParserHandle} (hstop : (decodePass h).stop = true) :
    (decodePass h).handle = h := by
  unfold decodePass matchByte latchHeader waitData checkCrc at hstop ⊢
  simp only at hstop ⊢
  split_ifs at hstop ⊢ <;> rfl

theorem room_of_guard {h : ParserHandle} (hp : Placed h) (hg : decodeGuard h = true) :
    12 ≤ h.dataSize - h.offset := by
  rw [hp.decodeGuard_eq] at hg
  exact of_decide_eq_true hg

section Call

variable {h t : ParserHandle} {out : List ReceivedData} (hp : Placed h)
  (hends : Ends decodeGuard decodeBody h out t)

include hp hends

theorem bytesRead_paid : bytesRead h + balance readsLeft t ≤ balance readsLeft h + 0 := by
  obtain ⟨spans, hloop, hspans⟩ := loop_retag hp hends fun u => (decodePass u).spans
  have hreads : decoderReads h = spans := by
    rw [decoderReads, hloop]
    rfl
  rw [bytesRead, hreads]
  refine hspans.paid (I := Placed) ?_ ?_ hp
  · intro u hu hg _
    exact ⟨(decodePass_safe_of_guard hu hg).placed, decodePass_reads hu (room_of_guard hu hg)⟩
  · intro u hu hg _
    exact decodePass_reads hu (room_of_guard hu hg)

theorem passCount_paid : passCount h + balance passesAhead t ≤ balance passesAhead h + 1 := by
  obtain ⟨passes, hloop, hpasses⟩ := loop_retag hp hends fun _ => [()]
  have hcount : passCount h = (passes.map fun _ => 1).sum := by
    rw [passCount, hloop, List.map_const', List.sum_replicate_nat, Nat.mul_one]
    rfl
  rw [hcount]
  refine hpasses.paid (I := Placed) ?_ ?_ hp
  · intro u hu hg hstop
    obtain ⟨hplaced, hless⟩ := pass_less hu hg hstop
    refine ⟨hplaced, ?_⟩
    change 1 + passesLeft (decodeBody u).state ≤ passesLeft u
    omega
  · intro u _ _ hstop
    change 1 + passesLeft (decodePass u).handle ≤ passesLeft u + 1
    rw [decodePass_stopped hstop]
    omega

end Call

/-! What a call delivers -/

theorem decodePass_received {h : ParserHandle} (hs : h.parserState ≠ stateCrc) :
    (decodePass h).received = [] := by
  unfold decodePass matchByte latchHeader waitData
  simp only
  split_ifs <;> rfl

/-- The message of a call that goes on with a frame begun in an earlier one: what the
header said is as it was latched then, and the bytes at the front now have the size that it
announced. -/
structure Resumed (h : ParserHandle) (seg : List UInt8) (m : ReceivedData) : Prop where
  state : h.parserState = stateData
  front : seg <+: window h
  cmd1 : m.cmd1 = h.parserData.cmd1
  cmd2 : m.cmd2 = h.parserData.cmd2
  length : m.length = h.parserData.length
  size : seg.length = frameSize m.length
  crc : CrcOk seg seg.length
  data : m.data = dataOf seg m.length

/-- What the callback can rely on when a call on `h` gives it `m`: the payload is as long as
the message says, and the message has been read from bytes of `h` whose checksum is right,
a frame with its start pattern and commands unless the header was latched before. -/
structure Readable (h : ParserHandle) (m : ReceivedData) : Prop where
  none_iff : m.data = none ↔ m.length = 0
  payload : ∀ bytes, m.data = some bytes → bytes.length = m.length.toNat
  checked : ∃ seg, seg <:+: window h ∧ seg.length = frameSize m.length ∧
    seg.length ≤ tmmParserBufSize ∧ (Carries seg m ∨ Resumed h seg m)

theorem length_of_dataOf {seg bytes : List UInt8} {length : UInt16}
    (hseg : seg.length = frameSize length) (h : dataOf seg length = some bytes) :
    bytes.length = length.toNat := by
  by_cases hzero : length = 0
  · rw [dataOf, if_pos hzero] at h
    cases h
  · rw [dataOf, if_neg hzero, Option.some.injEq] at h
    rw [← h, List.length_take, List.length_drop, hseg, frameSize, ipcProtocolDataOffset]
    omega

theorem readable_of_checked {h : ParserHandle} (hp : Placed h) {m : ReceivedData}
    {seg : List UInt8} (hpart : seg <:+: window h) (hseg : seg.length = frameSize m.length)
    (hdata : m.data = dataOf seg m.length) (hfrom : Carries seg m ∨ Resumed h seg m) :
    Readable h m := by
  have hle := hpart.length_le
  have hsize := hp.dataSize_le
  rw [hp.length_window] at hle
  refine ⟨?_, ?_, seg, hpart, hseg, by omega, hfrom⟩
  · rw [hdata, dataOf]
    by_cases hzero : m.length = 0
    · simp only [hzero, if_true]
    · simp only [hzero, if_false, reduceCtorEq]
  · intro bytes hbytes
    exact length_of_dataOf hseg (hdata.symm.trans hbytes)

theorem mem_of_heard {h : ParserHandle} {outs : List ReceivedData} {m : ReceivedData}
    (hm : m ∈ heard h outs) : m ∈ outs := by
  by_cases hcb : h.parserReceivedData = true
  · rwa [heard, if_pos hcb] at hm
  · rw [heard, if_neg hcb] at hm
    cases hm

/-- The loop on an idle handle gives out frames that it finds in the bytes. -/
theorem idle_carries {h t : ParserHandle} {out : List ReceivedData} (hp : Placed h)
    (hidle : h.parserState = stateIdle) (hends : Ends decodeGuard decodeBody h out t)
    {m : ReceivedData} (hm : m ∈ out) : ∃ seg, seg <:+: window h ∧ Carries seg m := by
  obtain ⟨outs, rest, hscan⟩ := Scans.total frames (window h)
  obtain ⟨t', hends', -⟩ := ends_of_scans hscan h hp hidle rfl
  rw [(hends.det hends').1] at hm
  exact (hscan.found carries_of_token).exists_segment (mem_of_heard hm)

theorem resumed_framed {h : ParserHandle} (hp : Placed h) (hs : h.parserState = stateData)
    (hfit : frameSize h.parserData.length ≤ h.dataSize - h.offset)
    (hcrc : CrcOk (window h) (frameSize h.parserData.length)) :
    Resumed h ((window h).take (frameSize h.parserData.length)) (framed h) := by
  have hlen := hp.length_window
  have hge := frameSize_ge h.parserData.length
  have hseg : ((window h).take (frameSize h.parserData.length)).length =
      frameSize h.parserData.length := by
    rw [List.length_take]
    omega
  have hsplit := List.take_append_drop (frameSize h.parserData.length) (window h)
  refine ⟨hs, List.take_prefix _ _, rfl, rfl, rfl, hseg, ?_, ?_⟩
  · rw [hseg]
    rw [← hsplit] at hcrc
    exact (crcOk_append _ _ _ hge (by omega)).mp hcrc
  · change dataOf (window h) h.parserData.length = _
    conv_lhs => rw [← hsplit]
    exact dataOf_append _ _ _ (by omega)

theorem call_readable {h t : ParserHandle} {out : List ReceivedData} (hp : Placed h)
    (hstate : h.parserState = stateIdle ∨ h.parserState = stateData)
    (hends : Ends decodeGuard decodeBody h out t) {m : ReceivedData} (hm : m ∈ out) :
    Readable h m := by
  have hframe : ∀ seg, seg <:+: window h → Carries seg m → Readable h m :=
    fun seg hpart hseg => readable_of_checked hp hpart hseg.size hseg.data (Or.inl hseg)
  rcases hstate with hidle | hs
  · obtain ⟨seg, hpart, hseg⟩ := idle_carries hp hidle hends hm
    exact hframe seg hpart hseg
  · have hroom : 12 ≤ h.dataSize - h.offset := hp.room (by rw [hs]; decide)
    by_cases hfit : frameSize h.parserData.length ≤ h.dataSize - h.offset
    · have hconsume : Placed (consume h) := by
        have hoff := hp.offset_le
        exact placed_consume hp.dataSize_le (by omega)
      obtain ⟨u, more, hmore⟩ := decoder_ends hconsume
      have hall := (leads_frame hp hroom hs hfit).ends hmore
      rw [(hends.det hall).1] at hm
      rcases List.mem_append.mp hm with hm | hm
      · have hm := mem_of_heard hm
        by_cases hcrc : CrcOk (window h) (frameSize h.parserData.length)
        · rw [if_pos hcrc] at hm
          obtain rfl := List.mem_singleton.mp hm
          have hresumed := resumed_framed hp hs hfit hcrc
          exact readable_of_checked hp hresumed.front.isInfix hresumed.size hresumed.data
            (Or.inr hresumed)
        · rw [if_neg hcrc] at hm
          cases hm
      · obtain ⟨seg, hpart, hseg⟩ := idle_carries hconsume rfl hmore hm
        rw [window_consume] at hpart
        exact hframe seg (hpart.trans (List.drop_suffix _ _).isInfix) hseg
    · rw [(hends.det (ends_wait hp hroom hs (Nat.lt_of_not_le hfit))).1] at hm
      cases hm

def framesSize (ms : List ReceivedData) : ℕ := (ms.map fun m => frameSize m.length).sum

theorem framesSize_append (ms more : List ReceivedData) :
    framesSize (ms ++ more) = framesSize ms + framesSize more := by
  rw [framesSize, List.map_append, List.sum_append]
  rfl

theorem checkCrc_frames {h : ParserHandle} (hp : Placed h) (hs : h.parserState = stateCrc) :
    framesSize (checkCrc h).received ≤ frameSize h.parserData.length := by
  rw [checkCrc_received hp hs, heard]
  split_ifs
  · exact Nat.le_refl _
  · exact Nat.zero_le _
  · exact Nat.zero_le _

/-- A pass that delivers a message consumes its frame. -/
theorem decodePass_frames {h : ParserHandle} (hp : Placed h)
    (hroom : 12 ≤ h.dataSize - h.offset) :
    framesSize (decodePass h).received + ((decodePass h).handle.dataSize -
      (decodePass h).handle.offset) ≤ h.dataSize - h.offset := by
  by_cases hs : h.parserState = stateCrc
  · have hfit := hp.complete hs
    have hframes := checkCrc_frames hp hs
    have hleft : (checkCrc h).handle.dataSize - (checkCrc h).handle.offset =
        h.dataSize - (h.offset + frameSize h.parserData.length) := by
      rw [(hp.checkCrc_eq hs).1]
      rfl
    rw [decodePass_crc hs, hleft]
    omega
  · have hadv := decodePass_advances hp.offset_le hp.dataSize_le hroom hp.state_cases
    have hsize := hadv.dataSize
    rw [decodePass_received hs, framesSize, List.map_nil, List.sum_nil, hsize, Nat.zero_add]
    rcases hadv.forward with hstop | hmore | ⟨hsame, -⟩
    · rw [decodePass_stopped hstop]
    · omega
    · omega

theorem framesSize_paid {h t : ParserHandle} {out : List ReceivedData} (hp : Placed h)
    (hends : Ends decodeGuard decodeBody h out t) :
    framesSize out + balance bytesLeft t ≤ balance bytesLeft h + 0 := by
  refine hends.paid (I := Placed) ?_ ?_ hp
  · intro u hu hg _
    exact ⟨(decodePass_safe_of_guard hu hg).placed, decodePass_frames hu (room_of_guard hu hg)⟩
  · intro u hu hg _
    exact decodePass_frames hu (room_of_guard hu hg)

/-! A turn of ParserThread -/

/-- What a call pays from what its handle can pay, a turn pays from what is left over
and from the bytes it takes. -/
theorem turn_paid {s t : Receiver} (hs : ReceivePath.Sound s) {n : ℤ} {out : List ReceivedData}
    {u : ParserHandle} (hturns : Turns s t n out u) {rule : ℕ → ℤ → ℕ} {rate cost last : ℕ}
    (hrule : ∀ left more state, rule (left + more) state ≤ rule left state + rate * more)
    (hcall : cost + balance rule u ≤ balance rule (handed s n) + last) :
    cost + balance rule t.parser + rate * s.taken.length ≤
      balance rule s.parser + rate * t.taken.length + last := by
  have hp := ReceivePath.handed_placed hs hturns.seen
  obtain ⟨hoff, hsize, -, -, hstate, -⟩ := ReceivePath.handed_eq hs hturns.seen
  obtain ⟨hu, -⟩ := ends_safe hp hturns.ends
  obtain ⟨hcoff, hcsize, -⟩ := RoundTrip.compact_eq hu
  have hafter : balance rule t.parser = balance rule u := by
    rw [hturns.eq, balance, balance]
    change rule ((compact u).dataSize - (compact u).offset) u.parserState = _
    rw [hcoff, hcsize, Nat.sub_zero]
  have hbefore : balance rule (handed s n) ≤ balance rule s.parser +
      rate * readSize n (tcParserFreeSpace s.parser) := by
    rw [balance, balance, hoff, hsize, hstate, hs.parser.offset, Nat.sub_zero, Nat.sub_zero]
    exact hrule _ _ _
  have htaken : t.taken.length = s.taken.length + readSize n (tcParserFreeSpace s.parser) := by
    rw [hturns.eq]
    change (s.taken ++ (readData s n).out).length = _
    rw [List.length_append, ReceivePath.length_readData_out hs hturns.seen hturns.pos]
  rw [hafter, htaken, Nat.mul_add]
  omega

/-! Whole runs -/

/-- What the call of the decoder in a turn costs; there is none when nothing was seen. -/
def callCost (cost : ParserHandle → ℕ) (t : Threads) : Event → ℕ
  | .turn => (t.receiver.availableSize.map fun n =>
      if 0 < n then cost (handed t.receiver n) else 0).getD 0
  | .read _ => 0
  | .push => 0
  | .look => 0

def perTurn (last : ℕ) : Event → ℕ
  | .turn => last
  | .read _ => 0
  | .push => 0
  | .look => 0

def turns (events : List Event) : ℕ := (events.map (perTurn 1)).sum

/-- Only a turn touches the decoder. -/
theorem step_keeps {t t' : Threads} (ht : ThreadedReceiver.Sound t) {e : Event}
    (h : ThreadedReceiver.step t e = some t') :
    (e ≠ .turn ∧ t'.receiver.parser = t.receiver.parser ∧
      t'.receiver.taken = t.receiver.taken ∧ t'.receiver.delivered = t.receiver.delivered) ∨
    (e = .turn ∧ ReceivePath.step t.receiver .turn = some t'.receiver) := by
  cases e with
  | read readBufs =>
    refine Or.inl ⟨fun heq => (by cases heq), ?_⟩
    rw [ThreadedReceiver.step] at h
    split_ifs at h
    rw [← Option.some.inj h]
    exact ⟨rfl, rfl, rfl⟩
  | push =>
    refine Or.inl ⟨fun heq => (by cases heq), ?_⟩
    obtain ⟨reading, -, rfl⟩ := Option.map_eq_some_iff.mp h
    exact ⟨rfl, rfl, rfl⟩
  | look =>
    refine Or.inl ⟨fun heq => (by cases heq), ?_⟩
    obtain ⟨u, hu, rfl⟩ := Option.map_eq_some_iff.mp h
    rcases ReceivePath.step_cases ht.receiver hu with ⟨_, heq, -⟩ | ⟨-, -, rfl⟩ | ⟨heq, -⟩ |
      ⟨heq, -⟩
    · cases heq
    · exact ⟨rfl, rfl, rfl⟩
    · cases heq
    · cases heq
  | turn =>
    obtain ⟨u, hu, rfl⟩ := Option.map_eq_some_iff.mp h
    exact Or.inr ⟨rfl, hu⟩

theorem step_paid {rule : ℕ → ℤ → ℕ} {rate last : ℕ} {cost : ParserHandle → ℕ}
    (hrule : ∀ left more state, rule (left + more) state ≤ rule left state + rate * more)
    (hcall : ∀ h u out, Placed h → Ends decodeGuard decodeBody h out u →
      cost h + balance rule u ≤ balance rule h + last)
    {t t' : Threads} (ht : ThreadedReceiver.Sound t) {e : Event}
    (h : ThreadedReceiver.step t e = some t') :
    callCost cost t e + balance rule t'.receiver.parser + rate * t.receiver.taken.length ≤
      balance rule t.receiver.parser + rate * t'.receiver.taken.length + perTurn last e := by
  rcases step_keeps ht h with ⟨hne, hparser, htaken, -⟩ | ⟨rfl, hturn⟩
  · have hcost : callCost cost t e = 0 := by
      cases e with
      | turn => exact absurd rfl hne
      | read => rfl
      | push => rfl
      | look => rfl
    rw [hcost, hparser, htaken, Nat.zero_add]
    exact Nat.le_add_right _ _
  · rcases ReceivePath.step_cases ht.receiver hturn with ⟨_, heq, -⟩ | ⟨heq, -⟩ |
      ⟨-, hzero, hsame⟩ | ⟨-, n, out, u, hturns⟩
    · cases heq
    · cases heq
    · have hcost : callCost cost t .turn = 0 := by
        rw [callCost, hzero]
        rfl
      rw [hcost, hsame, Nat.zero_add]
      exact Nat.le_add_right _ _
    · have hcost : callCost cost t .turn = cost (handed t.receiver n) := by
        rw [callCost, hturns.seen, Option.map_some, Option.getD_some, if_pos hturns.pos]
      rw [hcost]
      exact turn_paid ht.receiver hturns hrule (hcall _ _ _
        (ReceivePath.handed_placed ht.receiver hturns.seen) hturns.ends)

theorem run_paid {rule : ℕ → ℤ → ℕ} {rate last : ℕ} (cost : ParserHandle → ℕ)
    (hrule : ∀ left more state, rule (left + more) state ≤ rule left state + rate * more)
    (hcall : ∀ h u out, Placed h → Ends decodeGuard decodeBody h out u →
      cost h + balance rule u ≤ balance rule h + last)
    (cells : List UInt8) (hcells : cells.length = readRingBufferSize) (parserData : IpcMsg)
    (stale cb : Bool) (events : List Event) {t : Threads}
    (h : runFrom ThreadedReceiver.step
      (ThreadedReceiver.start cells hcells parserData stale cb) events = some t) :
    total ThreadedReceiver.step (callCost cost)
        (ThreadedReceiver.start cells hcells parserData stale cb) events ≤
      rule 0 stateIdle + rate * t.receiver.taken.length + (events.map (perTurn last)).sum := by
  have hpaid := @total_paid _ _ ThreadedReceiver.step (callCost cost)
    (fun u => balance rule u.receiver.parser) (fun u => rate * u.receiver.taken.length)
    (perTurn last) ThreadedReceiver.Sound
    (fun _ _ _ hu hstep => ⟨ThreadedReceiver.step_sound hu hstep, step_paid hrule hcall hu hstep⟩)
    _ _ (ThreadedReceiver.start_sound cells hcells parserData stale cb) events h
  have hstart : (ThreadedReceiver.start cells hcells parserData stale cb).receiver.parser =
      ipcParserResisterCallback (ipcParserHandleInit parserData stale) cb := rfl
  have hbalance : balance rule
      (ThreadedReceiver.start cells hcells parserData stale cb).receiver.parser =
        rule 0 stateIdle := by
    rw [hstart]
    cases cb <;> rfl
  rw [hbalance] at hpaid
  omega

theorem sum_perTurn_zero (events : List Event) : (events.map (perTurn 0)).sum = 0 := by
  induction events with
  | nil => rfl
  | cons e es ih =>
    have hzero : perTurn 0 e = 0 := by cases e <;> rfl
    rw [List.map_cons, List.sum_cons, hzero, ih]

/-- However the stream is cut and the threads are interleaved, the loop of the decoder
reads at most three bytes of the buffer for each byte taken from the ring, and is entered
at most six times for each byte, once more for each turn, and five times for the last
state. The move of what is left over to the front is not counted. -/
theorem decoder_work_linear (cells : List UInt8) (hcells : cells.length = readRingBufferSize)
    (parserData : IpcMsg) (stale cb : Bool) (events : List Event) {t : Threads}
    (h : runFrom ThreadedReceiver.step
      (ThreadedReceiver.start cells hcells parserData stale cb) events = some t) :
    total ThreadedReceiver.step (callCost bytesRead)
        (ThreadedReceiver.start cells hcells parserData stale cb) events ≤
      3 * t.receiver.taken.length ∧
    total ThreadedReceiver.step (callCost passCount)
        (ThreadedReceiver.start cells hcells parserData stale cb) events ≤
      6 * t.receiver.taken.length + turns events + 5 := by
  constructor
  · have hreads := run_paid bytesRead readsLeft_add
      (fun _ _ _ hp hends => bytesRead_paid hp hends) cells hcells parserData stale cb events h
    rw [sum_perTurn_zero] at hreads
    have hidle : readsLeft 0 stateIdle = 0 := rfl
    omega
  · have hpasses := run_paid passCount passesAhead_add
      (fun _ _ _ hp hends => passCount_paid hp hends) cells hcells parserData stale cb events h
    have hidle : passesAhead 0 stateIdle = 5 := rfl
    rw [turns]
    omega

/-- A frame of twelve bytes and the first byte of the next, in two turns. -/
theorem decoder_work_linear_frame :
    ∃ t, runFrom ThreadedReceiver.step fresh [.read (stream [sendEmpty]), .push, .read [0xff],
        .look, .push, .turn, .look, .turn] = some t ∧
      total ThreadedReceiver.step (callCost bytesRead) fresh [.read (stream [sendEmpty]), .push,
        .read [0xff], .look, .push, .turn, .look, .turn] ≤ 3 * t.receiver.taken.length :=
  have hrun : (runFrom ThreadedReceiver.step fresh [.read (stream [sendEmpty]), .push,
      .read [0xff], .look, .push, .turn, .look, .turn]).isSome = true := by
    decide +kernel
  have ⟨t, ht⟩ := Option.isSome_iff_exists.mp hrun
  ⟨t, ht, (decoder_work_linear _ _ _ _ _ _ ht).1⟩

/-! What the callback is given -/

/-- A call of tc_parser_decoder: the handle as it finds it, and the messages that it hands to
the callback. -/
structure Call where
  handle : ParserHandle
  received : List ReceivedData

/-- The call that ParserThread makes in a turn. -/
structure Called (u v : Threads) (c : Call) : Prop where
  turn : ThreadedReceiver.step u .turn = some v
  handle : ∃ n, u.receiver.availableSize = some n ∧ 0 < n ∧ c.handle = handed u.receiver n
  returns : tcParserDecoder c.handle = some (v.receiver.parser, c.received)

theorem step_called {t t' : Threads} (ht : ThreadedReceiver.Sound t) {e : Event}
    (h : ThreadedReceiver.step t e = some t') :
    t'.receiver.delivered = t.receiver.delivered ∨
      ∃ c, (Called t t' c ∧ ∀ m ∈ c.received, Readable c.handle m) ∧
        t'.receiver.delivered = t.receiver.delivered ++ c.received := by
  rcases step_keeps ht h with ⟨-, -, -, hdelivered⟩ | ⟨rfl, hturn⟩
  · exact Or.inl hdelivered
  · rcases ReceivePath.step_cases ht.receiver hturn with ⟨_, heq, -⟩ | ⟨heq, -⟩ |
      ⟨-, -, hsame⟩ | ⟨-, n, out, u, hturns⟩
    · cases heq
    · cases heq
    · exact Or.inl (by rw [hsame])
    · have hp := ReceivePath.handed_placed ht.receiver hturns.seen
      obtain ⟨-, -, -, -, hstate, -⟩ := ReceivePath.handed_eq ht.receiver hturns.seen
      have hrests : (handed t.receiver n).parserState = stateIdle ∨
          (handed t.receiver n).parserState = stateData := by
        rw [hstate]
        exact ht.receiver.parser.state.imp And.left And.left
      refine Or.inr ⟨⟨handed t.receiver n, out⟩, ⟨⟨h, ⟨n, hturns.seen, hturns.pos, rfl⟩, ?_⟩,
        fun m hm => call_readable hp hrests hturns.ends hm⟩, by rw [hturns.eq]⟩
      rw [tcParserDecoder_eq hp hturns.ends, hturns.eq]

/-- What every step keeps. -/
structure Paid (t : Threads) : Prop where
  sound : ThreadedReceiver.Sound t
  paid : framesSize t.receiver.delivered + t.receiver.parser.dataSize ≤ t.receiver.taken.length

theorem step_paid_frames {t t' : Threads} (ht : Paid t) {e : Event}
    (h : ThreadedReceiver.step t e = some t') : Paid t' := by
  have hsound := ThreadedReceiver.step_sound ht.sound h
  rcases step_keeps ht.sound h with ⟨-, hparser, htaken, hdelivered⟩ | ⟨rfl, hturn⟩
  · refine ⟨hsound, ?_⟩
    rw [hdelivered, hparser, htaken]
    exact ht.paid
  · rcases ReceivePath.step_cases ht.sound.receiver hturn with ⟨_, heq, -⟩ | ⟨heq, -⟩ |
      ⟨-, -, hsame⟩ | ⟨-, n, out, u, hturns⟩
    · cases heq
    · cases heq
    · refine ⟨hsound, ?_⟩
      rw [hsame]
      exact ht.paid
    · have hp := ReceivePath.handed_placed ht.sound.receiver hturns.seen
      have hdelivered : t'.receiver.delivered = t.receiver.delivered ++ out := by
        rw [hturns.eq]
      have hpaid := turn_paid ht.sound.receiver hturns bytesLeft_add
        (framesSize_paid hp hturns.ends)
      have hbefore := ht.paid
      simp only [balance, bytesLeft, ht.sound.receiver.parser.offset,
        hsound.receiver.parser.offset, Nat.sub_zero] at hpaid
      refine ⟨hsound, ?_⟩
      rw [hdelivered, framesSize_append]
      omega

/-- Whatever arrives and however the threads are interleaved, the messages delivered are
those that the calls of the decoder have given out one after the other, each readable from
the bytes that its call found; and their frames together are no longer than the bytes taken
from the ring and not kept. This compares totals: where a read has overwritten what was left
over, a byte can belong to two of the frames. -/
theorem callback_contract (cells : List UInt8) (hcells : cells.length = readRingBufferSize)
    (parserData : IpcMsg) (stale cb : Bool) {t : Threads}
    (h : Reach ThreadedReceiver.step Free
      (ThreadedReceiver.start cells hcells parserData stale cb) t) :
    (∃ calls : List Call, t.receiver.delivered = calls.flatMap Call.received ∧
      ∀ front c back, calls = front ++ c :: back →
        (∀ m ∈ c.received, Readable c.handle m) ∧
        ∃ u v, Reach ThreadedReceiver.step Free
            (ThreadedReceiver.start cells hcells parserData stale cb) u ∧
          u.receiver.delivered = front.flatMap Call.received ∧ Called u v c ∧
          Reach ThreadedReceiver.step Free v t) ∧
      framesSize t.receiver.delivered + t.receiver.parser.dataSize ≤
        t.receiver.taken.length := by
  have hsound := ThreadedReceiver.start_sound cells hcells parserData stale cb
  have hstart : Paid (ThreadedReceiver.start cells hcells parserData stale cb) :=
    ⟨hsound, by cases cb <;> exact Nat.le_refl 0⟩
  have hpaid := h.invariant Paid hstart fun _ _ _ hu _ hstep => step_paid_frames hu hstep
  refine ⟨?_, hpaid.paid⟩
  obtain ⟨calls, hdelivered, hcalls⟩ := h.calls (f := fun t => t.receiver.delivered)
    (g := Call.received) rfl fun u e v hu _ hstep => step_called
      (hu.invariant ThreadedReceiver.Sound hsound
        fun _ _ _ hx _ hstep => ThreadedReceiver.step_sound hx hstep) hstep
  refine ⟨calls, hdelivered, fun front c back hsplit => ?_⟩
  obtain ⟨u, v, hu, hbefore, ⟨hcalled, hreadable⟩, hv⟩ := hcalls front c back hsplit
  exact ⟨hreadable, u, v, hu, hbefore, hcalled, hv⟩

/-- Two frames in two turns. -/
theorem callback_contract_frames :
    ∃ t, runFrom ThreadedReceiver.step fresh [.read (stream [sendEmpty]), .push, .look, .turn,
        .read (stream [sendStartPattern]), .push, .look, .turn] = some t ∧
      t.receiver.delivered = [sendEmpty.delivered, sendStartPattern.delivered] ∧
      ∃ calls : List Call,
        [sendEmpty.delivered, sendStartPattern.delivered] = calls.flatMap Call.received ∧
        ∀ c ∈ calls, ∀ m ∈ c.received, Readable c.handle m :=
  have hrun : (runFrom ThreadedReceiver.step fresh [.read (stream [sendEmpty]), .push, .look,
      .turn, .read (stream [sendStartPattern]), .push, .look, .turn]).map
        (fun t => t.receiver.delivered) =
          some [sendEmpty.delivered, sendStartPattern.delivered] := by
    decide +kernel
  have ⟨t, ht, hdelivered⟩ := Option.map_eq_some_iff.mp hrun
  have ⟨⟨calls, hcalls, hreadable⟩, _⟩ := callback_contract _ _ _ _ _ (reach_of_runFrom _ ht)
  ⟨t, ht, hdelivered, calls, hdelivered.symm.trans hcalls, fun c hc =>
    have ⟨front, back, hsplit⟩ := List.append_of_mem hc
    (hreadable front c back hsplit).1⟩

end TcIpcCtrl.DecoderWork
