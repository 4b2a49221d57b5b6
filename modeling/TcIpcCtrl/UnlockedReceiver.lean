import TcIpcCtrl.DecoderWork
import TcIpcCtrl.UnlockedReadRing

/-!
The receive path down to the single accesses, with the decoder. ParserThread asks the
decoder for its room when it has looked at the ring, and calls it when it has given the
mutex back; what it does between touches nothing shared. Whatever the order of the
accesses, torn looks and late overwrites included, the decoder stays within its buffer
and the callback is given only what it can read. As in the model of the ring, the
accesses of a thread take effect in program order, for both threads at once.
-/
namespace TcIpcCtrl.UnlockedReceiver

open CInt Cells Package WhileLoop Runs BoundedQueue RingBuffer RingContents RingEffects FrameGrammar
  TcIpcCtrl.Parser DecoderPasses DecoderRefinement RoundTrip UnlockedReadRing
open ReadRing (readRingBufferSize)
open ReceivePath (Rests InBounds readSize pushed)
open DecoderWork (Call Readable framesSize framesSize_append framesSize_paid call_readable balance
  bytesLeft)

/-! One call of the decoder -/

/-- A call for `size` bytes that have been stored at tc_parser_BufAddr, `h` being the
handle before it and `t` after it. -/
structure Decodes (h : ParserHandle) (buffer : List UInt8) (size : ℕ) (t : ParserHandle)
    (out : List ReceivedData) : Prop where
  returns : tcParserDecoder (pushed h buffer size) = some (t, out)
  rests : Rests t
  inBounds : ∀ u, Passes decodeGuard decodeBody (pushed h buffer size) u → InBounds u
  readable : ∀ m ∈ out, Readable (pushed h buffer size) m
  paid : framesSize out + t.dataSize ≤ h.dataSize + size

theorem exists_decodes {h : ParserHandle} (hr : Rests h) (buffer : List UInt8) {size : ℕ}
    (hfit : h.dataSize + size ≤ 1024) : ∃ t out, Decodes h buffer size t out := by
  have hp : Placed (pushed h buffer size) :=
    ReceivePath.stored_placed hr (tcParserBufAddr h) buffer size hfit
  have hsize : (pushed h buffer size).dataSize = h.dataSize + size :=
    ReceivePath.stored_dataSize h (tcParserBufAddr h) buffer size hfit
  have hoffset : (pushed h buffer size).offset = 0 := hr.offset
  obtain ⟨u, out, hends⟩ := decoder_ends hp
  obtain ⟨hu, -⟩ := ends_safe hp hends
  obtain ⟨-, hleft, -⟩ := compact_eq hu
  have hpaid := framesSize_paid hp hends
  rw [balance, balance, bytesLeft, bytesLeft, hsize, hoffset] at hpaid
  refine ⟨compact u, out, tcParserDecoder_eq hp hends,
    ReceivePath.rests_compact hp hr.maxSize hends, ?_, fun m hm => ?_, ?_⟩
  · intro v hpasses
    exact ReceivePath.inBounds_of_placed (passes_safe hp hpasses).1
  · exact call_readable hp (hr.state.imp And.left And.left) hends hm
  · rw [hleft]
    omega

/-! The machine -/

structure Receiving where
  machine : Machine UInt8
  parser : ParserHandle
  /-- the bytes stored at tc_parser_BufAddr and not yet counted, and their `readSize` -/
  stored : Option (List UInt8 × ℕ)
  delivered : List ReceivedData

/-- What a pop has copied when it stores Head. -/
def copied : ParsePc UInt8 → Option (List UInt8 × ℕ)
  | .loading readSize buffer => some ((List.range readSize).filterMap buffer, readSize)
  | _ => none

/-- tc_parser_push_size and tc_parser_decoder, if the pop has succeeded. -/
def decode (r : Receiving) (machine : Machine UInt8) : Option Receiving :=
  match r.stored with
  | none => some { r with machine := machine }
  | some (buffer, readSize) =>
    (tcParserDecoder (pushed r.parser buffer readSize)).map fun d =>
      { machine := machine, parser := d.1, stored := none, delivered := r.delivered ++ d.2 }

def step (r : Receiving) (e : Event UInt8) : Option Receiving :=
  (UnlockedReadRing.step r.machine e).bind fun machine =>
    match e with
    | .parser (.loadTail parserSize) =>
      if parserSize = tcParserFreeSpace r.parser then some { r with machine := machine } else none
    | .parser .storeHead => some { r with machine := machine, stored := copied r.machine.parser }
    | .parser .unlock => decode r machine
    | _ => some { r with machine := machine }

def start (cells : List UInt8) (hcells : cells.length = readRingBufferSize) (parserData : IpcMsg)
    (stale cb : Bool) : Receiving :=
  { machine := UnlockedReadRing.start cells hcells
    parser := ipcParserResisterCallback (ipcParserHandleInit parserData stale) cb
    stored := none
    delivered := [] }

/-! What an access does to the bytes of ParserThread -/

theorem readStep_keeps {m m' : Machine UInt8} {access : ReadAccess UInt8}
    (h : readStep m access = some m') : m'.parser = m.parser ∧ m'.popped = m.popped := by
  cases access <;> cases hpc : m.reader <;>
    simp only [readStep, hpc, Option.ite_none_right_eq_some, Option.some.injEq, reduceCtorEq] at h
  all_goals
    obtain ⟨-, rfl⟩ := h
    exact ⟨rfl, rfl⟩

theorem loadTail_keeps {m m' : Machine UInt8} {parserSize : ℕ}
    (h : parseStep m (.loadTail parserSize) = some m') :
    m'.popped = m.popped ∧ m.parser ≠ .unlocking ∧
      ∀ size, m'.parser.popping = some size → size ≤ parserSize := by
  cases hpc : m.parser with
  | headLoaded iRead =>
    simp only [parseStep, hpc, Option.some.injEq] at h
    by_cases hpos : tcBufferDataAvailable (headAt m.ring iRead) > 0
    · rw [if_pos hpos] at h
      rw [← h]
      refine ⟨rfl, by simp, fun size hsize => ?_⟩
      obtain rfl : readSize (tcBufferDataAvailable (headAt m.ring iRead)) parserSize = size :=
        Option.some.inj hsize
      unfold readSize
      split <;> omega
    · rw [if_neg hpos] at h
      rw [← h]
      exact ⟨rfl, by simp, by simp [ParsePc.popping]⟩
  | _ => simp only [parseStep, hpc, reduceCtorEq] at h

/-- A pop that comes to its end has copied as many bytes as it was to. -/
theorem storeHead_keeps {m m' : Machine UInt8} (h : parseStep m .storeHead = some m') :
    ∃ buffer size, copied m.parser = some (buffer, size) ∧ buffer.length = size ∧
      m.parser.popping = some size ∧ m'.parser = .unlocking ∧ m'.popped = m.popped ++ buffer := by
  cases hpc : m.parser with
  | loading size buffer =>
    simp only [parseStep, hpc, Option.ite_none_right_eq_some, Option.some.injEq] at h
    obtain ⟨hall, rfl⟩ := h
    refine ⟨(List.range size).filterMap buffer, size, rfl, ?_, rfl, rfl, rfl⟩
    have hlen := List.filterMap_length_eq_length.mpr fun i hi => hall i (List.mem_range.mp hi)
    rwa [List.length_range] at hlen
  | _ => simp only [parseStep, hpc, reduceCtorEq] at h

theorem unlock_keeps {m m' : Machine UInt8} (h : parseStep m .unlock = some m') :
    m'.parser = .idle ∧ m'.popped = m.popped := by
  cases hpc : m.parser with
  | unlocking =>
    simp only [parseStep, hpc, Option.some.injEq] at h
    rw [← h]
    exact ⟨rfl, rfl⟩
  | _ => simp only [parseStep, hpc, reduceCtorEq] at h

/-- The other accesses only go on with the size that has been decided. -/
theorem parseStep_keeps {m m' : Machine UInt8} {access : ParseAccess}
    (htail : ∀ parserSize, access ≠ .loadTail parserSize) (hhead : access ≠ .storeHead)
    (hunlock : access ≠ .unlock) (h : parseStep m access = some m') :
    m'.popped = m.popped ∧ m.parser ≠ .unlocking ∧
      ∀ size, m'.parser.popping = some size → m.parser.popping = some size := by
  cases access with
  | loadTail parserSize => exact absurd rfl (htail parserSize)
  | storeHead => exact absurd rfl hhead
  | unlock => exact absurd rfl hunlock
  | loadHead =>
    cases hpc : m.parser <;> simp only [parseStep, hpc, Option.some.injEq, reduceCtorEq] at h
    rw [← h]
    exact ⟨rfl, by simp, by simp [ParsePc.popping]⟩
  | lock =>
    cases hpc : m.parser <;> simp only [parseStep, hpc, Option.ite_none_right_eq_some,
      Option.some.injEq, reduceCtorEq] at h
    obtain ⟨-, rfl⟩ := h
    exact ⟨rfl, by simp, fun size hsize => hsize⟩
  | testEmpty =>
    cases hpc : m.parser <;> simp only [parseStep, hpc, Option.some.injEq, reduceCtorEq] at h
    by_cases hempty : m.ring.tail = m.ring.head
    · rw [if_pos hempty] at h
      rw [← h]
      exact ⟨rfl, by simp, by simp [ParsePc.popping]⟩
    · rw [if_neg hempty] at h
      rw [← h]
      exact ⟨rfl, by simp, fun size hsize => hsize⟩
  | testSize =>
    cases hpc : m.parser with
    | measuring readSize =>
      simp only [parseStep, hpc, Option.some.injEq] at h
      by_cases henough : tcBufferDataAvailable m.ring ≥ i32 readSize
      · rw [if_pos henough] at h
        rw [← h]
        exact ⟨rfl, by simp, fun size hsize => hsize⟩
      · rw [if_neg henough] at h
        rw [← h]
        exact ⟨rfl, by simp, by simp [ParsePc.popping]⟩
    | _ => simp only [parseStep, hpc, reduceCtorEq] at h
  | load i =>
    cases hpc : m.parser <;> simp only [parseStep, hpc, Option.ite_none_right_eq_some,
      Option.some.injEq, reduceCtorEq] at h
    obtain ⟨-, rfl⟩ := h
    exact ⟨rfl, by simp, fun size hsize => hsize⟩

/-! Runs -/

/-- What every access keeps. -/
structure Kept (r : Receiving) : Prop where
  rests : Rests r.parser
  fits : ∀ size, r.machine.parser.popping = some size → r.parser.dataSize + size ≤ 1024
  stored : ∀ buffer size, r.stored = some (buffer, size) → r.machine.parser = .unlocking ∧
    buffer.length = size ∧ r.parser.dataSize + size ≤ 1024
  paid : framesSize r.delivered + r.parser.dataSize + (r.stored.map Prod.snd).getD 0 ≤
    r.machine.popped.length

theorem start_kept (cells : List UInt8) (hcells : cells.length = readRingBufferSize)
    (parserData : IpcMsg) (stale cb : Bool) : Kept (start cells hcells parserData stale cb) where
  rests := (ReceivePath.rests_init parserData stale).register cb
  fits := nofun
  stored := nofun
  paid := by cases cb <;> exact Nat.le_refl 0

/-- An access of ParserThread, with nothing stored, that pops nothing. -/
theorem kept_of_machine {r : Receiving} (hr : Kept r) {machine : Machine UInt8}
    (hpopped : machine.popped = r.machine.popped)
    (hstored : r.stored ≠ none → machine.parser = .unlocking)
    (hfits : ∀ size, machine.parser.popping = some size → r.parser.dataSize + size ≤ 1024) :
    Kept { r with machine := machine } where
  rests := hr.rests
  fits := hfits
  stored buffer size hsome := by
    obtain ⟨-, hlen, hfit⟩ := hr.stored buffer size hsome
    have hne : r.stored ≠ none := fun hnone => nomatch hnone.symm.trans hsome
    exact ⟨hstored hne, hlen, hfit⟩
  paid := by
    change _ ≤ machine.popped.length
    rw [hpopped]
    exact hr.paid

/-- Nothing else happens in ParserThread between the store of Head and the unlock. -/
theorem Kept.stored_none {r : Receiving} (hr : Kept r) (hpc : r.machine.parser ≠ .unlocking) :
    r.stored = none := by
  cases hstored : r.stored with
  | none => rfl
  | some pair => exact absurd (hr.stored pair.1 pair.2 hstored).1 hpc

theorem decode_kept {r r' : Receiving} (hr : Kept r) {machine : Machine UInt8}
    (hidle : machine.parser = .idle) (hpopped : machine.popped = r.machine.popped)
    (h : decode r machine = some r') : Kept r' := by
  have hpaid := hr.paid
  have hnone : ∀ size, machine.parser.popping = some size → False := by
    intro size hsize
    rw [hidle] at hsize
    cases hsize
  unfold decode at h
  split at h
  · next hstored =>
    rw [← Option.some.inj h]
    exact kept_of_machine hr hpopped (fun hne => absurd hstored hne)
      fun size hsize => (hnone size hsize).elim
  · next buffer size hstored =>
    obtain ⟨-, -, hfit⟩ := hr.stored buffer size hstored
    obtain ⟨t, out, hdecodes⟩ := exists_decodes hr.rests buffer hfit
    rw [hdecodes.returns, Option.map_some, Option.some.injEq] at h
    rw [hstored, Option.map_some, Option.getD_some] at hpaid
    rw [← h]
    refine ⟨hdecodes.rests, fun size hsize => (hnone size hsize).elim, nofun, ?_⟩
    have hcall := hdecodes.paid
    change framesSize (r.delivered ++ out) + t.dataSize + 0 ≤ machine.popped.length
    rw [framesSize_append, hpopped]
    omega

/-- The size is decided with the room that the decoder has. -/
theorem loadTail_kept {r : Receiving} (hr : Kept r) {machine : Machine UInt8}
    (h : parseStep r.machine (.loadTail (tcParserFreeSpace r.parser)) = some machine) :
    Kept { r with machine := machine } := by
  obtain ⟨hpopped, hpc, hle⟩ := loadTail_keeps h
  refine kept_of_machine hr hpopped (fun hne => absurd (hr.stored_none hpc) hne)
    fun size hsize => ?_
  have hroom := hle size hsize
  have hfull := hr.rests.dataSize_le
  rw [hr.rests.maxSize] at hfull
  rw [hr.rests.freeSpace_eq] at hroom
  omega

theorem storeHead_kept {r : Receiving} (hr : Kept r) {machine : Machine UInt8}
    (h : parseStep r.machine .storeHead = some machine) :
    Kept { r with machine := machine, stored := copied r.machine.parser } := by
  obtain ⟨buffer, size, hcopied, hlen, hpopping, hunlocking, hpopped⟩ := storeHead_keeps h
  have hnone : r.stored = none := hr.stored_none fun hpc => by
    rw [hpc] at hpopping
    cases hpopping
  have hpaid := hr.paid
  have hfit := hr.fits size hpopping
  rw [hnone, Option.map_none, Option.getD_none] at hpaid
  rw [hcopied]
  refine ⟨hr.rests, ?_, ?_, ?_⟩
  · intro size' hsize
    change machine.parser.popping = some size' at hsize
    rw [hunlocking] at hsize
    cases hsize
  · intro buffer' size' hsome
    obtain ⟨rfl, rfl⟩ := Prod.mk.inj (Option.some.inj hsome)
    exact ⟨hunlocking, hlen, hfit⟩
  · change framesSize r.delivered + r.parser.dataSize + size ≤ machine.popped.length
    rw [hpopped, List.length_append, hlen]
    omega

theorem step_kept {r r' : Receiving} (hr : Kept r) {e : Event UInt8} (h : step r e = some r') :
    Kept r' := by
  obtain ⟨machine, hmachine, h⟩ := Option.bind_eq_some_iff.mp h
  cases e with
  | reader access =>
    obtain ⟨hparser, hpopped⟩ := readStep_keeps hmachine
    rw [← Option.some.inj h]
    refine kept_of_machine hr hpopped ?_ ?_
    · intro hne
      obtain ⟨pair, hpair⟩ := Option.ne_none_iff_exists'.mp hne
      rw [hparser]
      exact (hr.stored pair.1 pair.2 hpair).1
    · rw [hparser]
      exact hr.fits
  | parser access =>
    have hparse : parseStep r.machine access = some machine := hmachine
    cases access with
    | loadTail parserSize =>
      obtain ⟨rfl, hsome⟩ := Option.ite_none_right_eq_some.mp h
      rw [← Option.some.inj hsome]
      exact loadTail_kept hr hparse
    | storeHead =>
      rw [← Option.some.inj h]
      exact storeHead_kept hr hparse
    | unlock =>
      obtain ⟨hidle, hpopped⟩ := unlock_keeps hparse
      exact decode_kept hr hidle hpopped h
    | _ =>
      obtain ⟨hpopped, hpc, hsame⟩ := parseStep_keeps (h := hparse)
        (fun _ heq => by cases heq) (fun heq => by cases heq) (fun heq => by cases heq)
      rw [← Option.some.inj h]
      exact kept_of_machine hr hpopped (fun hne => absurd (hr.stored_none hpc) hne)
        fun size hsize => hr.fits size (hsame size hsize)

/-- The accesses to the ring are those of the two threads alone. -/
theorem machine_reach (cells : List UInt8) (hcells : cells.length = readRingBufferSize)
    (parserData : IpcMsg) (stale cb : Bool) {r : Receiving}
    (h : Reach step Free (start cells hcells parserData stale cb) r) :
    Reach UnlockedReadRing.step Free (UnlockedReadRing.start cells hcells) r.machine := by
  obtain ⟨m, hm, rfl⟩ := h.simulates (fun u m => u.machine = m) rfl (by
    intro u e v m hum _ hstep
    obtain ⟨machine, hmachine, hstep⟩ := Option.bind_eq_some_iff.mp hstep
    refine Or.inr ⟨e, machine, trivial, hum ▸ hmachine, ?_⟩
    cases e with
    | reader access => rw [← Option.some.inj hstep]
    | parser access =>
      cases access with
      | loadTail parserSize =>
        obtain ⟨-, hstep⟩ := Option.ite_none_right_eq_some.mp hstep
        rw [← Option.some.inj hstep]
      | unlock =>
        simp only [decode] at hstep
        split at hstep
        · rw [← Option.some.inj hstep]
        · obtain ⟨d, -, rfl⟩ := Option.map_eq_some_iff.mp hstep
          rfl
      | _ => rw [← Option.some.inj hstep])
  exact hm

/-- The call that ParserThread makes when it has given the mutex back. -/
structure Called (u v : Receiving) (c : Call) : Prop where
  unlock : step u (.parser .unlock) = some v
  handle : ∃ buffer size, u.stored = some (buffer, size) ∧ c.handle = pushed u.parser buffer size
  returns : tcParserDecoder c.handle = some (v.parser, c.received)

theorem step_called {r r' : Receiving} (hr : Kept r) {e : Event UInt8} (h : step r e = some r') :
    r'.delivered = r.delivered ∨
      ∃ c, (Called r r' c ∧ ∀ m ∈ c.received, Readable c.handle m) ∧
        r'.delivered = r.delivered ++ c.received := by
  have hstep := h
  obtain ⟨machine, -, h⟩ := Option.bind_eq_some_iff.mp h
  cases e with
  | reader access =>
    rw [← Option.some.inj h]
    exact Or.inl rfl
  | parser access =>
    cases access with
    | loadTail parserSize =>
      obtain ⟨-, hsome⟩ := Option.ite_none_right_eq_some.mp h
      rw [← Option.some.inj hsome]
      exact Or.inl rfl
    | unlock =>
      cases hstored : r.stored with
      | none =>
        simp only [decode, hstored, Option.some.injEq] at h
        rw [← h]
        exact Or.inl rfl
      | some pair =>
        obtain ⟨buffer, size⟩ := pair
        obtain ⟨-, -, hfit⟩ := hr.stored buffer size hstored
        obtain ⟨t, out, hdecodes⟩ := exists_decodes hr.rests buffer hfit
        simp only [decode, hstored, hdecodes.returns, Option.map_some, Option.some.injEq] at h
        refine Or.inr ⟨⟨pushed r.parser buffer size, out⟩,
          ⟨⟨hstep, ⟨buffer, size, hstored, rfl⟩, ?_⟩, hdecodes.readable⟩, by rw [← h]⟩
        rw [← h]
        exact hdecodes.returns
    | _ =>
      rw [← Option.some.inj h]
      exact Or.inl rfl

/-- However the accesses of the two threads are interleaved: the ring is safe, what is
read fits behind the bytes of the decoder, each call of the decoder stays in bounds and
returns, and the messages delivered are those that its calls have given out, each readable
from the bytes that its call found. The frames of all of them together are no longer than
the bytes popped and not kept. -/
theorem accesses_keep_contract (cells : List UInt8) (hcells : cells.length = readRingBufferSize)
    (parserData : IpcMsg) (stale cb : Bool) {r : Receiving}
    (h : Reach step Free (start cells hcells parserData stale cb) r) :
    Safe r.machine ∧
      (∀ size, r.machine.parser.popping = some size → r.parser.dataSize + size ≤ 1024) ∧
      (∀ buffer size, r.stored = some (buffer, size) → ∃ t out,
        Decodes r.parser buffer size t out ∧
          (step r (.parser .unlock)).map Receiving.delivered = some (r.delivered ++ out)) ∧
      (∃ calls : List Call, r.delivered = calls.flatMap Call.received ∧
        ∀ front c back, calls = front ++ c :: back →
          (∀ m ∈ c.received, Readable c.handle m) ∧
          ∃ u v, Reach step Free (start cells hcells parserData stale cb) u ∧
            u.delivered = front.flatMap Call.received ∧ Called u v c ∧ Reach step Free v r) ∧
      framesSize r.delivered + r.parser.dataSize ≤ r.machine.popped.length := by
  have hstart := start_kept cells hcells parserData stale cb
  have hr : Kept r := h.invariant Kept hstart fun _ _ _ hu _ hstep => step_kept hu hstep
  have hpaid := hr.paid
  refine ⟨accesses_safe cells hcells (machine_reach cells hcells parserData stale cb h), hr.fits,
    ?_, ?_, by omega⟩
  · intro buffer size hstored
    obtain ⟨hunlocking, -, hfit⟩ := hr.stored buffer size hstored
    obtain ⟨t, out, hdecodes⟩ := exists_decodes hr.rests buffer hfit
    refine ⟨t, out, hdecodes, ?_⟩
    have hmachine : UnlockedReadRing.step r.machine (.parser .unlock) =
        some { r.machine with mutex := none, parser := .idle } := by
      simp only [UnlockedReadRing.step, parseStep, hunlocking]
    simp only [step, hmachine, Option.bind_some, decode, hstored, hdecodes.returns,
      Option.map_some]
  · obtain ⟨calls, hdelivered, hcalls⟩ := h.calls (f := Receiving.delivered) (g := Call.received)
      rfl fun u e v hu _ hstep => step_called
        (hu.invariant Kept hstart fun _ _ _ hx _ hstep => step_kept hx hstep) hstep
    refine ⟨calls, hdelivered, fun front c back hsplit => ?_⟩
    obtain ⟨u, v, hu, hbefore, ⟨hcalled, hreadable⟩, hv⟩ := hcalls front c back hsplit
    exact ⟨hreadable, u, v, hu, hbefore, hcalled, hv⟩

/-- A frame of twelve bytes that is pushed without the lock and popped with it. -/
def oneFrame : List (Event UInt8) :=
  [.reader (.read (stream [sendEmpty])), .parser .loadHead, .reader .loadHead, .reader .loadHead] ++
    (List.range 12).map (fun i => .reader (.store i)) ++
    [.reader .storeTail, .parser (.loadTail 1024), .parser .lock, .parser .testEmpty,
      .parser .testSize] ++
    (List.range 12).map (fun i => .parser (.load i)) ++ [.parser .storeHead, .parser .unlock]

theorem accesses_keep_contract_frame :
    ∃ r, runFrom step (start (List.replicate readRingBufferSize 0x00) List.length_replicate
        ⟨0, 0, 0, none⟩ false true) oneFrame = some r ∧
      r.delivered = [sendEmpty.delivered] ∧ Safe r.machine ∧
      ∃ calls : List Call, r.delivered = calls.flatMap Call.received ∧
        ∀ c ∈ calls, ∀ m ∈ c.received, Readable c.handle m := by
  have hrun : (runFrom step (start (List.replicate readRingBufferSize 0x00) List.length_replicate
      ⟨0, 0, 0, none⟩ false true) oneFrame).map Receiving.delivered =
        some [sendEmpty.delivered] := by
    decide +kernel
  obtain ⟨r, hr, hdelivered⟩ := Option.map_eq_some_iff.mp hrun
  obtain ⟨hsafe, -, -, ⟨calls, hcalls, hreadable⟩, -⟩ :=
    accesses_keep_contract _ _ _ _ _ (reach_of_runFrom _ hr)
  refine ⟨r, hr, hdelivered, hsafe, calls, hcalls, fun c hc => ?_⟩
  obtain ⟨front, back, hsplit⟩ := List.append_of_mem hc
  exact (hreadable front c back hsplit).1

end TcIpcCtrl.UnlockedReceiver
