import TcIpcCtrl.RingEffects
import TcIpcCtrl.Runs

/-!
The read ring between ReadThread and ParserThread. ReadThread decides to
overwrite before it takes the lock; ParserThread may empty the ring before the
overwrite runs, which then makes bytes that were popped already readable again.
In runs where every overwrite still has no room to spare when it runs, what is
popped is an ordered part of what was read from the device.
-/
namespace TcIpcCtrl.ReadRing

open CInt Runs BoundedQueue RingBuffer RingContents RingEffects

variable {α : Type*}

def readRingBufferSize : ℕ := 1024 * 16
def tmmReadSize : ℕ := 520

/-- `readSize > tc_buffer_free_space(pBufCtrl)` -/
def needsOverwrite (ring : TcRingbuf α) (readBufs : List α) : Bool :=
  decide (i32 readBufs.length > tcBufferFreeSpace ring)

/-- The branch of ReadThread that follows. -/
def pushRead (ring : TcRingbuf α) (readBufs : List α) (overwrite : Bool) : Call α :=
  if overwrite then tcPushBufferOverwrite ring readBufs else tcPushBuffer ring readBufs

/-- The ring, what each thread has decided and not yet done, and the bytes read
from the device and popped from the ring so far. -/
structure State (α : Type*) where
  ring : TcRingbuf α
  /-- ReadThread: the bytes read and whether to overwrite -/
  reading : Option (List α × Bool)
  /-- ParserThread: the size to pop -/
  popping : Option ℕ
  arrived : List α
  popped : List α

inductive Event (α : Type*)
  | read (readBufs : List α)
  | push
  | look (size : ℕ)
  | pop

def step (s : State α) : Event α → Option (State α)
  | .read readBufs =>
    if s.reading = none ∧ 1 ≤ readBufs.length ∧ readBufs.length ≤ tmmReadSize then
      some { s with
        reading := some (readBufs, needsOverwrite s.ring readBufs)
        arrived := s.arrived ++ readBufs }
    else none
  | .push => s.reading.map fun reading =>
    { s with ring := (pushRead s.ring reading.1 reading.2).ring, reading := none }
  | .look size =>
    if s.popping = none ∧ 0 < tcBufferDataAvailable s.ring ∧
        (size : ℤ) ≤ tcBufferDataAvailable s.ring then
      some { s with popping := some size }
    else none
  | .pop => s.popping.map fun size =>
    { s with
      ring := (tcPopBuffer s.ring size).ring
      popping := none
      popped := s.popped ++ (tcPopBuffer s.ring size).out }

def start (cells : List α) (hcells : cells.length = readRingBufferSize) : State α :=
  { ring := tcBufferInit cells readRingBufferSize hcells
    reading := none, popping := none, arrived := [], popped := [] }

/-- The bytes that ReadThread holds in `readBufs`. -/
def pending (s : State α) : List α := (s.reading.map Prod.fst).getD []

/-- Popped, in the ring, or about to be pushed. -/
def kept (s : State α) : List α := s.popped ++ contents s.ring ++ pending s

/-- An overwrite finds no more room than its bytes take when it runs. -/
def OverwritesFull (s : State α) : Event α → Prop
  | .push => s.reading.map Prod.snd = some true →
      tcBufferFreeSpace s.ring ≤ (pending s).length
  | .read _ => True
  | .look _ => True
  | .pop => True

instance (s : State α) : (e : Event α) → Decidable (OverwritesFull s e)
  | .push => inferInstanceAs (Decidable (_ → _))
  | .read _ => inferInstanceAs (Decidable True)
  | .look _ => inferInstanceAs (Decidable True)
  | .pop => inferInstanceAs (Decidable True)

theorem pending_eq {s : State α} {readBufs : List α} {overwrite : Bool}
    (h : s.reading = some (readBufs, overwrite)) : pending s = readBufs := by
  rw [pending, h, Option.map_some, Option.getD_some]

theorem OverwritesFull.le {s : State α} (hfull : OverwritesFull s .push) {readBufs : List α}
    (h : s.reading = some (readBufs, true)) : tcBufferFreeSpace s.ring ≤ readBufs.length := by
  have hle := hfull (by rw [h, Option.map_some])
  rwa [pending_eq h] at hle

/-- What every step keeps that meets `OverwritesFull`. -/
structure Sound (s : State α) : Prop where
  ring : Valid s.ring
  ring_size : s.ring.maxBufferSize = readRingBufferSize
  reading : ∀ readBufs overwrite, s.reading = some (readBufs, overwrite) →
    readBufs.length ≤ tmmReadSize ∧
      (overwrite = false → count s.ring + readBufs.length < s.ring.maxBufferSize)
  popping : ∀ size, s.popping = some size → 0 < count s.ring ∧ size ≤ count s.ring

theorem start_sound (cells : List α) (hcells : cells.length = readRingBufferSize) :
    Sound (start cells hcells) where
  ring := init_valid cells _ hcells (by decide) (by decide)
  ring_size := rfl
  reading _ _ h := by cases h
  popping _ h := by cases h

theorem Sound.lt_size {s : State α} (hs : Sound s) {readBufs : List α}
    (hle : readBufs.length ≤ tmmReadSize) : readBufs.length < s.ring.maxBufferSize := by
  rw [hs.ring_size, readRingBufferSize]
  simp only [tmmReadSize] at hle
  omega

theorem needsOverwrite_eq_true (ring : TcRingbuf α) (hv : Valid ring) (readBufs : List α)
    (hlt : readBufs.length < ring.maxBufferSize) :
    needsOverwrite ring readBufs = true ↔
      ring.maxBufferSize ≤ count ring + readBufs.length := by
  have hsize := hv.size_lt
  have hcount := count_lt ring hv
  rw [needsOverwrite, decide_eq_true_iff, freeSpace_eq ring hv, i32_of_lt _ (by omega)]
  omega

/-- A pass of ReadThread that nothing disturbs, with room for the bytes. -/
theorem pushRead_fits (ring : TcRingbuf α) (hv : Valid ring) (readBufs : List α)
    (hfit : count ring + readBufs.length < ring.maxBufferSize) :
    needsOverwrite ring readBufs = false ∧
      (pushRead ring readBufs false).ring = put ring readBufs := by
  refine ⟨?_, (tcPushBuffer_fits ring hv readBufs hfit).1⟩
  rw [← Bool.not_eq_true, needsOverwrite_eq_true ring hv readBufs (by omega)]
  omega

/-- And one without. -/
theorem pushRead_full (ring : TcRingbuf α) (hv : Valid ring) (readBufs : List α)
    (hlt : readBufs.length < ring.maxBufferSize)
    (hfull : ring.maxBufferSize ≤ count ring + readBufs.length) :
    needsOverwrite ring readBufs = true ∧ tcBufferFreeSpace ring ≤ readBufs.length ∧
      (pushRead ring readBufs true).ring = fill (put ring readBufs) := by
  refine ⟨(needsOverwrite_eq_true ring hv readBufs hlt).mpr hfull, ?_,
    (tcPushBufferOverwrite_eq ring hv readBufs hlt).1⟩
  rw [freeSpace_eq ring hv]
  omega

/-- A push that fits, or an overwrite with no room to spare, keeps the newest
bytes. -/
theorem pushRead_pushed (ring : TcRingbuf α) (hv : Valid ring) (readBufs : List α)
    (overwrite : Bool) (hlt : readBufs.length < ring.maxBufferSize)
    (hfit : overwrite = false → count ring + readBufs.length < ring.maxBufferSize)
    (hfull : overwrite = true → tcBufferFreeSpace ring ≤ readBufs.length) :
    Pushed ring (pushRead ring readBufs overwrite).ring readBufs := by
  cases overwrite with
  | false => exact tcPushBuffer_pushed ring hv readBufs (hfit rfl)
  | true =>
    have hroom := hfull rfl
    have hcount := count_lt ring hv
    rw [freeSpace_eq ring hv] at hroom
    exact tcPushBufferOverwrite_pushed ring hv readBufs hlt (by omega)

/-! What a step can do -/

theorem step_cases {s t : State α} (hs : Sound s) {e : Event α} (hfull : OverwritesFull s e)
    (h : step s e = some t) :
    (∃ readBufs, e = .read readBufs ∧ s.reading = none ∧ readBufs.length ≤ tmmReadSize ∧
      t = { s with
        reading := some (readBufs, needsOverwrite s.ring readBufs)
        arrived := s.arrived ++ readBufs }) ∨
    (∃ readBufs overwrite ring', e = .push ∧ s.reading = some (readBufs, overwrite) ∧
      Pushed s.ring ring' readBufs ∧ t = { s with ring := ring', reading := none }) ∨
    (∃ size, e = .look size ∧ 0 < count s.ring ∧ size ≤ count s.ring ∧
      t = { s with popping := some size }) ∨
    (∃ size, e = .pop ∧ s.popping = some size ∧
      t = { s with
        ring := advance s.ring size
        popping := none
        popped := s.popped ++ (contents s.ring).take size }) := by
  cases e with
  | read readBufs =>
    by_cases hg : s.reading = none ∧ 1 ≤ readBufs.length ∧ readBufs.length ≤ tmmReadSize
    · rw [step, if_pos hg] at h
      exact Or.inl ⟨readBufs, rfl, hg.1, hg.2.2, (Option.some.inj h).symm⟩
    · rw [step, if_neg hg] at h
      cases h
  | push =>
    obtain ⟨⟨readBufs, overwrite⟩, hreading, ht⟩ := Option.map_eq_some_iff.mp h
    obtain ⟨hle, hfit⟩ := hs.reading readBufs overwrite hreading
    have hpushed := pushRead_pushed s.ring hs.ring readBufs overwrite (hs.lt_size hle) hfit
      (fun hover => hfull.le (by rw [hreading, hover]))
    exact Or.inr (Or.inl ⟨readBufs, overwrite, _, rfl, hreading, hpushed, ht.symm⟩)
  | look size =>
    by_cases hg : s.popping = none ∧ 0 < tcBufferDataAvailable s.ring ∧
        (size : ℤ) ≤ tcBufferDataAvailable s.ring
    · rw [step, if_pos hg] at h
      obtain ⟨-, hpos, hle⟩ := hg
      rw [dataAvailable_eq s.ring hs.ring] at hpos hle
      exact Or.inr (Or.inr (Or.inl
        ⟨size, rfl, by omega, by omega, (Option.some.inj h).symm⟩))
    · rw [step, if_neg hg] at h
      cases h
  | pop =>
    obtain ⟨size, hpopping, ht⟩ := Option.map_eq_some_iff.mp h
    obtain ⟨hpos, hle⟩ := hs.popping size hpopping
    obtain ⟨hring, -, hout, -⟩ := tcPopBuffer_ok s.ring hs.ring size hpos hle
    rw [hring, hout] at ht
    exact Or.inr (Or.inr (Or.inr ⟨size, rfl, hpopping, ht.symm⟩))

theorem step_sound {s t : State α} (hs : Sound s) {e : Event α} (hfull : OverwritesFull s e)
    (h : step s e = some t) : Sound t := by
  rcases step_cases hs hfull h with ⟨readBufs, -, -, hle, rfl⟩ |
    ⟨readBufs, overwrite, ring', -, -, hpushed, rfl⟩ | ⟨size, -, hpos, hle, rfl⟩ |
    ⟨size, -, hpopping, rfl⟩
  · refine ⟨hs.ring, hs.ring_size, ?_, hs.popping⟩
    intro bufs overwrite hreading
    simp only [Option.some.injEq, Prod.mk.injEq] at hreading
    obtain ⟨rfl, rfl⟩ := hreading
    refine ⟨hle, fun hfit => ?_⟩
    by_contra hover
    have hneeds := (needsOverwrite_eq_true s.ring hs.ring readBufs (hs.lt_size hle)).mpr
      (Nat.le_of_not_lt hover)
    rw [hneeds] at hfit
    cases hfit
  · refine ⟨hpushed.valid, hpushed.size.trans hs.ring_size, ?_, ?_⟩
    · intro bufs overwrite hreading
      cases hreading
    · intro size hpopping
      obtain ⟨hpos, hle⟩ := hs.popping size hpopping
      have hcount := hpushed.count_le hs.ring
      exact ⟨Nat.lt_of_lt_of_le hpos hcount, Nat.le_trans hle hcount⟩
  · refine ⟨hs.ring, hs.ring_size, hs.reading, ?_⟩
    intro size' hpopping
    simp only [Option.some.injEq] at hpopping
    rw [← hpopping]
    exact ⟨hpos, hle⟩
  · obtain ⟨-, hle⟩ := hs.popping size hpopping
    refine ⟨advance_valid s.ring hs.ring size, hs.ring_size, ?_, ?_⟩
    · intro bufs overwrite hreading
      obtain ⟨hlen, hfit⟩ := hs.reading bufs overwrite hreading
      refine ⟨hlen, fun hfalse => ?_⟩
      have hroom := hfit hfalse
      show count (advance s.ring size) + bufs.length < s.ring.maxBufferSize
      rw [count_advance s.ring hs.ring size hle]
      omega
    · intro size' hpopping'
      cases hpopping'

/-- The bytes that a step reads from the device. -/
def newBytes : Event α → List α
  | .read readBufs => readBufs
  | .push => []
  | .look _ => []
  | .pop => []

/-- A step keeps all bytes, but for an overwrite without room, which keeps the
newest. -/
theorem step_kept {s t : State α} (hs : Sound s) {e : Event α} (hfull : OverwritesFull s e)
    (h : step s e = some t) :
    t.arrived = s.arrived ++ newBytes e ∧
      (kept t = kept s ++ newBytes e ∨
        (kept t).Sublist (kept s) ∧ newBytes e = [] ∧ e = .push ∧
          ∃ readBufs, s.reading = some (readBufs, true) ∧
            tcBufferFreeSpace s.ring < readBufs.length) := by
  rcases step_cases hs hfull h with ⟨readBufs, rfl, hnone, -, rfl⟩ |
    ⟨readBufs, overwrite, ring', rfl, hreading, hpushed, rfl⟩ | ⟨size, rfl, -, -, rfl⟩ |
    ⟨size, rfl, hpopping, rfl⟩
  · refine ⟨rfl, Or.inl ?_⟩
    simp only [kept, pending, hnone, newBytes, Option.map_some, Option.map_none, Option.getD_some,
      Option.getD_none, List.append_nil]
  · have hbefore : kept s = s.popped ++ (contents s.ring ++ readBufs) := by
      rw [kept, pending_eq hreading, List.append_assoc]
    have hafter : kept { s with ring := ring', reading := none } =
        s.popped ++ (contents s.ring ++ readBufs).rtake (s.ring.maxBufferSize - 1) := by
      simp only [kept, pending, hpushed.contents, Option.map_none, Option.getD_none,
        List.append_nil]
    refine ⟨(List.append_nil _).symm, ?_⟩
    rw [hbefore, hafter]
    by_cases hfit : count s.ring + readBufs.length < s.ring.maxBufferSize
    · left
      rw [← hpushed.contents, hpushed.of_fits hs.ring hfit, newBytes, List.append_nil]
    · have hover : overwrite = true := by
        by_contra hfalse
        rw [Bool.not_eq_true] at hfalse
        exact hfit ((hs.reading readBufs overwrite hreading).2 hfalse)
      have hlost : tcBufferFreeSpace s.ring < readBufs.length := by
        have hcount := count_lt s.ring hs.ring
        rw [freeSpace_eq s.ring hs.ring]
        omega
      right
      exact ⟨(List.drop_sublist _ _).append_left _, rfl, rfl, readBufs, hover ▸ hreading, hlost⟩
  · exact ⟨(List.append_nil _).symm, Or.inl (List.append_nil _).symm⟩
  · obtain ⟨-, hle⟩ := hs.popping size hpopping
    refine ⟨(List.append_nil _).symm, Or.inl ?_⟩
    show s.popped ++ (contents s.ring).take size ++ contents (advance s.ring size) ++ pending s =
      s.popped ++ contents s.ring ++ pending s ++ []
    rw [contents_advance s.ring hs.ring size hle, List.append_nil, List.append_assoc s.popped,
      List.take_append_drop]

/-! Whole runs -/

theorem reach_kept {cells : List α} {hcells : cells.length = readRingBufferSize} {s : State α}
    (h : Reach step OverwritesFull (start cells hcells) s) :
    Sound s ∧ (kept s).Sublist s.arrived := by
  refine h.invariant (fun s => Sound s ∧ (kept s).Sublist s.arrived)
    ⟨start_sound cells hcells, List.Sublist.slnil⟩ ?_
  rintro u e v ⟨hu, hsub⟩ hfull hstep
  refine ⟨step_sound hu hfull hstep, ?_⟩
  obtain ⟨harrived, hkept | ⟨hlost, hnew, -⟩⟩ := step_kept hu hfull hstep
  · rw [hkept, harrived]
    exact hsub.append_right _
  · rw [harrived, hnew, List.append_nil]
    exact hlost.trans hsub

theorem popped_sublist_kept (s : State α) : s.popped.Sublist (kept s) := by
  rw [kept, List.append_assoc]
  exact List.sublist_append_left _ _

/-! A ring that full reads have filled -/

/-- Between the passes of both threads: how much has been read and is held, with
nothing popped yet. -/
structure Filled (s : State UInt8) (n : ℕ) : Prop where
  sound : Sound s
  reading : s.reading = none
  popping : s.popping = none
  popped : s.popped = []
  arrived : s.arrived.length = n
  count : count s.ring = n

/-- A full read. -/
def fullRead : List UInt8 := List.replicate 520 0x00

theorem length_fullRead : fullRead.length = 520 := List.length_replicate

theorem step_read {s : State UInt8} (hs : s.reading = none) :
    step s (.read fullRead) = some { s with
      reading := some (fullRead, needsOverwrite s.ring fullRead)
      arrived := s.arrived ++ fullRead } := by
  have hlen := length_fullRead
  rw [step, if_pos ⟨hs, by omega, by rw [hlen, tmmReadSize]⟩]

/-- Another full read goes into the ring while there is room. -/
theorem filled_succ {s : State UInt8} {n : ℕ} (hs : Filled s n) (hn : n + 520 < 16384) :
    ∃ t, Reach step OverwritesFull s t ∧ Filled t (n + 520) := by
  have hlen := length_fullRead
  have hv := hs.sound.ring
  have hsize := hs.sound.ring_size
  have hcount := hs.count
  rw [readRingBufferSize] at hsize
  have hfit : RingContents.count s.ring + fullRead.length < s.ring.maxBufferSize := by omega
  obtain ⟨hneeds, hring⟩ := pushRead_fits s.ring hv fullRead hfit
  have hread := step_read hs.reading
  rw [hneeds] at hread
  have hpush : step { s with
      reading := some (fullRead, false), arrived := s.arrived ++ fullRead } .push =
        some { s with
          ring := put s.ring fullRead, reading := none, arrived := s.arrived ++ fullRead } := by
    rw [step, Option.map_some, hring]
  have hfull : OverwritesFull { s with
      reading := some (fullRead, false), arrived := s.arrived ++ fullRead } .push := by
    intro hover
    cases hover
  refine ⟨_, .tail (.tail (e := .read fullRead) .refl trivial hread) hfull hpush,
    step_sound (step_sound (e := .read fullRead) hs.sound trivial hread) hfull hpush, rfl,
    hs.popping, hs.popped, ?_, ?_⟩
  · rw [List.length_append, hs.arrived, hlen]
  · rw [count_put s.ring hv fullRead hfit, hcount, hlen]

theorem filled_of_reads (cells : List UInt8) (hcells : cells.length = readRingBufferSize) (k : ℕ)
    (hk : k ≤ 31) :
    ∃ s, Reach step OverwritesFull (start cells hcells) s ∧ Filled s (520 * k) := by
  induction k with
  | zero =>
    exact ⟨start cells hcells, .refl, start_sound cells hcells, rfl, rfl, rfl, rfl, rfl⟩
  | succ k ih =>
    obtain ⟨s, hreach, hs⟩ := ih (by omega)
    obtain ⟨t, ht, hfilled⟩ := filled_succ hs (by omega)
    exact ⟨t, hreach.trans ht, by rwa [Nat.mul_succ]⟩

/-- When ReadThread has read what no longer fits, it is to overwrite. -/
theorem filled_overwrites {s : State UInt8} (hs : Filled s 16120) :
    step s (.read fullRead) = some { s with
      reading := some (fullRead, true), arrived := s.arrived ++ fullRead } ∧
    OverwritesFull { s with
      reading := some (fullRead, true), arrived := s.arrived ++ fullRead } .push := by
  have hlen := length_fullRead
  have hsize := hs.sound.ring_size
  have hcount := hs.count
  rw [readRingBufferSize] at hsize
  obtain ⟨hneeds, hroom, -⟩ := pushRead_full s.ring hs.sound.ring fullRead (by omega) (by omega)
  have hread := step_read hs.reading
  rw [hneeds] at hread
  exact ⟨hread, fun _ => hroom⟩

/-- An overwrite puts Head one past Tail, whether or not there was room. -/
theorem push_overwrites {s : State UInt8} (hv : Valid s.ring)
    (hs : s.reading = some (fullRead, true)) (hsize : s.ring.maxBufferSize = 16384) :
    ∃ t, step s .push = some t ∧ Valid t.ring ∧ count t.ring = 16383 ∧
      t.popping = s.popping ∧ t.arrived = s.arrived ∧ t.popped = s.popped := by
  have hlen := length_fullRead
  have hput := put_valid _ hv fullRead
  obtain ⟨hover, -, -⟩ := tcPushBufferOverwrite_eq s.ring hv fullRead (by omega)
  refine ⟨{ s with ring := fill (put s.ring fullRead), reading := none }, ?_,
    fill_valid _ hput, ?_, rfl, rfl, rfl⟩
  · rw [step, hs, Option.map_some, pushRead, if_pos rfl, hover]
  · have hcount := count_fill _ hput
    rw [put_maxBufferSize, hsize] at hcount
    exact hcount

/-- A pass of ParserThread that pops `n` bytes. -/
theorem look_pop {s : State UInt8} (hv : Valid s.ring) (hs : s.popping = none) (n : ℕ)
    (hpos : 0 < count s.ring) (hle : n ≤ count s.ring) :
    ∃ t, Reach step OverwritesFull s t ∧ t.ring = advance s.ring n ∧
      t.reading = s.reading ∧ t.popping = none ∧ t.arrived = s.arrived ∧
      t.popped.length = s.popped.length + n := by
  have havail := dataAvailable_eq s.ring hv
  have hlook : step s (.look n) = some { s with popping := some n } := by
    rw [step, if_pos ⟨hs, by omega, by omega⟩]
  obtain ⟨hring, -, hout, -⟩ := tcPopBuffer_ok s.ring hv n hpos hle
  have hpop : step { s with popping := some n } .pop = some { s with
      ring := advance s.ring n
      popping := none
      popped := s.popped ++ (contents s.ring).take n } := by
    rw [step, Option.map_some, hring, hout]
  refine ⟨_, .tail (e := .pop) (.tail (e := .look n) .refl trivial hlook) trivial hpop, rfl, rfl,
    rfl, rfl, ?_⟩
  rw [List.length_append, List.length_take, length_contents s.ring hv, Nat.min_eq_left hle]

/-- As long as every overwrite has no room to spare when it runs, the bytes popped
are an ordered part of the bytes read, item by item, and bytes are lost only in an
overwrite that has no room for its own. -/
theorem popped_in_order (cells : List α) (hcells : cells.length = readRingBufferSize)
    {s : State α} (h : Reach step OverwritesFull (start cells hcells) s) :
    s.popped.Sublist s.arrived ∧
      ∀ e t, OverwritesFull s e → step s e = some t → kept t ≠ kept s ++ newBytes e →
        e = .push ∧ ∃ readBufs, s.reading = some (readBufs, true) ∧
          tcBufferFreeSpace s.ring < readBufs.length := by
  obtain ⟨hs, hsub⟩ := reach_kept h
  refine ⟨(popped_sublist_kept s).trans hsub, ?_⟩
  intro e t hfull hstep hlost
  obtain ⟨-, hkept | ⟨-, -, rfl, hroom⟩⟩ := step_kept hs hfull hstep
  · exact absurd hkept hlost
  · exact ⟨rfl, hroom⟩

/-- A ring that is filled, overwritten and read. -/
theorem popped_in_order_overwrite :
    ∃ u v s : State UInt8,
      Reach step OverwritesFull (start (List.replicate readRingBufferSize 0x00)
        List.length_replicate) u ∧
      u.reading = some (fullRead, true) ∧ step u .push = some v ∧
      Reach step OverwritesFull v s ∧ s.popped.length = 520 ∧ s.popped.Sublist s.arrived := by
  obtain ⟨r, hreach, hr⟩ := filled_of_reads (List.replicate readRingBufferSize 0x00)
    List.length_replicate 31 (Nat.le_refl 31)
  obtain ⟨hread, hfull⟩ := filled_overwrites hr
  obtain ⟨v, hpush, hvalid, hcount, hpopping, -, hpopped⟩ :=
    push_overwrites (s := { r with
      reading := some (fullRead, true), arrived := r.arrived ++ fullRead }) hr.sound.ring rfl
      hr.sound.ring_size
  obtain ⟨s, hlater, -, -, -, -, hlen⟩ :=
    look_pop hvalid (hpopping.trans hr.popping) 520 (by omega) (by omega)
  have hread' := hreach.tail (show OverwritesFull r (.read fullRead) from trivial) hread
  refine ⟨_, v, s, hread', rfl, hpush, hlater, ?_,
    (popped_in_order _ _ ((hread'.tail hfull hpush).trans hlater)).1⟩
  rw [hlen, hpopped]
  exact congrArg (· + 520) (congrArg List.length hr.popped)

/-! An overwrite that comes too late -/

/-- ReadThread decides to overwrite, ParserThread empties the ring, and the
overwrite then makes a ring full of old bytes readable. -/
theorem run_late_overwrite {s : State UInt8} (hs : Filled s 16120) :
    ∃ t, Reach step Free s t ∧ t.popped.length = 16120 + 16383 ∧
      t.arrived.length = 16120 + 520 := by
  have hv := hs.sound.ring
  have hcount := hs.count
  obtain ⟨hread, -⟩ := filled_overwrites hs
  obtain ⟨u, hu, huring, hureading, hupopping, huarrived, hupopped⟩ :=
    look_pop (s := { s with
      reading := some (fullRead, true), arrived := s.arrived ++ fullRead }) hv hs.popping 16120
      (Nat.lt_of_lt_of_eq (by decide) hcount.symm) (Nat.le_of_eq hcount.symm)
  have huv : Valid u.ring := by
    rw [huring]
    exact advance_valid s.ring hv 16120
  have husize : u.ring.maxBufferSize = 16384 := by
    rw [huring]
    exact hs.sound.ring_size
  obtain ⟨v, hpush, hvvalid, hvcount, hvpopping, hvarrived, hvpopped⟩ :=
    push_overwrites huv hureading husize
  obtain ⟨w, hw, -, -, -, hwarrived, hwpopped⟩ :=
    look_pop hvvalid (hvpopping.trans hupopping) 16383 (by omega) (by omega)
  have hfree : ∀ x y : State UInt8, Reach step OverwritesFull x y → Reach step Free x y :=
    fun _ _ hreach => hreach.mono fun _ _ _ => trivial
  have hfirst : Reach step Free s u := (Reach.tail .refl trivial hread).trans (hfree _ _ hu)
  refine ⟨w, (hfirst.tail trivial hpush).trans (hfree _ _ hw), ?_, ?_⟩
  · rw [hwpopped, hvpopped, hupopped]
    show s.popped.length + 16120 + 16383 = 16120 + 16383
    rw [hs.popped, List.length_nil, Nat.zero_add]
  · rw [hwarrived, hvarrived, huarrived]
    show (s.arrived ++ fullRead).length = 16120 + 520
    rw [List.length_append, hs.arrived, length_fullRead]

/-- Bytes are popped twice: more come out of the ring than went in. -/
theorem bytes_popped_twice :
    ¬ ∀ (cells : List UInt8) (hcells : cells.length = readRingBufferSize) (s : State UInt8),
      Reach step Free (start cells hcells) s → s.popped.Sublist s.arrived := by
  intro h
  obtain ⟨s, hreach, hs⟩ := filled_of_reads (List.replicate readRingBufferSize 0x00)
    List.length_replicate 31 (Nat.le_refl 31)
  obtain ⟨t, hrun, hpopped, harrived⟩ := run_late_overwrite hs
  have hsub := h _ _ t ((hreach.mono fun _ _ _ => trivial).trans hrun)
  have hle := hsub.length_le
  omega

end TcIpcCtrl.ReadRing
