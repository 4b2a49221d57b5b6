import Mathlib.Data.Finset.Range
import TcIpcCtrl.ReceivePath
import TcIpcCtrl.RingHistory

/-!
The read ring access by access. ReadThread takes the mutex only to overwrite; its
plain push, and the looks of both threads at Head and Tail, are not locked and
may come between any two accesses of a locked pop. Each access is one step here,
and the bytes of a memcpy may be copied in any order. Apart from that the accesses
of a thread take effect in the order of the program, each whole and at once for
both threads; C promises this of none of the unlocked ones. Every such run is a
run of the two threads with their whole steps.
-/
namespace TcIpcCtrl.UnlockedReadRing

open CInt Cells Runs RingBuffer RingContents RingEffects RingHistory
open ReadRing hiding step start Event OverwritesFull

variable {α : Type*}

/-- Who holds the mutex of the ring. -/
inductive Holder
  | readThread
  | parserThread
deriving DecidableEq

/-- Where ReadThread stands in its loop. `stored` are the bytes copied so far. -/
inductive ReadPc (α : Type*)
  | idle
  /-- in tc_buffer_free_space as called by ReadThread -/
  | measuring (readBufs : List α)
  | locking (readBufs : List α)
  /-- in the copies of tc_push_buffer_overwrite -/
  | overwriting (readBufs : List α) (stored : Finset ℕ)
  /-- Tail has been stored, Head not yet -/
  | headStale
  | unlocking
  /-- in tc_buffer_free_space as called by tc_push_buffer -/
  | pushing (readBufs : List α)
  /-- in the copies of tc_push_buffer -/
  | storing (readBufs : List α) (stored : Finset ℕ)

/-- Where ParserThread stands. `buffer` is what it has copied so far. -/
inductive ParsePc (α : Type*)
  | idle
  /-- in tc_ipc_read_available_size, with Head loaded -/
  | headLoaded (iRead : ℕ)
  | locking (readSize : ℕ)
  /-- before the test for an empty ring in tc_pop_buffer -/
  | locked (readSize : ℕ)
  /-- in tc_buffer_data_available as called by tc_pop_buffer -/
  | measuring (readSize : ℕ)
  | loading (readSize : ℕ) (buffer : ℕ → Option α)
  | unlocking

structure Machine (α : Type*) where
  ring : TcRingbuf α
  mutex : Option Holder
  reader : ReadPc α
  parser : ParsePc α
  /-- bytes read from the device so far -/
  arrived : List α
  /-- bytes popped from the ring so far -/
  popped : List α

/-- The accesses of ReadThread to anything shared. -/
inductive ReadAccess (α : Type*)
  | read (readBufs : List α)
  | loadHead
  | lock
  | store (i : ℕ)
  | storeTail
  | storeHead
  | unlock

/-- Those of ParserThread; `parserSize` is the room in its own buffer. -/
inductive ParseAccess
  | loadHead
  | loadTail (parserSize : ℕ)
  | lock
  | testEmpty
  | testSize
  | load (i : ℕ)
  | storeHead
  | unlock

inductive Event (α : Type*)
  | reader (access : ReadAccess α)
  | parser (access : ParseAccess)

/-- The cell of byte `i` of a transfer that starts at `start` and may meet the wrap
point; for `i` the size of the transfer, the position that follows it. -/
def cellAt (maxBufferSize start i : ℕ) : ℕ :=
  let continuousSize := u32 (maxBufferSize - start)
  if continuousSize > i then u32 (start + i) else u32 (i - continuousSize)

/-- The ring with one byte of a copy to Tail stored. -/
def storeByte (r : TcRingbuf α) (readBufs : List α) (i : ℕ) : TcRingbuf α :=
  r.store (cellAt r.maxBufferSize r.tail i) (slice readBufs i 1)

/-- The ring as it looks to who has loaded Head before. -/
def headAt (r : TcRingbuf α) (head : ℕ) : TcRingbuf α := { r with head := head }

/-- All bytes have been copied. -/
def Copied (readBufs : List α) (stored : Finset ℕ) : Prop :=
  Finset.range readBufs.length ⊆ stored

instance (readBufs : List α) (stored : Finset ℕ) : Decidable (Copied readBufs stored) :=
  inferInstanceAs (Decidable (Finset.range readBufs.length ⊆ stored))

/-- ReadThread alone stores Tail, so it loads its own value whenever it does. -/
def readStep (m : Machine α) : ReadAccess α → Option (Machine α)
  | .read readBufs =>
    match m.reader with
    | .idle =>
      if 1 ≤ readBufs.length ∧ readBufs.length ≤ tmmReadSize then
        some { m with reader := .measuring readBufs, arrived := m.arrived ++ readBufs }
      else none
    | _ => none
  | .loadHead =>
    match m.reader with
    | .measuring readBufs =>
      some { m with
        reader := if needsOverwrite m.ring readBufs then .locking readBufs
          else .pushing readBufs }
    | .pushing readBufs =>
      some { m with
        reader := if u32 (tcBufferFreeSpace m.ring) ≥ readBufs.length then .storing readBufs ∅
          else .idle }
    | _ => none
  | .lock =>
    match m.reader with
    | .locking readBufs =>
      if m.mutex = none then
        some { m with mutex := some .readThread, reader := .overwriting readBufs ∅ }
      else none
    | _ => none
  | .store i =>
    match m.reader with
    | .overwriting readBufs stored =>
      if i < readBufs.length then
        some { m with
          ring := storeByte m.ring readBufs i
          reader := .overwriting readBufs (insert i stored) }
      else none
    | .storing readBufs stored =>
      if i < readBufs.length then
        some { m with
          ring := storeByte m.ring readBufs i
          reader := .storing readBufs (insert i stored) }
      else none
    | _ => none
  | .storeTail =>
    match m.reader with
    | .overwriting readBufs stored =>
      if Copied readBufs stored then
        some { m with
          ring := { m.ring with
            tail := cellAt m.ring.maxBufferSize m.ring.tail readBufs.length }
          reader := .headStale }
      else none
    | .storing readBufs stored =>
      if Copied readBufs stored then
        some { m with
          ring := { m.ring with
            tail := cellAt m.ring.maxBufferSize m.ring.tail readBufs.length }
          reader := .idle }
      else none
    | _ => none
  | .storeHead =>
    match m.reader with
    | .headStale =>
      some { m with
        ring := { m.ring with head := u32 (m.ring.tail + 1) % m.ring.maxBufferSize }
        reader := .unlocking }
    | _ => none
  | .unlock =>
    match m.reader with
    | .unlocking => some { m with mutex := none, reader := .idle }
    | _ => none

def parseStep (m : Machine α) : ParseAccess → Option (Machine α)
  | .loadHead =>
    match m.parser with
    | .idle => some { m with parser := .headLoaded m.ring.head }
    | _ => none
  | .loadTail parserSize =>
    match m.parser with
    | .headLoaded iRead =>
      let availableSize := tcBufferDataAvailable (headAt m.ring iRead)
      some { m with
        parser := if availableSize > 0 then
            .locking (ReceivePath.readSize availableSize parserSize)
          else .idle }
    | _ => none
  | .lock =>
    match m.parser with
    | .locking readSize =>
      if m.mutex = none then
        some { m with mutex := some .parserThread, parser := .locked readSize }
      else none
    | _ => none
  | .testEmpty =>
    match m.parser with
    | .locked readSize =>
      some { m with
        parser := if m.ring.tail = m.ring.head then .unlocking else .measuring readSize }
    | _ => none
  | .testSize =>
    match m.parser with
    | .measuring readSize =>
      some { m with
        parser := if tcBufferDataAvailable m.ring ≥ i32 readSize then
            .loading readSize (fun _ => none)
          else .unlocking }
    | _ => none
  | .load i =>
    match m.parser with
    | .loading readSize buffer =>
      if i < readSize then
        some { m with
          parser := .loading readSize (Function.update buffer i
            (m.ring.pBuffer[cellAt m.ring.maxBufferSize m.ring.head i]?)) }
      else none
    | _ => none
  | .storeHead =>
    match m.parser with
    | .loading readSize buffer =>
      if ∀ i < readSize, (buffer i).isSome then
        some { m with
          ring := { m.ring with head := cellAt m.ring.maxBufferSize m.ring.head readSize }
          parser := .unlocking
          popped := m.popped ++ (List.range readSize).filterMap buffer }
      else none
    | _ => none
  | .unlock =>
    match m.parser with
    | .unlocking => some { m with mutex := none, parser := .idle }
    | _ => none

def step (m : Machine α) : Event α → Option (Machine α)
  | .reader access => readStep m access
  | .parser access => parseStep m access

def start (cells : List α) (hcells : cells.length = readRingBufferSize) : Machine α :=
  { ring := tcBufferInit cells readRingBufferSize hcells
    mutex := none, reader := .idle, parser := .idle, arrived := [], popped := [] }

/-! Copies in progress -/

theorem cellAt_eq {maxBufferSize start i : ℕ} (hsize : maxBufferSize < 2147483648)
    (hstart : start < maxBufferSize) (hi : i ≤ maxBufferSize) :
    cellAt maxBufferSize start i = (start + i) % maxBufferSize := by
  have hcont : u32 (maxBufferSize - start) = maxBufferSize - start :=
    u32_sub _ _ hstart.le (by omega)
  rw [cellAt, hcont, mod_eq_ite _ _ (by omega)]
  by_cases hin : maxBufferSize - start > i
  · rw [if_pos hin, if_pos (by omega), u32_add _ _ (by omega)]
  · rw [if_neg hin, if_neg (by omega), u32_sub _ _ (by omega) (by omega)]
    omega

/-- The cells of `c` are those of `a`, with the bytes in `stored` copied to Tail. -/
structure Overlaid (a c : TcRingbuf α) (readBufs : List α) (stored : Finset ℕ) : Prop where
  head : c.head = a.head
  tail : c.tail = a.tail
  size : c.maxBufferSize = a.maxBufferSize
  copied : ∀ i ∈ stored, i < readBufs.length ∧
    c.pBuffer[(a.tail + i) % a.maxBufferSize]? = readBufs[i]?
  others : ∀ p, (∀ i ∈ stored, p ≠ (a.tail + i) % a.maxBufferSize) →
    c.pBuffer[p]? = a.pBuffer[p]?

theorem Overlaid.refl (a : TcRingbuf α) (readBufs : List α) : Overlaid a a readBufs ∅ :=
  ⟨rfl, rfl, rfl, fun _ hi => absurd hi (Finset.notMem_empty _), fun _ _ => rfl⟩

theorem storeByte_cells {a c : TcRingbuf α} (hv : Valid a) {readBufs : List α}
    (hle : readBufs.length < a.maxBufferSize) (htail : c.tail = a.tail)
    (hsize : c.maxBufferSize = a.maxBufferSize) {i : ℕ} (hi : i < readBufs.length) :
    (storeByte c readBufs i).pBuffer =
      c.pBuffer.set ((a.tail + i) % a.maxBufferSize) readBufs[i] := by
  have hcell := cellAt_eq hv.size_lt hv.tail_lt (show i ≤ a.maxBufferSize by omega)
  have hbyte : slice readBufs i 1 = [readBufs[i]] := by
    rw [slice, List.drop_eq_getElem_cons hi, List.take_succ_cons, List.take_zero]
  show memcpy c.pBuffer (cellAt c.maxBufferSize c.tail i) (slice readBufs i 1) = _
  rw [htail, hsize, hcell, hbyte, memcpy, memcpy]

theorem Overlaid.store {a c : TcRingbuf α} (hv : Valid a) {readBufs : List α} {stored : Finset ℕ}
    (h : Overlaid a c readBufs stored) (hle : readBufs.length < a.maxBufferSize) {i : ℕ}
    (hi : i < readBufs.length) :
    Overlaid a (storeByte c readBufs i) readBufs (insert i stored) := by
  have hcells := storeByte_cells hv hle h.tail h.size hi
  have hlen : c.pBuffer.length = a.maxBufferSize := c.pBuffer_length.trans h.size
  have hlt : (a.tail + i) % a.maxBufferSize < c.pBuffer.length := by
    rw [hlen]
    exact Nat.mod_lt _ (Nat.zero_lt_of_lt hv.tail_lt)
  refine ⟨h.head, h.tail, h.size, ?_, ?_⟩
  · intro j hj
    rw [hcells]
    by_cases heq : j = i
    · rw [heq, List.getElem?_set_self hlt, List.getElem?_eq_getElem hi]
      exact ⟨hi, rfl⟩
    · obtain ⟨hjlt, hbyte⟩ := h.copied j ((Finset.mem_insert.mp hj).resolve_left heq)
      refine ⟨hjlt, ?_⟩
      rw [List.getElem?_set_ne, hbyte]
      intro hsame
      exact heq (add_mod_inj (by omega) (by omega) hsame).symm
  · intro p hp
    have hne := hp i (Finset.mem_insert_self i stored)
    rw [hcells, List.getElem?_set_ne hne.symm]
    exact h.others p fun j hj => hp j (Finset.mem_insert_of_mem hj)

/-- When the last byte is copied, storing Tail completes the push. -/
theorem Overlaid.put_eq {a c : TcRingbuf α} (hv : Valid a) {readBufs : List α} {stored : Finset ℕ}
    (h : Overlaid a c readBufs stored) (hle : readBufs.length < a.maxBufferSize)
    (hcopied : Copied readBufs stored) :
    { c with tail := cellAt c.maxBufferSize c.tail readBufs.length } = put a readBufs := by
  have htail : cellAt c.maxBufferSize c.tail readBufs.length =
      (a.tail + readBufs.length) % a.maxBufferSize := by
    rw [h.size, h.tail]
    exact cellAt_eq hv.size_lt hv.tail_lt (by omega)
  have hlen := a.pBuffer_length
  have hcells : c.pBuffer = writeRound a.pBuffer a.tail readBufs := by
    apply List.ext_getElem?
    intro p
    by_cases hp : ∃ i < readBufs.length, p = (a.tail + i) % a.maxBufferSize
    · obtain ⟨i, hi, rfl⟩ := hp
      have hwritten := getElem?_writeRound a.pBuffer readBufs a.tail hi (by omega)
      rw [hlen] at hwritten
      rw [(h.copied i (hcopied (Finset.mem_range.mpr hi))).2, hwritten]
    · have hother : ∀ i < readBufs.length, p ≠ (a.tail + i) % a.maxBufferSize :=
        fun i hi heq => hp ⟨i, hi, heq⟩
      rw [getElem?_writeRound_of_ne _ _ _ _ (by rw [hlen]; exact hother)]
      exact h.others p fun i hi => hother i (h.copied i hi).1
  have hhead := h.head
  have hsize := h.size
  obtain ⟨head, tail, maxBufferSize, pBuffer, hbuf⟩ := c
  simp only at hhead hsize htail hcells
  subst hhead hsize hcells
  simp only [put, htail]

/-! The whole steps behind the accesses -/

/-- What ReadThread has decided to push, and whether to overwrite; nothing once Tail
is stored. -/
def ReadPc.reading : ReadPc α → Option (List α × Bool)
  | .idle => none
  | .measuring _ => none
  | .locking readBufs => some (readBufs, true)
  | .overwriting readBufs _ => some (readBufs, true)
  | .headStale => none
  | .unlocking => none
  | .pushing readBufs => some (readBufs, false)
  | .storing readBufs _ => some (readBufs, false)

/-- Bytes read while nothing has been decided about them. -/
def ReadPc.unread : ReadPc α → List α
  | .measuring readBufs => readBufs
  | _ => []

/-- What ReadThread has read fits into its own buffer. -/
def ReadPc.Sized : ReadPc α → Prop
  | .measuring readBufs => 1 ≤ readBufs.length ∧ readBufs.length ≤ tmmReadSize
  | _ => True

def ReadPc.locks : ReadPc α → Bool
  | .overwriting _ _ => true
  | .headStale => true
  | .unlocking => true
  | _ => false

def ParsePc.popping : ParsePc α → Option ℕ
  | .locking readSize => some readSize
  | .locked readSize => some readSize
  | .measuring readSize => some readSize
  | .loading readSize _ => some readSize
  | _ => none

def ParsePc.locks : ParsePc α → Bool
  | .locked _ => true
  | .measuring _ => true
  | .loading _ _ => true
  | .unlocking => true
  | _ => false

/-- The ring `c` in memory, when `a` is the ring between whole steps. -/
def Shows (a c : TcRingbuf α) : ReadPc α → Prop
  | .overwriting readBufs stored => Overlaid a c readBufs stored
  | .storing readBufs stored => Overlaid a c readBufs stored
  | .headStale => fill a = a ∧ ∃ head < a.maxBufferSize, c = headAt a head
  | _ => c = a

theorem headAt_valid {r : TcRingbuf α} (hv : Valid r) {head : ℕ} (hlt : head < r.maxBufferSize) :
    Valid (headAt r head) :=
  ⟨hv.two_le, hv.size_lt, hlt, hv.tail_lt⟩

theorem Shows.tail_eq {a c : TcRingbuf α} {pc : ReadPc α} (h : Shows a c pc) :
    c.tail = a.tail ∧ c.maxBufferSize = a.maxBufferSize := by
  cases pc with
  | overwriting => exact ⟨h.tail, h.size⟩
  | storing => exact ⟨h.tail, h.size⟩
  | headStale =>
    obtain ⟨-, head, -, rfl⟩ := h
    exact ⟨rfl, rfl⟩
  | _ => exact ⟨congrArg _ h, congrArg _ h⟩

/-- Head is out of date only while ReadThread holds the mutex. -/
theorem Shows.head_eq {a c : TcRingbuf α} {pc : ReadPc α} (h : Shows a c pc)
    (hlocks : pc.locks = false) : c.head = a.head := by
  cases pc with
  | storing => exact h.head
  | overwriting => cases hlocks
  | headStale => cases hlocks
  | unlocking => cases hlocks
  | _ => exact congrArg _ h

/-- A pop moves Head in memory as in the ring between whole steps. -/
theorem Shows.advance {a c : TcRingbuf α} {pc : ReadPc α} (h : Shows a c pc)
    (hlocks : pc.locks = false) (n : ℕ) :
    Shows (RingContents.advance a n) (headAt c (RingContents.advance a n).head) pc := by
  cases pc with
  | storing readBufs stored => exact ⟨rfl, h.tail, h.size, h.copied, h.others⟩
  | overwriting => cases hlocks
  | headStale => cases hlocks
  | unlocking => cases hlocks
  | _ =>
    obtain rfl : c = a := h
    exact rfl

/-- An old Head shows no more than the ring holds: with Tail stored the ring counts
as full. -/
theorem Shows.seen {a c : TcRingbuf α} (hv : Valid a) {pc : ReadPc α} (h : Shows a c pc) :
    c.head < a.maxBufferSize ∧ count (headAt a c.head) ≤ count a := by
  have hhead := hv.head_lt
  cases pc with
  | overwriting =>
    rw [h.head]
    exact ⟨hhead, le_rfl⟩
  | storing =>
    rw [h.head]
    exact ⟨hhead, le_rfl⟩
  | headStale =>
    obtain ⟨hfull, head, hlt, rfl⟩ := h
    have hcount := count_fill a hv
    rw [hfull] at hcount
    have hother := count_lt _ (headAt_valid hv hlt)
    rw [hcount]
    exact ⟨hlt, Nat.le_sub_one_of_lt hother⟩
  | _ =>
    rw [show c.head = a.head from congrArg _ h]
    exact ⟨hhead, le_rfl⟩

theorem dataAvailable_congr {c a : TcRingbuf α} (hhead : c.head = a.head) (htail : c.tail = a.tail)
    (hsize : c.maxBufferSize = a.maxBufferSize) :
    tcBufferDataAvailable c = tcBufferDataAvailable a := by
  rw [tcBufferDataAvailable, tcBufferDataAvailable, hhead, htail, hsize]

theorem freeSpace_congr {c a : TcRingbuf α} (hhead : c.head = a.head) (htail : c.tail = a.tail)
    (hsize : c.maxBufferSize = a.maxBufferSize) : tcBufferFreeSpace c = tcBufferFreeSpace a := by
  rw [tcBufferFreeSpace, tcBufferFreeSpace, hhead, htail, hsize]

/-- What ParserThread has loaded agrees with the ring: an old Head shows no more than
there is, and what is copied is what is readable. -/
def ParsePc.Sees (a : TcRingbuf α) : ParsePc α → Prop
  | .headLoaded iRead => iRead < a.maxBufferSize ∧ count (headAt a iRead) ≤ count a
  | .loading readSize buffer =>
    ∀ i x, buffer i = some x → i < readSize ∧ (contents a)[i]? = some x
  | _ => True

/-- ReadThread's side of a machine that has come as far as the whole steps to `s`. -/
structure ReadLinked (m : Machine α) (s : State α) : Prop where
  ring : Shows s.ring m.ring m.reader
  reading : s.reading = m.reader.reading
  arrived : m.arrived = s.arrived ++ m.reader.unread
  sized : m.reader.Sized
  lock : m.mutex = some .readThread ↔ m.reader.locks = true

theorem ReadLinked.at_pc {m : Machine α} {s : State α} (h : ReadLinked m s) {pc : ReadPc α}
    (hpc : m.reader = pc) :
    Shows s.ring m.ring pc ∧ s.reading = pc.reading ∧ m.arrived = s.arrived ++ pc.unread ∧
      (m.mutex = some .readThread ↔ pc.locks = true) := by
  subst hpc
  exact ⟨h.ring, h.reading, h.arrived, h.lock⟩

/-- ParserThread's side. -/
structure ParseLinked (m : Machine α) (s : State α) : Prop where
  popping : s.popping = m.parser.popping
  popped : m.popped = s.popped
  sees : m.parser.Sees s.ring
  lock : m.mutex = some .parserThread ↔ m.parser.locks = true

theorem ParseLinked.at_pc {m : Machine α} {s : State α} (h : ParseLinked m s) {pc : ParsePc α}
    (hpc : m.parser = pc) :
    s.popping = pc.popping ∧ m.popped = s.popped ∧ pc.Sees s.ring ∧
      (m.mutex = some .parserThread ↔ pc.locks = true) := by
  subst hpc
  exact ⟨h.popping, h.popped, h.sees, h.lock⟩

structure Linked (m : Machine α) (s : State α) : Prop where
  sound : Sound s
  reader : ReadLinked m s
  parser : ParseLinked m s

theorem start_linked (cells : List α) (hcells : cells.length = readRingBufferSize) :
    Linked (start cells hcells) (ReadRing.start cells hcells) where
  sound := start_sound cells hcells
  reader := ⟨rfl, rfl, rfl, trivial, by simp [start, ReadPc.locks]⟩
  parser := ⟨rfl, rfl, trivial, by simp [start, ParsePc.locks]⟩

theorem ParseLinked.congr {m m' : Machine α} {s s' : State α} (h : ParseLinked m s)
    (hm : (m'.parser, m'.popped) = (m.parser, m.popped))
    (hs : (s'.ring, s'.popping, s'.popped) = (s.ring, s.popping, s.popped))
    (hmutex : m'.mutex = some .parserThread ↔ m.mutex = some .parserThread) :
    ParseLinked m' s' := by
  obtain ⟨hparser, hpopped⟩ := Prod.mk.inj hm
  obtain ⟨hring, hrest⟩ := Prod.mk.inj hs
  obtain ⟨hpopping, hspopped⟩ := Prod.mk.inj hrest
  constructor
  · rw [hpopping, hparser, h.popping]
  · rw [hpopped, hspopped, h.popped]
  · rw [hparser, hring]
    exact h.sees
  · rw [hmutex, hparser]
    exact h.lock

/-- A push keeps what ParserThread has seen, and what it is copying. -/
theorem ParseLinked.of_push {m : Machine α} {s : State α} (h : ParseLinked m s)
    {ring : TcRingbuf α} (hsize : ring.maxBufferSize = s.ring.maxBufferSize)
    (hseen : ∀ head < s.ring.maxBufferSize,
      count (headAt s.ring head) ≤ count s.ring → count (headAt ring head) ≤ count ring)
    (hloaded : m.parser.locks = true → contents s.ring <+: contents ring) :
    ParseLinked m { s with ring := ring, reading := none } := by
  refine ⟨h.popping, h.popped, ?_, h.lock⟩
  have hsees := h.sees
  show m.parser.Sees ring
  cases hpc : m.parser with
  | headLoaded iRead =>
    rw [hpc] at hsees
    exact ⟨Nat.lt_of_lt_of_eq hsees.1 hsize.symm, hseen iRead hsees.1 hsees.2⟩
  | loading readSize buffer =>
    rw [hpc] at hsees
    obtain ⟨rest, hrest⟩ := hloaded (by rw [hpc, ParsePc.locks])
    intro i x hi
    obtain ⟨hlt, hx⟩ := hsees i x hi
    obtain ⟨hin, -⟩ := List.getElem?_eq_some_iff.mp hx
    exact ⟨hlt, by rw [← hrest, List.getElem?_append_left hin, hx]⟩
  | _ => trivial

/-! The accesses of ReadThread -/

theorem push_put_linked {m : Machine α} {s : State α} (hl : Linked m s) {readBufs : List α}
    (hreading : s.reading = some (readBufs, false)) :
    ∃ t, ReadRing.step s .push = some t ∧
      t = { s with ring := put s.ring readBufs, reading := none } ∧
      Sound t ∧ ParseLinked m t := by
  obtain ⟨t, ht⟩ : ∃ t, ReadRing.step s .push = some t := ⟨_, by rw [ReadRing.step, hreading]; rfl⟩
  have hsound := push_sound hl.sound ht
  obtain ⟨bufs, -, ⟨hbufs, hfit, rfl⟩ | ⟨hbufs, -⟩⟩ := push_cases hl.sound ht
  · rw [hreading] at hbufs
    obtain rfl : readBufs = bufs := (Prod.mk.inj (Option.some.inj hbufs)).1
    refine ⟨_, ht, rfl, hsound, hl.parser.of_push rfl ?_ ?_⟩
    · intro head hlt hle
      have hold := count_put _ (headAt_valid hl.sound.ring hlt) readBufs (by
        show _ < s.ring.maxBufferSize
        omega)
      have hnew := count_put s.ring hl.sound.ring readBufs hfit
      show count (put (headAt s.ring head) readBufs) ≤ count (put s.ring readBufs)
      omega
    · intro _
      rw [contents_put s.ring hl.sound.ring readBufs hfit]
      exact List.prefix_append _ _
  · rw [hreading] at hbufs
    cases hbufs

theorem push_fill_linked {m : Machine α} {s : State α} (hl : Linked m s) {readBufs : List α}
    (hreading : s.reading = some (readBufs, true)) (hlock : m.mutex = some .readThread) :
    ∃ t, ReadRing.step s .push = some t ∧
      t = { s with ring := fill (put s.ring readBufs), reading := none } ∧
      Sound t ∧ ParseLinked m t := by
  obtain ⟨t, ht⟩ : ∃ t, ReadRing.step s .push = some t := ⟨_, by rw [ReadRing.step, hreading]; rfl⟩
  have hsound := push_sound hl.sound ht
  obtain ⟨bufs, -, ⟨hbufs, -⟩ | ⟨hbufs, rfl⟩⟩ := push_cases hl.sound ht
  · rw [hreading] at hbufs
    cases hbufs
  · rw [hreading] at hbufs
    obtain rfl : readBufs = bufs := (Prod.mk.inj (Option.some.inj hbufs)).1
    have hput := put_valid s.ring hl.sound.ring readBufs
    refine ⟨_, ht, rfl, hsound, hl.parser.of_push rfl ?_ ?_⟩
    · intro head hlt _
      have hlt' := count_lt _ (headAt_valid (fill_valid _ hput) hlt)
      rw [count_fill _ hput]
      exact Nat.le_sub_one_of_lt hlt'
    · intro hparser
      have hother := hl.parser.lock.mpr hparser
      rw [hlock] at hother
      cases hother

def Event.storesTail : Event α → Bool
  | .reader .storeTail => true
  | _ => false

/-- An overwrite finds no more room than its bytes take when it stores Tail. -/
def OverwritesFull (m : Machine α) (e : Event α) : Prop :=
  e.storesTail = true → m.reader.reading.map Prod.snd = some true →
    tcBufferFreeSpace m.ring ≤ ((m.reader.reading.map Prod.fst).getD []).length

instance (m : Machine α) (e : Event α) : Decidable (OverwritesFull m e) :=
  inferInstanceAs (Decidable (_ → _ → _))

/-- An access is one of the whole steps from `s`, which meets the condition on
overwrites if the access does, or no step at all. -/
def Simulated (m m' : Machine α) (e : Event α) (s : State α) : Prop :=
  Linked m' s ∨ ∃ d t, (OverwritesFull m e → ReadRing.OverwritesFull s d) ∧
    ReadRing.step s d = some t ∧ Linked m' t

/-- The decision is made when ReadThread loads Head. -/
theorem decide_linked {m : Machine α} {s : State α} (hl : Linked m s) {readBufs : List α}
    (hpc : m.reader = .measuring readBufs) :
    ∃ t, ReadRing.step s (.read readBufs) = some t ∧ Linked { m with
      reader := if needsOverwrite m.ring readBufs then .locking readBufs
        else .pushing readBufs } t := by
  obtain ⟨hring, hreading, harrived, hsized, hlock⟩ := hl.reader
  rw [hpc] at hring hreading harrived hsized hlock
  have hmem : m.ring = s.ring := hring
  have hstep : ReadRing.step s (.read readBufs) = some { s with
      reading := some (readBufs, needsOverwrite s.ring readBufs)
      arrived := s.arrived ++ readBufs } := by
    rw [ReadRing.step, if_pos ⟨hreading, hsized.1, hsized.2⟩]
  have harrived' : m.arrived = s.arrived ++ readBufs ++ [] := by
    rw [harrived, ReadPc.unread, List.append_nil]
  refine ⟨_, hstep, step_sound_free hl.sound hstep, ?_, hl.parser.congr rfl rfl Iff.rfl⟩
  rw [hmem]
  by_cases hneeds : needsOverwrite s.ring readBufs = true
  · rw [if_pos hneeds, hneeds]
    exact ⟨rfl, rfl, harrived', trivial, hlock⟩
  · rw [if_neg hneeds, Bool.eq_false_iff.mpr hneeds]
    exact ⟨rfl, rfl, harrived', trivial, hlock⟩

/-- The push has room when tc_push_buffer looks again: ParserThread only makes more. -/
theorem pushing_fits {m : Machine α} {s : State α} (hl : Linked m s) {readBufs : List α}
    (hpc : m.reader = .pushing readBufs) :
    u32 (tcBufferFreeSpace m.ring) ≥ readBufs.length := by
  obtain ⟨hring, hreading, -, -⟩ := hl.reader.at_pc hpc
  have hmem : m.ring = s.ring := hring
  have hfit := (hl.sound.reading readBufs false hreading).2 rfl
  rw [hmem, u32_freeSpace s.ring hl.sound.ring]
  omega

/-- Storing Tail is the push: from here on all its bytes are there. -/
theorem storeTail_linked {m m' : Machine α} {s : State α} (hl : Linked m s)
    (h : readStep m .storeTail = some m') : Simulated m m' (.reader .storeTail) s := by
  cases hpc : m.reader with
  | overwriting readBufs stored =>
    obtain ⟨hring, hreading, harrived, hlock⟩ := hl.reader.at_pc hpc
    obtain ⟨hle, -⟩ := hl.sound.reading readBufs true hreading
    by_cases hcopied : Copied readBufs stored
    · simp only [readStep, hpc, hcopied, if_true, Option.some.injEq] at h
      have hput := hring.put_eq hl.sound.ring (hl.sound.lt_size hle) hcopied
      obtain ⟨t, hstep, rfl, hsound, hparser⟩ :=
        push_fill_linked hl hreading (hlock.mpr rfl)
      refine Or.inr ⟨.push, _, ?_, hstep, hsound, ?_, ?_⟩
      · intro hfull hover
        have hfree := hfull rfl (by rw [hpc, ← hreading, hover])
        rw [hpc, freeSpace_congr hring.head hring.tail hring.size] at hfree
        rwa [pending_eq hreading]
      · rw [← h, hput]
        refine ⟨⟨rfl, (put s.ring readBufs).head, hl.sound.ring.head_lt, rfl⟩, rfl, harrived,
          trivial, hlock⟩
      · rw [← h]
        exact hparser.congr rfl rfl Iff.rfl
    · simp only [readStep, hpc, hcopied, if_false, reduceCtorEq] at h
  | storing readBufs stored =>
    obtain ⟨hring, hreading, harrived, hlock⟩ := hl.reader.at_pc hpc
    obtain ⟨hle, -⟩ := hl.sound.reading readBufs false hreading
    by_cases hcopied : Copied readBufs stored
    · simp only [readStep, hpc, hcopied, if_true, Option.some.injEq] at h
      have hput := hring.put_eq hl.sound.ring (hl.sound.lt_size hle) hcopied
      obtain ⟨t, hstep, rfl, hsound, hparser⟩ := push_put_linked hl hreading
      refine Or.inr ⟨.push, _, ?_, hstep, hsound, ?_, ?_⟩
      · intro _ hover
        rw [hreading] at hover
        cases hover
      · rw [← h, hput]
        exact ⟨rfl, rfl, harrived, trivial, hlock⟩
      · rw [← h]
        exact hparser.congr rfl rfl Iff.rfl
    · simp only [readStep, hpc, hcopied, if_false, reduceCtorEq] at h
  | _ => simp only [readStep, hpc, reduceCtorEq] at h

/-- Storing Head completes the overwrite. -/
theorem storeHead_linked {m m' : Machine α} {s : State α} (hl : Linked m s)
    (h : readStep m .storeHead = some m') : Linked m' s := by
  cases hpc : m.reader with
  | headStale =>
    simp only [readStep, hpc, Option.some.injEq] at h
    obtain ⟨hring, hreading, harrived, hlock⟩ := hl.reader.at_pc hpc
    obtain ⟨hfull, head, -, hmem⟩ := hring
    have hv := hl.sound.ring
    have htail := hv.tail_lt
    have hsize := hv.size_lt
    have hsucc : u32 (s.ring.tail + 1) = s.ring.tail + 1 := u32_succ _ (by omega)
    refine ⟨hl.sound, ?_, ?_⟩
    · rw [← h, hmem]
      refine ⟨?_, hreading, harrived, trivial, hlock⟩
      show { s.ring with head := u32 (s.ring.tail + 1) % s.ring.maxBufferSize } = s.ring
      rw [hsucc]
      exact hfull
    · rw [← h]
      exact hl.parser.congr rfl rfl Iff.rfl
  | _ => simp only [readStep, hpc, reduceCtorEq] at h

/-- A byte that is stored where nothing is readable. -/
theorem store_linked {m m' : Machine α} {s : State α} (hl : Linked m s) {i : ℕ}
    (h : readStep m (.store i) = some m') : Linked m' s := by
  cases hpc : m.reader with
  | overwriting readBufs stored =>
    obtain ⟨hring, hreading, harrived, hlock⟩ := hl.reader.at_pc hpc
    obtain ⟨hle, -⟩ := hl.sound.reading readBufs true hreading
    by_cases hi : i < readBufs.length
    · simp only [readStep, hpc, hi, if_true, Option.some.injEq] at h
      rw [← h]
      exact ⟨hl.sound, ⟨hring.store hl.sound.ring (hl.sound.lt_size hle) hi, hreading, harrived,
        trivial, hlock⟩, hl.parser.congr rfl rfl Iff.rfl⟩
    · simp only [readStep, hpc, hi, if_false, reduceCtorEq] at h
  | storing readBufs stored =>
    obtain ⟨hring, hreading, harrived, hlock⟩ := hl.reader.at_pc hpc
    obtain ⟨hle, -⟩ := hl.sound.reading readBufs false hreading
    by_cases hi : i < readBufs.length
    · simp only [readStep, hpc, hi, if_true, Option.some.injEq] at h
      rw [← h]
      exact ⟨hl.sound, ⟨hring.store hl.sound.ring (hl.sound.lt_size hle) hi, hreading, harrived,
        trivial, hlock⟩, hl.parser.congr rfl rfl Iff.rfl⟩
    · simp only [readStep, hpc, hi, if_false, reduceCtorEq] at h
  | _ => simp only [readStep, hpc, reduceCtorEq] at h

theorem readLock_linked {m m' : Machine α} {s : State α} (hl : Linked m s)
    (h : readStep m .lock = some m') : Linked m' s := by
  cases hpc : m.reader with
  | locking readBufs =>
    obtain ⟨hring, hreading, harrived, -⟩ := hl.reader.at_pc hpc
    have hmem : m.ring = s.ring := hring
    by_cases hfree : m.mutex = none
    · simp only [readStep, hpc, hfree, if_true, Option.some.injEq] at h
      rw [← h]
      refine ⟨hl.sound, ⟨?_, hreading, harrived, trivial, by simp [ReadPc.locks]⟩,
        hl.parser.congr rfl rfl (by simp [hfree])⟩
      rw [hmem]
      exact Overlaid.refl s.ring readBufs
    · simp only [readStep, hpc, hfree, if_false, reduceCtorEq] at h
  | _ => simp only [readStep, hpc, reduceCtorEq] at h

theorem readUnlock_linked {m m' : Machine α} {s : State α} (hl : Linked m s)
    (h : readStep m .unlock = some m') : Linked m' s := by
  cases hpc : m.reader with
  | unlocking =>
    simp only [readStep, hpc, Option.some.injEq] at h
    obtain ⟨hring, hreading, harrived, hlock⟩ := hl.reader.at_pc hpc
    have hheld : m.mutex = some .readThread := hlock.mpr rfl
    rw [← h]
    exact ⟨hl.sound, ⟨hring, hreading, harrived, trivial, by simp [ReadPc.locks]⟩,
      hl.parser.congr rfl rfl (by simp [hheld])⟩
  | _ => simp only [readStep, hpc, reduceCtorEq] at h

theorem read_linked {m m' : Machine α} {s : State α} (hl : Linked m s) {readBufs : List α}
    (h : readStep m (.read readBufs) = some m') : Linked m' s := by
  cases hpc : m.reader with
  | idle =>
    obtain ⟨hring, hreading, harrived, hlock⟩ := hl.reader.at_pc hpc
    by_cases hsize : 1 ≤ readBufs.length ∧ readBufs.length ≤ tmmReadSize
    · simp only [readStep, hpc, hsize, and_self, if_true, Option.some.injEq] at h
      rw [← h]
      refine ⟨hl.sound, ⟨hring, hreading, ?_, hsize, hlock⟩, hl.parser.congr rfl rfl Iff.rfl⟩
      have hsame : m.arrived = s.arrived := harrived.trans (List.append_nil _)
      show m.arrived ++ readBufs = s.arrived ++ readBufs
      rw [hsame]
    · simp only [readStep, hpc, hsize, if_false, reduceCtorEq] at h
  | _ => simp only [readStep, hpc, reduceCtorEq] at h

theorem readLoadHead_linked {m m' : Machine α} {s : State α} (hl : Linked m s)
    (h : readStep m .loadHead = some m') : Simulated m m' (.reader .loadHead) s := by
  cases hpc : m.reader with
  | measuring readBufs =>
    simp only [readStep, hpc, Option.some.injEq] at h
    obtain ⟨t, hstep, ht⟩ := decide_linked hl hpc
    exact Or.inr ⟨.read readBufs, t, fun _ => trivial, hstep, h ▸ ht⟩
  | pushing readBufs =>
    have hfits := pushing_fits hl hpc
    simp only [readStep, hpc, hfits, if_true, Option.some.injEq] at h
    obtain ⟨hring, hreading, harrived, hlock⟩ := hl.reader.at_pc hpc
    have hmem : m.ring = s.ring := hring
    rw [← h]
    refine Or.inl ⟨hl.sound, ⟨?_, hreading, harrived, trivial, hlock⟩,
      hl.parser.congr rfl rfl Iff.rfl⟩
    rw [hmem]
    exact Overlaid.refl s.ring readBufs
  | _ => simp only [readStep, hpc, reduceCtorEq] at h

theorem readStep_linked {m m' : Machine α} {s : State α} (hl : Linked m s) (access : ReadAccess α)
    (h : readStep m access = some m') : Simulated m m' (.reader access) s := by
  cases access with
  | read readBufs => exact Or.inl (read_linked hl h)
  | loadHead => exact readLoadHead_linked hl h
  | lock => exact Or.inl (readLock_linked hl h)
  | store i => exact Or.inl (store_linked hl h)
  | storeTail => exact storeTail_linked hl h
  | storeHead => exact Or.inl (storeHead_linked hl h)
  | unlock => exact Or.inl (readUnlock_linked hl h)

/-! The accesses of ParserThread -/

theorem ReadLinked.congr {m m' : Machine α} {s s' : State α} (h : ReadLinked m s)
    (hm : (m'.ring, m'.reader, m'.arrived) = (m.ring, m.reader, m.arrived))
    (hs : (s'.ring, s'.reading, s'.arrived) = (s.ring, s.reading, s.arrived))
    (hmutex : m'.mutex = some .readThread ↔ m.mutex = some .readThread) : ReadLinked m' s' := by
  obtain ⟨hring, hrest⟩ := Prod.mk.inj hm
  obtain ⟨hreader, harrived⟩ := Prod.mk.inj hrest
  obtain ⟨hsring, hsrest⟩ := Prod.mk.inj hs
  obtain ⟨hreading, hsarrived⟩ := Prod.mk.inj hsrest
  constructor
  · rw [hring, hsring, hreader]
    exact h.ring
  · rw [hreading, hreader, h.reading]
  · rw [harrived, hsarrived, hreader, h.arrived]
  · rw [hreader]
    exact h.sized
  · rw [hmutex, hreader]
    exact h.lock

/-- Only one thread is between its lock and its unlock. -/
theorem Linked.one_locks {m : Machine α} {s : State α} (hl : Linked m s)
    (h : m.parser.locks = true) : m.reader.locks = false := by
  have hheld := hl.parser.lock.mpr h
  rw [← Bool.not_eq_true]
  intro hreader
  have hother := hl.reader.lock.mpr hreader
  rw [hheld] at hother
  cases hother

/-- While ParserThread holds the mutex it finds both positions as they are. -/
theorem Linked.dataAvailable {m : Machine α} {s : State α} (hl : Linked m s)
    (h : m.parser.locks = true) :
    m.ring.head = s.ring.head ∧ m.ring.tail = s.ring.tail ∧
      m.ring.maxBufferSize = s.ring.maxBufferSize ∧
      tcBufferDataAvailable m.ring = count s.ring := by
  have hhead := hl.reader.ring.head_eq (hl.one_locks h)
  obtain ⟨htail, hsize⟩ := hl.reader.ring.tail_eq
  refine ⟨hhead, htail, hsize, ?_⟩
  rw [dataAvailable_congr hhead htail hsize, dataAvailable_eq s.ring hl.sound.ring]

/-- The cells that hold readable bytes are not those of a push that fits. -/
theorem Overlaid.readable {a c : TcRingbuf α} (hv : Valid a) {readBufs : List α}
    {stored : Finset ℕ} (h : Overlaid a c readBufs stored)
    (hfit : count a + readBufs.length < a.maxBufferSize) {i : ℕ} (hi : i < count a) :
    c.pBuffer[(a.head + i) % a.maxBufferSize]? = a.pBuffer[(a.head + i) % a.maxBufferSize]? := by
  apply h.others
  intro j hj heq
  have hjlt := (h.copied j hj).1
  rw [← head_add_count a hv, Nat.mod_add_mod, Nat.add_assoc] at heq
  have hsame := add_mod_inj (by omega) (by omega) heq
  omega

/-- Half a push that fits shows no byte before Tail is stored. -/
theorem Overlaid.contents_eq {a c : TcRingbuf α} (hv : Valid a) {readBufs : List α}
    {stored : Finset ℕ} (h : Overlaid a c readBufs stored)
    (hfit : count a + readBufs.length < a.maxBufferSize) : contents c = contents a := by
  have hhead := hv.head_lt
  have hlen := a.pBuffer_length
  have hlen' : c.pBuffer.length = a.maxBufferSize := c.pBuffer_length.trans h.size
  have hcount : count c = count a := by rw [count, count, h.head, h.tail, h.size]
  apply List.ext_getElem?
  intro i
  by_cases hi : i < count a
  · rw [contents, contents, getElem?_readRound _ _ (by omega) (by omega),
      getElem?_readRound _ _ (by omega) hi, hlen', hlen, h.head]
    exact h.readable hv hfit hi
  · rw [List.getElem?_eq_none, List.getElem?_eq_none]
    · rw [length_contents a hv]
      omega
    · rw [contents, length_readRound _ _ _ (by omega), hcount]
      omega

/-- A byte that ParserThread loads is the byte the ring holds there. -/
theorem Linked.loads {m : Machine α} {s : State α} (hl : Linked m s)
    (h : m.parser.locks = true) {i : ℕ} (hi : i < count s.ring) :
    m.ring.pBuffer[cellAt m.ring.maxBufferSize m.ring.head i]? = (contents s.ring)[i]? := by
  have hv := hl.sound.ring
  have hlt := count_lt s.ring hv
  have hlen := s.ring.pBuffer_length
  have hhead := hv.head_lt
  obtain ⟨hmhead, -, hmsize, -⟩ := hl.dataAvailable h
  have hnot := hl.one_locks h
  rw [hmhead, hmsize, cellAt_eq hv.size_lt hhead (by omega), contents,
    getElem?_readRound _ _ (by omega) hi, hlen]
  cases hpc : m.reader with
  | storing readBufs stored =>
    obtain ⟨hring, hreading, -, -⟩ := hl.reader.at_pc hpc
    exact hring.readable hv ((hl.sound.reading readBufs false hreading).2 rfl) hi
  | overwriting =>
    rw [hpc] at hnot
    cases hnot
  | headStale =>
    rw [hpc] at hnot
    cases hnot
  | _ =>
    obtain ⟨hring, -, -, -⟩ := hl.reader.at_pc hpc
    rw [show m.ring = s.ring from hring]

theorem parseLoadHead_linked {m m' : Machine α} {s : State α} (hl : Linked m s)
    (h : parseStep m .loadHead = some m') : Linked m' s := by
  cases hpc : m.parser with
  | idle =>
    simp only [parseStep, hpc, Option.some.injEq] at h
    obtain ⟨hpopping, hpopped, -, hlock⟩ := hl.parser.at_pc hpc
    rw [← h]
    exact ⟨hl.sound, hl.reader.congr rfl rfl Iff.rfl,
      ⟨hpopping, hpopped, hl.reader.ring.seen hl.sound.ring, hlock⟩⟩
  | _ => simp only [parseStep, hpc, reduceCtorEq] at h

theorem readSize_le (available : ℕ) (hlt : available < 4294967296) (parserSize : ℕ) :
    ReceivePath.readSize available parserSize ≤ available := by
  have hu : u32 available = available := u32_of_lt available hlt
  rw [ReceivePath.readSize, hu]
  split <;> omega

/-- The look happens when ParserThread loads Tail. -/
theorem loadTail_linked {m m' : Machine α} {s : State α} (hl : Linked m s) {parserSize : ℕ}
    (h : parseStep m (.loadTail parserSize) = some m') :
    Simulated m m' (.parser (.loadTail parserSize)) s := by
  cases hpc : m.parser with
  | headLoaded iRead =>
    obtain ⟨hpopping, hpopped, ⟨hlt, hle⟩, hlock⟩ := hl.parser.at_pc hpc
    obtain ⟨htail, hsize⟩ := hl.reader.ring.tail_eq
    have hv := headAt_valid hl.sound.ring hlt
    have hcount := count_lt _ hv
    have hmax := hv.size_lt
    have havail : tcBufferDataAvailable (headAt m.ring iRead) = count (headAt s.ring iRead) := by
      rw [← dataAvailable_eq _ hv]
      exact dataAvailable_congr rfl htail hsize
    simp only [parseStep, hpc, havail, Option.some.injEq] at h
    by_cases hpos : (count (headAt s.ring iRead) : ℤ) > 0
    · rw [if_pos hpos] at h
      have hread := readSize_le (count (headAt s.ring iRead)) (by omega) parserSize
      have hstep : ReadRing.step s (.look
          (ReceivePath.readSize (count (headAt s.ring iRead)) parserSize)) = some { s with
            popping := some (ReceivePath.readSize (count (headAt s.ring iRead)) parserSize) } := by
        rw [ReadRing.step, dataAvailable_eq s.ring hl.sound.ring,
          if_pos ⟨hpopping, by omega, by omega⟩]
      refine Or.inr ⟨.look _, _, fun _ => trivial, hstep, step_sound_free hl.sound hstep, ?_, ?_⟩
      · rw [← h]
        exact hl.reader.congr rfl rfl Iff.rfl
      · rw [← h]
        exact ⟨rfl, hpopped, trivial, hlock⟩
    · rw [if_neg hpos] at h
      rw [← h]
      exact Or.inl ⟨hl.sound, hl.reader.congr rfl rfl Iff.rfl, ⟨hpopping, hpopped, trivial, hlock⟩⟩
  | _ => simp only [parseStep, hpc, reduceCtorEq] at h

theorem parseLock_linked {m m' : Machine α} {s : State α} (hl : Linked m s)
    (h : parseStep m .lock = some m') : Linked m' s := by
  cases hpc : m.parser with
  | locking readSize =>
    obtain ⟨hpopping, hpopped, -, -⟩ := hl.parser.at_pc hpc
    by_cases hfree : m.mutex = none
    · simp only [parseStep, hpc, hfree, if_true, Option.some.injEq] at h
      rw [← h]
      exact ⟨hl.sound, hl.reader.congr rfl rfl (by simp [hfree]),
        ⟨hpopping, hpopped, trivial, by simp [ParsePc.locks]⟩⟩
    · simp only [parseStep, hpc, hfree, if_false, reduceCtorEq] at h
  | _ => simp only [parseStep, hpc, reduceCtorEq] at h

/-- A pop never finds the ring empty. -/
theorem Linked.not_empty {m : Machine α} {s : State α} (hl : Linked m s) {readSize : ℕ}
    (hpc : m.parser = .locked readSize) : m.ring.tail ≠ m.ring.head := by
  obtain ⟨hpopping, -, -, -⟩ := hl.parser.at_pc hpc
  obtain ⟨hhead, htail, -, -⟩ := hl.dataAvailable (by rw [hpc, ParsePc.locks])
  obtain ⟨hpos, -⟩ := hl.sound.popping readSize hpopping
  rw [hhead, htail, Ne, tail_eq_head_iff s.ring hl.sound.ring]
  omega

/-- A pop never finds less than was seen. -/
theorem Linked.enough {m : Machine α} {s : State α} (hl : Linked m s) {readSize : ℕ}
    (hpc : m.parser = .measuring readSize) : tcBufferDataAvailable m.ring ≥ i32 readSize := by
  obtain ⟨hpopping, -, -, -⟩ := hl.parser.at_pc hpc
  obtain ⟨-, -, -, havail⟩ := hl.dataAvailable (by rw [hpc, ParsePc.locks])
  obtain ⟨-, hle⟩ := hl.sound.popping readSize hpopping
  have hlt := count_lt s.ring hl.sound.ring
  have hsize := hl.sound.ring.size_lt
  rw [havail, i32_of_lt readSize (by omega)]
  omega

theorem testEmpty_linked {m m' : Machine α} {s : State α} (hl : Linked m s)
    (h : parseStep m .testEmpty = some m') : Linked m' s := by
  cases hpc : m.parser with
  | locked readSize =>
    obtain ⟨hpopping, hpopped, -, hlock⟩ := hl.parser.at_pc hpc
    have hne := hl.not_empty hpc
    simp only [parseStep, hpc, hne, if_false, Option.some.injEq] at h
    rw [← h]
    exact ⟨hl.sound, hl.reader.congr rfl rfl Iff.rfl, ⟨hpopping, hpopped, trivial, hlock⟩⟩
  | _ => simp only [parseStep, hpc, reduceCtorEq] at h

theorem testSize_linked {m m' : Machine α} {s : State α} (hl : Linked m s)
    (h : parseStep m .testSize = some m') : Linked m' s := by
  cases hpc : m.parser with
  | measuring readSize =>
    obtain ⟨hpopping, hpopped, -, hlock⟩ := hl.parser.at_pc hpc
    have hge := hl.enough hpc
    simp only [parseStep, hpc, hge, if_true, Option.some.injEq] at h
    rw [← h]
    refine ⟨hl.sound, hl.reader.congr rfl rfl Iff.rfl, ⟨hpopping, hpopped, ?_, hlock⟩⟩
    intro i x hi
    cases hi
  | _ => simp only [parseStep, hpc, reduceCtorEq] at h

theorem load_linked {m m' : Machine α} {s : State α} (hl : Linked m s) {i : ℕ}
    (h : parseStep m (.load i) = some m') : Linked m' s := by
  cases hpc : m.parser with
  | loading readSize buffer =>
    obtain ⟨hpopping, hpopped, hsees, hlock⟩ := hl.parser.at_pc hpc
    obtain ⟨-, hle⟩ := hl.sound.popping readSize hpopping
    by_cases hi : i < readSize
    · have hload := hl.loads (by rw [hpc, ParsePc.locks]) (show i < count s.ring by omega)
      simp only [parseStep, hpc, hi, if_true, Option.some.injEq] at h
      rw [← h]
      refine ⟨hl.sound, hl.reader.congr rfl rfl Iff.rfl, ⟨hpopping, hpopped, ?_, hlock⟩⟩
      intro j x hj
      by_cases heq : j = i
      · rw [heq, Function.update_self, hload] at hj
        rw [heq]
        exact ⟨hi, hj⟩
      · rw [Function.update_of_ne heq] at hj
        exact hsees j x hj
    · simp only [parseStep, hpc, hi, if_false, reduceCtorEq] at h
  | _ => simp only [parseStep, hpc, reduceCtorEq] at h

theorem parseUnlock_linked {m m' : Machine α} {s : State α} (hl : Linked m s)
    (h : parseStep m .unlock = some m') : Linked m' s := by
  cases hpc : m.parser with
  | unlocking =>
    obtain ⟨hpopping, hpopped, -, hlock⟩ := hl.parser.at_pc hpc
    have hheld : m.mutex = some .parserThread := hlock.mpr rfl
    simp only [parseStep, hpc, Option.some.injEq] at h
    rw [← h]
    exact ⟨hl.sound, hl.reader.congr rfl rfl (by simp [hheld]),
      ⟨hpopping, hpopped, trivial, by simp [ParsePc.locks]⟩⟩
  | _ => simp only [parseStep, hpc, reduceCtorEq] at h

/-- The bytes copied one by one are the oldest of the ring. -/
theorem filterMap_eq_take {items : List α} {n : ℕ} (hn : n ≤ items.length)
    (buffer : ℕ → Option α) (h : ∀ i < n, buffer i = items[i]?) :
    (List.range n).filterMap buffer = items.take n := by
  induction n with
  | zero => rfl
  | succ n ih =>
    have hlast : buffer n = some items[n] := by
      rw [h n (Nat.lt_succ_self n), List.getElem?_eq_getElem hn]
    rw [List.range_succ, List.filterMap_append, ih (by omega) fun i hi => h i (by omega),
      List.filterMap_cons_some hlast, List.filterMap_nil, List.take_concat_get']

/-- Storing Head is the pop. -/
theorem parseStoreHead_linked {m m' : Machine α} {s : State α} (hl : Linked m s)
    (h : parseStep m .storeHead = some m') : Simulated m m' (.parser .storeHead) s := by
  cases hpc : m.parser with
  | loading readSize buffer =>
    obtain ⟨hpopping, hpopped, hsees, hlock⟩ := hl.parser.at_pc hpc
    have hv := hl.sound.ring
    have hlt := count_lt s.ring hv
    obtain ⟨hpos, hle⟩ := hl.sound.popping readSize hpopping
    have hlocks : m.parser.locks = true := by rw [hpc, ParsePc.locks]
    obtain ⟨hhead, -, hsize, -⟩ := hl.dataAvailable hlocks
    by_cases hall : ∀ i < readSize, (buffer i).isSome
    · have hout : (List.range readSize).filterMap buffer = (contents s.ring).take readSize := by
        apply filterMap_eq_take (by rwa [length_contents s.ring hv])
        intro i hi
        obtain ⟨x, hx⟩ := Option.isSome_iff_exists.mp (hall i hi)
        rw [hx, (hsees i x hx).2]
      have hcell : cellAt m.ring.maxBufferSize m.ring.head readSize =
          (advance s.ring readSize).head := by
        rw [hhead, hsize, cellAt_eq hv.size_lt hv.head_lt (by omega)]
        rfl
      obtain ⟨hring, -, hpop, -⟩ := tcPopBuffer_ok s.ring hv readSize hpos hle
      have hstep : ReadRing.step s .pop = some { s with
          ring := advance s.ring readSize
          popping := none
          popped := s.popped ++ (contents s.ring).take readSize } := by
        simp only [ReadRing.step, hpopping, ParsePc.popping, Option.map_some, hring, hpop]
      simp only [parseStep, hpc] at h
      rw [if_pos hall, Option.some.injEq, hcell, hout, hpopped] at h
      refine Or.inr ⟨.pop, _, fun _ => trivial, hstep, step_sound_free hl.sound hstep, ?_, ?_⟩
      · rw [← h]
        exact ⟨hl.reader.ring.advance (hl.one_locks hlocks) readSize, hl.reader.reading,
          hl.reader.arrived, hl.reader.sized, hl.reader.lock⟩
      · rw [← h]
        exact ⟨rfl, rfl, trivial, hlock⟩
    · simp only [parseStep, hpc] at h
      rw [if_neg hall] at h
      cases h
  | _ => simp only [parseStep, hpc, reduceCtorEq] at h

theorem parseStep_linked {m m' : Machine α} {s : State α} (hl : Linked m s) (access : ParseAccess)
    (h : parseStep m access = some m') : Simulated m m' (.parser access) s := by
  cases access with
  | loadHead => exact Or.inl (parseLoadHead_linked hl h)
  | loadTail parserSize => exact loadTail_linked hl h
  | lock => exact Or.inl (parseLock_linked hl h)
  | testEmpty => exact Or.inl (testEmpty_linked hl h)
  | testSize => exact Or.inl (testSize_linked hl h)
  | load i => exact Or.inl (load_linked hl h)
  | storeHead => exact parseStoreHead_linked hl h
  | unlock => exact Or.inl (parseUnlock_linked hl h)

theorem step_linked {m m' : Machine α} {s : State α} (hl : Linked m s) (e : Event α)
    (h : step m e = some m') : Simulated m m' e s := by
  cases e with
  | reader access => exact readStep_linked hl access h
  | parser access => exact parseStep_linked hl access h

/-! Passes that nothing disturbs -/

/-- An access that stores no Tail can be made in any run. -/
theorem reach_access {m u v : Machine α} {e : Event α} (h : Reach step OverwritesFull m u)
    (htail : e.storesTail = false) (hstep : step u e = some v) : Reach step OverwritesFull m v := by
  refine h.tail (fun hstores => ?_) hstep
  rw [htail] at hstores
  cases hstores

section Passes

variable {m : Machine α} (hv : Valid m.ring) {readBufs : List α}

include hv

/-- The bytes of a push copied from the first to the last. -/
theorem reach_stores (hlt : readBufs.length < m.ring.maxBufferSize)
    {pc : Finset ℕ → ReadPc α} (hpc : pc = .storing readBufs ∨ pc = .overwriting readBufs)
    (hm : m.reader = pc ∅) {n : ℕ} (hn : n ≤ readBufs.length) :
    ∃ c, Reach step OverwritesFull m { m with ring := c, reader := pc (Finset.range n) } ∧
      Overlaid m.ring c readBufs (Finset.range n) := by
  induction n with
  | zero =>
    refine ⟨m.ring, ?_, .refl m.ring readBufs⟩
    rw [Finset.range_zero, ← hm]
    exact .refl
  | succ n ih =>
    obtain ⟨c, hreach, hover⟩ := ih (by omega)
    have hi : n < readBufs.length := hn
    refine ⟨storeByte c readBufs n, reach_access hreach (e := .reader (.store n)) rfl ?_, ?_⟩
    · rw [Finset.range_add_one]
      rcases hpc with rfl | rfl <;> simp only [step, readStep, hi, if_true]
    · rw [Finset.range_add_one]
      exact hover.store hv hlt hi

/-- The accesses of a push for which there is room. -/
theorem push_pass (hidle : m.reader = .idle) (hpos : 1 ≤ readBufs.length)
    (hle : readBufs.length ≤ tmmReadSize)
    (hfit : count m.ring + readBufs.length < m.ring.maxBufferSize) :
    Reach step OverwritesFull m { m with
      ring := put m.ring readBufs, arrived := m.arrived ++ readBufs } := by
  obtain ⟨hneeds, -⟩ := pushRead_fits m.ring hv readBufs hfit
  have hlt : readBufs.length < m.ring.maxBufferSize := by omega
  have hroom : u32 (tcBufferFreeSpace m.ring) ≥ readBufs.length := by
    rw [u32_freeSpace m.ring hv]
    omega
  have hread := reach_access (e := .reader (.read readBufs)) .refl rfl
    (show step m _ = some { m with
      reader := .measuring readBufs, arrived := m.arrived ++ readBufs } by
        simp only [step, readStep, hidle, hpos, hle, and_self, if_true])
  have hdecided := reach_access (e := .reader .loadHead) hread rfl
    (show step _ _ = some { m with
      reader := .pushing readBufs, arrived := m.arrived ++ readBufs } by
        simp only [step, readStep, hneeds, Bool.false_eq_true, if_false])
  have htested := reach_access (e := .reader .loadHead) hdecided rfl
    (show step _ _ = some { m with
      reader := .storing readBufs ∅, arrived := m.arrived ++ readBufs } by
        simp only [step, readStep, hroom, if_true])
  obtain ⟨c, hcopied, hover⟩ := reach_stores (m := { m with
    reader := .storing readBufs ∅, arrived := m.arrived ++ readBufs }) hv hlt (Or.inl rfl) rfl
    (Nat.le_refl readBufs.length)
  have hput := hover.put_eq hv hlt (Finset.Subset.refl _)
  refine (htested.trans hcopied).tail (e := .reader .storeTail) ?_ ?_
  · intro _ hoverwrite
    cases hoverwrite
  · have hall : Copied readBufs (Finset.range readBufs.length) := Finset.Subset.refl _
    simp only [step, readStep, hall, if_true, hput, hidle]

/-- The accesses of an overwrite, up to its store of Tail and after it. -/
theorem overwrite_pass (hidle : m.reader = .idle) (hmutex : m.mutex = none)
    (hpos : 1 ≤ readBufs.length) (hle : readBufs.length ≤ tmmReadSize)
    (hlt : readBufs.length < m.ring.maxBufferSize)
    (hfull : m.ring.maxBufferSize ≤ count m.ring + readBufs.length) :
    ∃ u v, Reach step OverwritesFull m u ∧ u.reader.reading = some (readBufs, true) ∧
      step u (.reader .storeTail) = some v ∧ Reach step OverwritesFull m v ∧
      Reach step OverwritesFull v { m with
        ring := fill (put m.ring readBufs), arrived := m.arrived ++ readBufs } := by
  obtain ⟨hneeds, hroom, -⟩ := pushRead_full m.ring hv readBufs hlt hfull
  have hread := reach_access (e := .reader (.read readBufs)) .refl rfl
    (show step m _ = some { m with
      reader := .measuring readBufs, arrived := m.arrived ++ readBufs } by
        simp only [step, readStep, hidle, hpos, hle, and_self, if_true])
  have hdecided := reach_access (e := .reader .loadHead) hread rfl
    (show step _ _ = some { m with
      reader := .locking readBufs, arrived := m.arrived ++ readBufs } by
        simp only [step, readStep, hneeds, if_true])
  have hlocked := reach_access (e := .reader .lock) hdecided rfl
    (show step _ _ = some { m with
      mutex := some .readThread, reader := .overwriting readBufs ∅
      arrived := m.arrived ++ readBufs } by
        simp only [step, readStep, hmutex, if_true])
  obtain ⟨c, hcopied, hover⟩ := reach_stores (m := { m with
    mutex := some .readThread, reader := .overwriting readBufs ∅
    arrived := m.arrived ++ readBufs }) hv hlt (Or.inr rfl) rfl (Nat.le_refl readBufs.length)
  have hput := hover.put_eq hv hlt (Finset.Subset.refl _)
  have hall : Copied readBufs (Finset.range readBufs.length) := Finset.Subset.refl _
  have hu := hlocked.trans hcopied
  have htail : step { m with
      ring := c, mutex := some .readThread
      reader := .overwriting readBufs (Finset.range readBufs.length)
      arrived := m.arrived ++ readBufs } (.reader .storeTail) = some { m with
        ring := put m.ring readBufs, mutex := some .readThread, reader := .headStale
        arrived := m.arrived ++ readBufs } := by
    simp only [step, readStep, hall, if_true, hput]
  have hhead : u32 ((put m.ring readBufs).tail + 1) = (put m.ring readBufs).tail + 1 := by
    have htail_lt := (put_valid m.ring hv readBufs).tail_lt
    have hsize := hv.size_lt
    rw [put_maxBufferSize] at htail_lt
    exact u32_succ _ (by omega)
  have hfilled := reach_access (e := .reader .storeHead) .refl rfl
    (show step { m with
      ring := put m.ring readBufs, mutex := some .readThread, reader := .headStale
      arrived := m.arrived ++ readBufs } _ = some { m with
        ring := fill (put m.ring readBufs), mutex := some .readThread, reader := .unlocking
        arrived := m.arrived ++ readBufs } by
          simp only [step, readStep, hhead, fill])
  refine ⟨_, _, hu, rfl, htail, hu.tail (e := .reader .storeTail) (fun _ _ => ?_) htail,
    reach_access (e := .reader .unlock) hfilled rfl ?_⟩
  · change tcBufferFreeSpace c ≤ readBufs.length
    rw [freeSpace_congr hover.head hover.tail hover.size]
    exact hroom
  · simp only [step, readStep, hidle, hmutex]

omit readBufs in
/-- The accesses of a pop of one byte. -/
theorem pop_pass (hidle : m.parser = .idle) (hmutex : m.mutex = none) (hcount : 0 < count m.ring) :
    ∃ x, Reach step OverwritesFull m { m with
      ring := advance m.ring 1, popped := m.popped ++ [x] } := by
  have hlt := count_lt m.ring hv
  have hsize := hv.size_lt
  have havail : tcBufferDataAvailable m.ring = count m.ring := dataAvailable_eq m.ring hv
  have hone : (if tcBufferDataAvailable m.ring > 0 then ParsePc.locking
      (ReceivePath.readSize (tcBufferDataAvailable m.ring) 1) else ParsePc.idle) =
        (.locking 1 : ParsePc α) := by
    have hu : u32 (count m.ring : ℤ) = count m.ring := u32_of_lt _ (by omega)
    rw [havail, if_pos (by omega), ReceivePath.readSize, hu]
    split
    · rfl
    · rw [show count m.ring = 1 by omega]
  have hnonempty : ¬ m.ring.tail = m.ring.head := by
    rw [tail_eq_head_iff m.ring hv]
    omega
  have henough : tcBufferDataAvailable m.ring ≥ i32 (1 : ℕ) := by
    rw [havail, i32_of_lt 1 (by omega)]
    omega
  have hcell : cellAt m.ring.maxBufferSize m.ring.head 0 < m.ring.pBuffer.length := by
    rw [cellAt_eq hsize hv.head_lt (Nat.zero_le _), m.ring.pBuffer_length]
    exact Nat.mod_lt _ (by omega)
  have hadvance : { m.ring with head := cellAt m.ring.maxBufferSize m.ring.head 1 } =
      advance m.ring 1 := by
    rw [cellAt_eq hsize hv.head_lt (by omega), advance]
  have hlooked := reach_access (e := .parser .loadHead) .refl rfl
    (show step m _ = some { m with parser := .headLoaded m.ring.head } by
      simp only [step, parseStep, hidle])
  have hsized := reach_access (e := .parser (.loadTail 1)) hlooked rfl
    (show step _ _ = some { m with parser := .locking 1 } by
      simp only [step, parseStep]
      exact congrArg (fun pc => some { m with parser := pc }) hone)
  have hlocked := reach_access (e := .parser .lock) hsized rfl
    (show step _ _ = some { m with mutex := some .parserThread, parser := .locked 1 } by
      simp only [step, parseStep, hmutex, if_true])
  have htested := reach_access (e := .parser .testEmpty) hlocked rfl
    (show step _ _ = some { m with mutex := some .parserThread, parser := .measuring 1 } by
      simp only [step, parseStep, hnonempty, if_false])
  have hfound := reach_access (e := .parser .testSize) htested rfl
    (show step _ _ = some { m with
      mutex := some .parserThread, parser := .loading 1 fun _ => none } by
        simp only [step, parseStep, henough, if_true])
  have hloaded := reach_access (e := .parser (.load 0)) hfound rfl
    (show step _ _ = some { m with
      mutex := some .parserThread
      parser := .loading 1 (Function.update (fun _ => none) 0
        (some m.ring.pBuffer[cellAt m.ring.maxBufferSize m.ring.head 0])) } by
          simp only [step, parseStep, Nat.zero_lt_one, if_true, List.getElem?_eq_getElem hcell])
  have hpopped := reach_access (e := .parser .storeHead) hloaded rfl
    (show step _ _ = some { m with
      ring := advance m.ring 1, mutex := some .parserThread, parser := .unlocking
      popped := m.popped ++ [m.ring.pBuffer[cellAt m.ring.maxBufferSize m.ring.head 0]] } by
        simp [step, parseStep, hadvance])
  refine ⟨m.ring.pBuffer[cellAt m.ring.maxBufferSize m.ring.head 0],
    reach_access (e := .parser .unlock) hpopped rfl ?_⟩
  simp only [step, parseStep, hidle, hmutex]

end Passes

/-- Both threads between their passes, with `n` bytes in the ring and none popped. -/
structure IdleHolding (m : Machine UInt8) (n : ℕ) : Prop where
  valid : Valid m.ring
  size : m.ring.maxBufferSize = 16384
  mutex : m.mutex = none
  reader : m.reader = .idle
  parser : m.parser = .idle
  popped : m.popped = []
  count : count m.ring = n

theorem idleHolding_of_passes (cells : List UInt8) (hcells : cells.length = readRingBufferSize)
    (k : ℕ) (hk : k ≤ 31) :
    ∃ m, Reach step OverwritesFull (start cells hcells) m ∧ IdleHolding m (520 * k) := by
  induction k with
  | zero =>
    have hsound := start_sound cells hcells
    exact ⟨start cells hcells, .refl, hsound.ring, rfl, rfl, rfl, rfl, rfl, rfl⟩
  | succ k ih =>
    obtain ⟨m, hreach, hm⟩ := ih (by omega)
    have hlen := length_fullRead
    have hsize := hm.size
    have hcount := hm.count
    have hpos : 1 ≤ fullRead.length := by omega
    have hfit : RingContents.count m.ring + fullRead.length < m.ring.maxBufferSize := by omega
    have hpass := push_pass hm.valid hm.reader hpos (Nat.le_of_eq hlen) hfit
    refine ⟨_, hreach.trans hpass, put_valid m.ring hm.valid fullRead, ?_, hm.mutex, hm.reader,
      hm.parser, hm.popped, ?_⟩
    · rw [put_maxBufferSize, hsize]
    · rw [count_put m.ring hm.valid fullRead hfit, hcount, hlen]
      omega

/-! Runs -/

theorem linked_of_reach (cells : List α) (hcells : cells.length = readRingBufferSize)
    {m : Machine α} (h : Reach step Free (start cells hcells) m) :
    ∃ s, Reach ReadRing.step Free (ReadRing.start cells hcells) s ∧ Linked m s := by
  apply h.simulates Linked (start_linked cells hcells)
  intro u e v s hl _ hstep
  rcases step_linked hl e hstep with hsame | ⟨d, t, -, ht, hlt⟩
  · exact Or.inl hsame
  · exact Or.inr ⟨d, t, trivial, ht, hlt⟩

theorem linked_of_reach_full (cells : List α) (hcells : cells.length = readRingBufferSize)
    {m : Machine α} (h : Reach step OverwritesFull (start cells hcells) m) :
    ∃ s, Reach ReadRing.step ReadRing.OverwritesFull (ReadRing.start cells hcells) s ∧
      Linked m s := by
  apply h.simulates Linked (start_linked cells hcells)
  intro u e v s hl hfull hstep
  rcases step_linked hl e hstep with hsame | ⟨d, t, hmeets, ht, hlt⟩
  · exact Or.inl hsame
  · exact Or.inr ⟨d, t, hmeets hfull, ht, hlt⟩

/-- Whatever the order of the accesses, what has been popped is what whole steps of the
threads give, and what has been read is that and the bytes still being measured. The
ring is that of the whole steps, apart from the cells of a copy in progress and from
Head between the two stores of an overwrite. -/
theorem accesses_refine_steps (cells : List α) (hcells : cells.length = readRingBufferSize)
    {m : Machine α} (h : Reach step Free (start cells hcells) m) :
    ∃ s, Reach ReadRing.step Free (ReadRing.start cells hcells) s ∧
      m.popped = s.popped ∧ m.arrived = s.arrived ++ m.reader.unread ∧
      s.reading = m.reader.reading ∧ s.popping = m.parser.popping ∧
      Shows s.ring m.ring m.reader := by
  obtain ⟨s, hs, hl⟩ := linked_of_reach cells hcells h
  exact ⟨s, hs, hl.parser.popped, hl.reader.arrived, hl.reader.reading, hl.parser.popping,
    hl.reader.ring⟩

theorem accesses_refine_steps_two :
    ∃ m, runFrom step (start (List.replicate readRingBufferSize (0 : UInt8)) List.length_replicate)
        [.reader (.read [7]), .reader .loadHead, .reader .loadHead, .reader (.store 0),
          .parser .loadHead, .reader .storeTail, .parser (.loadTail 1024)] = some m ∧
      ∃ s, Reach ReadRing.step Free
          (ReadRing.start (List.replicate readRingBufferSize (0 : UInt8)) List.length_replicate) s ∧
        m.popped = s.popped ∧ m.arrived = s.arrived ++ m.reader.unread ∧
        s.reading = m.reader.reading ∧ s.popping = m.parser.popping ∧
        Shows s.ring m.ring m.reader :=
  have hrun : (runFrom step
      (start (List.replicate readRingBufferSize (0 : UInt8)) List.length_replicate)
      [.reader (.read [7]), .reader .loadHead, .reader .loadHead, .reader (.store 0),
        .parser .loadHead, .reader .storeTail, .parser (.loadTail 1024)]).isSome = true := by
    decide +kernel
  have ⟨m, hm⟩ := Option.isSome_iff_exists.mp hrun
  ⟨m, hm, accesses_refine_steps _ _ (reach_of_runFrom _ hm)⟩

/-- As long as every overwrite has no room to spare when it stores Tail, no byte is
popped twice or out of order, whatever the order of the accesses. -/
theorem accesses_pop_in_order (cells : List α) (hcells : cells.length = readRingBufferSize)
    {m : Machine α} (h : Reach step OverwritesFull (start cells hcells) m) :
    m.popped.Sublist m.arrived := by
  obtain ⟨s, hs, hl⟩ := linked_of_reach_full cells hcells h
  rw [hl.parser.popped, hl.reader.arrived]
  exact ((popped_sublist_kept s).trans (reach_kept hs).2).trans (List.sublist_append_left _ _)

/-- A ring that is filled, overwritten and read. -/
theorem accesses_pop_in_order_overwrite :
    ∃ u v m, Reach step OverwritesFull (start (List.replicate readRingBufferSize 0x00)
        List.length_replicate) u ∧
      u.reader.reading = some (fullRead, true) ∧ step u (.reader .storeTail) = some v ∧
      Reach step OverwritesFull v m ∧ m.popped.length = 1 ∧ m.popped.Sublist m.arrived := by
  obtain ⟨r, hreach, hr⟩ := idleHolding_of_passes (List.replicate readRingBufferSize 0x00)
    List.length_replicate 31 (Nat.le_refl 31)
  have hlen := length_fullRead
  have hsize := hr.size
  have hcount := hr.count
  have hpos : 1 ≤ fullRead.length := by omega
  have hlt : fullRead.length < r.ring.maxBufferSize := by omega
  have hfull : r.ring.maxBufferSize ≤ count r.ring + fullRead.length := by omega
  have hput := put_valid r.ring hr.valid fullRead
  have hfilled : 0 < count (fill (put r.ring fullRead)) := by
    rw [count_fill _ hput, put_maxBufferSize]
    omega
  obtain ⟨u, v, hu, hreading, hstep, hv, hdone⟩ :=
    overwrite_pass hr.valid hr.reader hr.mutex hpos (Nat.le_of_eq hlen) hlt hfull
  obtain ⟨x, hpop⟩ := pop_pass (m := { r with
    ring := fill (put r.ring fullRead), arrived := r.arrived ++ fullRead })
    (fill_valid _ hput) hr.parser hr.mutex hfilled
  refine ⟨u, v, _, hreach.trans hu, hreading, hstep, hdone.trans hpop, ?_,
    accesses_pop_in_order _ _ (hreach.trans (hv.trans (hdone.trans hpop)))⟩
  rw [hr.popped, List.nil_append, List.length_singleton]

/-- What the threads rely on when they touch the array: at most one is between its
lock and its unlock, no two copies meet in a cell, no cell is outside the array, and
none of the tests inside the operations fails. -/
structure Safe (m : Machine α) : Prop where
  exclusive : ¬ (m.reader.locks = true ∧ m.parser.locks = true)
  apart : ∀ readBufs stored readSize buffer, m.reader = .storing readBufs stored →
    m.parser = .loading readSize buffer → ∀ i < readBufs.length, ∀ j < readSize,
      cellAt m.ring.maxBufferSize m.ring.tail i ≠ cellAt m.ring.maxBufferSize m.ring.head j
  stores : ∀ readBufs stored,
    m.reader = .storing readBufs stored ∨ m.reader = .overwriting readBufs stored →
      ∀ i < readBufs.length, cellAt m.ring.maxBufferSize m.ring.tail i < m.ring.maxBufferSize
  loads : ∀ readSize buffer, m.parser = .loading readSize buffer → ∀ j < readSize,
    cellAt m.ring.maxBufferSize m.ring.head j < m.ring.maxBufferSize
  not_full : ∀ readBufs, m.reader = .pushing readBufs →
    u32 (tcBufferFreeSpace m.ring) ≥ readBufs.length
  not_empty : ∀ readSize, m.parser = .locked readSize → m.ring.tail ≠ m.ring.head
  enough : ∀ readSize, m.parser = .measuring readSize →
    tcBufferDataAvailable m.ring ≥ i32 readSize

theorem Linked.safe {m : Machine α} {s : State α} (hl : Linked m s) : Safe m where
  exclusive h := by
    have hfree := hl.one_locks h.2
    rw [h.1] at hfree
    cases hfree
  apart readBufs stored readSize buffer hreader hparser i hi j hj := by
    have hv := hl.sound.ring
    obtain ⟨-, hreading, -, -⟩ := hl.reader.at_pc hreader
    obtain ⟨hpopping, -, -, -⟩ := hl.parser.at_pc hparser
    have hfit := (hl.sound.reading readBufs false hreading).2 rfl
    obtain ⟨-, hle⟩ := hl.sound.popping readSize hpopping
    obtain ⟨hhead, htail, hsize, -⟩ := hl.dataAvailable (by rw [hparser, ParsePc.locks])
    rw [hhead, htail, hsize, cellAt_eq hv.size_lt hv.tail_lt (by omega),
      cellAt_eq hv.size_lt hv.head_lt (by omega), ← head_add_count s.ring hv, Nat.mod_add_mod,
      Nat.add_assoc]
    intro heq
    have hsame := add_mod_inj (by omega) (by omega) heq
    omega
  stores readBufs stored hreader i hi := by
    have hv := hl.sound.ring
    obtain ⟨htail, hsize⟩ := hl.reader.ring.tail_eq
    have hle : readBufs.length ≤ tmmReadSize := by
      rcases hreader with hpc | hpc
      · obtain ⟨-, hreading, -, -⟩ := hl.reader.at_pc hpc
        exact (hl.sound.reading readBufs false hreading).1
      · obtain ⟨-, hreading, -, -⟩ := hl.reader.at_pc hpc
        exact (hl.sound.reading readBufs true hreading).1
    have hlt := hl.sound.lt_size hle
    rw [htail, hsize, cellAt_eq hv.size_lt hv.tail_lt (by omega)]
    exact Nat.mod_lt _ (by omega)
  loads readSize buffer hparser j hj := by
    have hv := hl.sound.ring
    obtain ⟨hpopping, -, -, -⟩ := hl.parser.at_pc hparser
    obtain ⟨-, hle⟩ := hl.sound.popping readSize hpopping
    have hlt := count_lt s.ring hv
    obtain ⟨hhead, -, hsize, -⟩ := hl.dataAvailable (by rw [hparser, ParsePc.locks])
    rw [hhead, hsize, cellAt_eq hv.size_lt hv.head_lt (by omega)]
    exact Nat.mod_lt _ (by omega)
  not_full _ hpc := pushing_fits hl hpc
  not_empty _ hpc := hl.not_empty hpc
  enough _ hpc := hl.enough hpc

/-- The push without the lock and the pop with it never touch one cell. -/
theorem accesses_safe (cells : List α) (hcells : cells.length = readRingBufferSize)
    {m : Machine α} (h : Reach step Free (start cells hcells) m) : Safe m := by
  obtain ⟨s, -, hl⟩ := linked_of_reach cells hcells h
  exact hl.safe

theorem accesses_safe_two :
    ∃ m, runFrom step (start (List.replicate readRingBufferSize (0 : UInt8)) List.length_replicate)
        [.reader (.read [7]), .reader .loadHead, .reader .loadHead, .reader (.store 0),
          .reader .storeTail, .parser .loadHead, .reader (.read [8]), .reader .loadHead,
          .parser (.loadTail 1024), .parser .lock, .reader .loadHead] = some m ∧ Safe m :=
  have hrun : (runFrom step
      (start (List.replicate readRingBufferSize (0 : UInt8)) List.length_replicate)
      [.reader (.read [7]), .reader .loadHead, .reader .loadHead, .reader (.store 0),
        .reader .storeTail, .parser .loadHead, .reader (.read [8]), .reader .loadHead,
        .parser (.loadTail 1024), .parser .lock, .reader .loadHead]).isSome = true := by
    decide +kernel
  have ⟨m, hm⟩ := Option.isSome_iff_exists.mp hrun
  ⟨m, hm, accesses_safe _ _ (reach_of_runFrom _ hm)⟩

end TcIpcCtrl.UnlockedReadRing
