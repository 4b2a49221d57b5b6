import TcIpcCtrl.UnlockedReadRing
import TcIpcCtrl.WritePath

/-!
The write ring access by access. A client holds the mutex for all of
tc_ipc_write_data and WriteThread for its pop, but the look of WriteThread loads
Head and then Tail without it: clients may overwrite in between, or have stored
Tail and not yet Head. Whatever size the look gives, the pop finds that many
bytes, and the device is given what the clients enqueued. The accesses of a thread
are taken to have effect in program order, each at once for all threads, which C
does not promise of those that are not locked.
-/
namespace TcIpcCtrl.UnlockedWriteRing

open CInt Cells Runs RingBuffer RingContents RingEffects
open WritePath (writeRingBufferSize ipcWriteSize ipcWrite ipcStatus Phase Carries)
open UnlockedReadRing (cellAt storeByte headAt Copied Overlaid headAt_valid freeSpace_congr)

variable {α : Type*}

/-- Who holds the mutex of the ring. -/
inductive Holder
  | client
  | writeThread
deriving DecidableEq

/-- Where the client that holds the mutex stands in tc_ipc_write_data; any other
client waits. `stored` are the bytes copied so far. -/
inductive ClientPc (α : Type*)
  | outside
  | locked (buffer : List α)
  /-- in the copies of tc_push_buffer_overwrite -/
  | overwriting (buffer : List α) (stored : Finset ℕ)
  /-- Tail has been stored, Head not yet -/
  | headStale
  /-- in the copies of tc_push_buffer -/
  | storing (buffer : List α) (stored : Finset ℕ)
  | unlocking

/-- Where WriteThread stands in its loop, with its `writeSize`. -/
inductive WriterPc
  | sleeping
  /-- in tc_buffer_data_available, with Head loaded -/
  | headLoaded (iRead : ℕ)
  | sized (writeSize : ℤ)
  | locking (writeSize : ℤ)
  | popping (writeSize : ℤ)
  | unlocking (writeSize : ℤ)
  | filled (writeSize : ℤ)
deriving DecidableEq

structure Machine (α : Type*) where
  fd : ℤ
  ring : TcRingbuf α
  mutex : Option Holder
  client : ClientPc α
  writer : WriterPc
  writeBufs : List α
  /-- the buffers of the calls of tc_ipc_write_data whose bytes are in the ring, in
  lock order -/
  enqueued : List α
  /-- the bytes that the device has accepted -/
  device : List α
  /-- whether a call has overwritten -/
  overwrote : Bool

inductive ClientAccess (α : Type*)
  | lock (buffer : List α)
  | measure
  | store (i : ℕ)
  | storeTail
  | storeHead
  | unlock

inductive WriterAccess
  | loadHead
  | loadTail
  | status (answer : ℕ)
  | lock
  | pop
  | unlock
  | write (written : ℤ)

inductive Event (α : Type*)
  | client (access : ClientAccess α)
  | writer (access : WriterAccess)

/-- Under the mutex no one else stores to the ring, so the looks of tc_ipc_write_data
and of tc_push_buffer are one. -/
def clientStep (m : Machine α) : ClientAccess α → Option (Machine α)
  | .lock buffer =>
    match m.client with
    | .outside =>
      if m.mutex = none ∧ buffer.length ≤ 520 then
        some { m with mutex := some .client, client := .locked buffer }
      else none
    | _ => none
  | .measure =>
    match m.client with
    | .locked buffer =>
      some { m with
        client :=
          if buffer.length > u32 (tcBufferFreeSpace m.ring) then .overwriting buffer ∅
          else if u32 (tcBufferFreeSpace m.ring) ≥ buffer.length then .storing buffer ∅
          else .unlocking }
    | _ => none
  | .store i =>
    match m.client with
    | .overwriting buffer stored =>
      if i < buffer.length then
        some { m with
          ring := storeByte m.ring buffer i
          client := .overwriting buffer (insert i stored) }
      else none
    | .storing buffer stored =>
      if i < buffer.length then
        some { m with
          ring := storeByte m.ring buffer i
          client := .storing buffer (insert i stored) }
      else none
    | _ => none
  | .storeTail =>
    match m.client with
    | .overwriting buffer stored =>
      if Copied buffer stored then
        some { m with
          ring := { m.ring with
            tail := cellAt m.ring.maxBufferSize m.ring.tail buffer.length }
          client := .headStale
          enqueued := m.enqueued ++ buffer
          overwrote := true }
      else none
    | .storing buffer stored =>
      if Copied buffer stored then
        some { m with
          ring := { m.ring with
            tail := cellAt m.ring.maxBufferSize m.ring.tail buffer.length }
          client := .unlocking
          enqueued := m.enqueued ++ buffer }
      else none
    | _ => none
  | .storeHead =>
    match m.client with
    | .headStale =>
      some { m with
        ring := { m.ring with head := u32 (m.ring.tail + 1) % m.ring.maxBufferSize }
        client := .unlocking }
    | _ => none
  | .unlock =>
    match m.client with
    | .unlocking => some { m with mutex := none, client := .outside }
    | _ => none

def writerStep (m : Machine α) : WriterAccess → Option (Machine α)
  | .loadHead =>
    match m.writer with
    | .sleeping => some { m with writer := .headLoaded m.ring.head }
    | _ => none
  | .loadTail =>
    match m.writer with
    | .headLoaded iRead =>
      let writeSize := min (tcBufferDataAvailable (headAt m.ring iRead)) ipcWriteSize
      some { m with writer := if writeSize ≠ 0 then .sized writeSize else .sleeping }
    | _ => none
  | .status answer =>
    match m.writer with
    | .sized writeSize =>
      some { m with
        writer := if ipcStatus m.fd answer = 1 then .locking writeSize else .sleeping }
    | _ => none
  | .lock =>
    match m.writer with
    | .locking writeSize =>
      if m.mutex = none then
        some { m with mutex := some .writeThread, writer := .popping writeSize }
      else none
    | _ => none
  | .pop =>
    match m.writer with
    | .popping writeSize =>
      -- The result of the pop is not looked at.
      some { m with
        ring := (tcPopBuffer m.ring (u32 writeSize)).ring
        writeBufs := memcpy m.writeBufs 0 (tcPopBuffer m.ring (u32 writeSize)).out
        writer := .unlocking writeSize }
    | _ => none
  | .unlock =>
    match m.writer with
    | .unlocking writeSize => some { m with mutex := none, writer := .filled writeSize }
    | _ => none
  | .write written =>
    match m.writer with
    | .filled writeSize =>
      if -1 ≤ written ∧ written ≤ writeSize then
        some { m with
          device := m.device ++ (m.writeBufs.take (u32 writeSize)).take
            (ipcWrite m.fd (m.writeBufs.take (u32 writeSize)) written).toNat
          writer := .sleeping }
      else none
    | _ => none

def step (m : Machine α) : Event α → Option (Machine α)
  | .client access => clientStep m access
  | .writer access => writerStep m access

def start (fd : ℤ) (cells : List α) (hcells : cells.length = writeRingBufferSize)
    (writeBufs : List α) : Machine α :=
  { fd := fd
    ring := tcBufferInit cells writeRingBufferSize hcells
    mutex := none
    client := .outside
    writer := .sleeping
    writeBufs := writeBufs
    enqueued := []
    device := []
    overwrote := false }

/-- The device takes the whole chunk. -/
def AcceptsAll (m : Machine α) : Event α → Prop
  | .writer (.write written) => m.writer = .filled written
  | .writer .loadHead => True
  | .writer .loadTail => True
  | .writer (.status _) => True
  | .writer .lock => True
  | .writer .pop => True
  | .writer .unlock => True
  | .client _ => True

instance (m : Machine α) : (e : Event α) → Decidable (AcceptsAll m e)
  | .writer (.write _) => inferInstanceAs (Decidable (_ = _))
  | .writer .loadHead => inferInstanceAs (Decidable True)
  | .writer .loadTail => inferInstanceAs (Decidable True)
  | .writer (.status _) => inferInstanceAs (Decidable True)
  | .writer .lock => inferInstanceAs (Decidable True)
  | .writer .pop => inferInstanceAs (Decidable True)
  | .writer .unlock => inferInstanceAs (Decidable True)
  | .client _ => inferInstanceAs (Decidable True)

/-! The whole calls behind the accesses -/

def ClientPc.locks : ClientPc α → Bool
  | .outside => false
  | _ => true

def WriterPc.locks : WriterPc → Bool
  | .popping _ => true
  | .unlocking _ => true
  | _ => false

def WriterPc.phase : WriterPc → Phase
  | .sleeping => .sleeping
  | .headLoaded _ => .sleeping
  | .sized writeSize => .sized writeSize
  | .locking writeSize => .ready writeSize
  | .popping writeSize => .ready writeSize
  | .unlocking writeSize => .filled writeSize
  | .filled writeSize => .filled writeSize

/-- The ring `c` in memory, when `a` is the ring between whole calls. -/
def Shows (a c : TcRingbuf α) : ClientPc α → Prop
  | .overwriting buffer stored => Overlaid a c buffer stored
  | .storing buffer stored => Overlaid a c buffer stored
  | .headStale => fill a = a ∧ ∃ head < a.maxBufferSize, c = headAt a head
  | _ => c = a

/-- The branch that the client has taken. -/
def ClientPc.Decided (a : TcRingbuf α) : ClientPc α → Prop
  | .locked buffer => buffer.length ≤ 520
  | .overwriting buffer _ => buffer.length ≤ 520 ∧ buffer.length > u32 (tcBufferFreeSpace a)
  | .storing buffer _ => buffer.length ≤ 520 ∧ ¬ buffer.length > u32 (tcBufferFreeSpace a)
  | _ => True

/-- The Head that WriteThread has loaded shows no more than there is. -/
def WriterPc.Sees (a : TcRingbuf α) : WriterPc → Prop
  | .headLoaded iRead => iRead < a.maxBufferSize ∧ count (headAt a iRead) ≤ count a
  | _ => True

theorem Shows.seen {a c : TcRingbuf α} (hv : Valid a) {pc : ClientPc α} (h : Shows a c pc) :
    c.tail = a.tail ∧ c.maxBufferSize = a.maxBufferSize ∧ c.head < a.maxBufferSize ∧
      count (headAt a c.head) ≤ count a := by
  have hhead := hv.head_lt
  cases pc with
  | overwriting =>
    refine ⟨h.tail, h.size, ?_⟩
    rw [h.head]
    exact ⟨hhead, le_rfl⟩
  | storing =>
    refine ⟨h.tail, h.size, ?_⟩
    rw [h.head]
    exact ⟨hhead, le_rfl⟩
  | headStale =>
    obtain ⟨hfull, head, hlt, rfl⟩ := h
    have hcount := count_fill a hv
    rw [hfull] at hcount
    have hother := count_lt _ (headAt_valid hv hlt)
    rw [hcount]
    exact ⟨rfl, rfl, hlt, Nat.le_sub_one_of_lt hother⟩
  | _ =>
    obtain rfl : c = a := h
    exact ⟨rfl, rfl, hhead, le_rfl⟩

theorem Shows.eq_of_outside {a c : TcRingbuf α} {pc : ClientPc α} (h : Shows a c pc)
    (hlocks : pc.locks = false) : c = a := by
  cases pc with
  | outside => exact h
  | _ => cases hlocks

/-- The side of the clients, when the machine has come as far as the calls to `s`. -/
structure ClientLinked (m : Machine α) (s : WritePath.State α) : Prop where
  ring : Shows s.ring m.ring m.client
  decided : m.client.Decided s.ring
  enqueued : m.enqueued = s.enqueued
  overwrote : m.overwrote = s.overwrote
  lock : m.mutex = some .client ↔ m.client.locks = true

theorem ClientLinked.at_pc {m : Machine α} {s : WritePath.State α} (h : ClientLinked m s)
    {pc : ClientPc α} (hpc : m.client = pc) :
    Shows s.ring m.ring pc ∧ pc.Decided s.ring ∧
      (m.mutex = some .client ↔ pc.locks = true) := by
  subst hpc
  exact ⟨h.ring, h.decided, h.lock⟩

/-- The side of WriteThread. -/
structure WriterLinked (m : Machine α) (s : WritePath.State α) : Prop where
  fd : m.fd = s.fd
  phase : s.phase = m.writer.phase
  writeBufs : m.writeBufs = s.writeBufs
  device : m.device = s.device
  sees : m.writer.Sees s.ring
  lock : m.mutex = some .writeThread ↔ m.writer.locks = true

structure Linked (m : Machine α) (s : WritePath.State α) : Prop where
  carries : Carries s
  client : ClientLinked m s
  writer : WriterLinked m s

theorem start_linked (fd : ℤ) (hfd : -1 < fd) (cells : List α)
    (hcells : cells.length = writeRingBufferSize) (writeBufs : List α)
    (hbufs : writeBufs.length = ipcWriteSize) :
    Linked (start fd cells hcells writeBufs) (WritePath.start fd cells hcells writeBufs) where
  carries := ⟨WritePath.start_sound fd hfd cells hcells writeBufs hbufs, List.Sublist.slnil,
    fun _ => rfl⟩
  client := ⟨rfl, trivial, rfl, rfl, by simp [start, ClientPc.locks]⟩
  writer := ⟨rfl, rfl, rfl, rfl, trivial, by simp [start, WriterPc.locks]⟩

/-! The accesses of a client -/

section Client

variable {m m' : Machine α} {s : WritePath.State α} (hl : Linked m s)

include hl

/-- A client that holds the mutex keeps WriteThread from its pop. -/
theorem Linked.writer_waits (hclient : m.client.locks = true) :
    m.mutex = some .client ∧ m.writer.locks = false := by
  have hmutex := hl.client.lock.mpr hclient
  refine ⟨hmutex, Bool.eq_false_iff.mpr fun hlocks => ?_⟩
  rw [hl.writer.lock.mpr hlocks] at hmutex
  cases hmutex

/-- A step of a client that is no whole call changes only the client and the ring in
memory. -/
theorem Linked.client_moves {ring : TcRingbuf α} {client : ClientPc α}
    (hring : Shows s.ring ring client) (hdecided : client.Decided s.ring)
    (hlocked : m.client.locks = true) (hlocks : client.locks = true) :
    Linked { m with ring := ring, client := client } s where
  carries := hl.carries
  client := ⟨hring, hdecided, hl.client.enqueued, hl.client.overwrote,
    fun _ => hlocks, fun _ => hl.client.lock.mpr hlocked⟩
  writer := ⟨hl.writer.fd, hl.writer.phase, hl.writer.writeBufs, hl.writer.device,
    hl.writer.sees, hl.writer.lock⟩

theorem lock_linked {buffer : List α} (h : clientStep m (.lock buffer) = some m') :
    Linked m' s := by
  cases hpc : m.client with
  | outside =>
    simp only [clientStep, hpc] at h
    split_ifs at h with hfree
    rw [← Option.some.inj h]
    obtain ⟨hring, -, -⟩ := hl.client.at_pc hpc
    have hwriter : m.writer.locks = false := by
      rw [Bool.eq_false_iff]
      intro hlocks
      have hmutex := hl.writer.lock.mpr hlocks
      rw [hfree.1] at hmutex
      cases hmutex
    refine ⟨hl.carries, ?_, ?_⟩
    · exact ⟨hring, hfree.2, hl.client.enqueued, hl.client.overwrote, by simp [ClientPc.locks]⟩
    · exact ⟨hl.writer.fd, hl.writer.phase, hl.writer.writeBufs, hl.writer.device,
        hl.writer.sees, by simp [hwriter]⟩
  | _ => simp only [clientStep, hpc, reduceCtorEq] at h

theorem measure_linked (h : clientStep m .measure = some m') : Linked m' s := by
  cases hpc : m.client with
  | locked buffer =>
    simp only [clientStep, hpc, Option.some.injEq] at h
    obtain ⟨hring, hle, -⟩ := hl.client.at_pc hpc
    have hmem : m.ring = s.ring := hring
    have hlocked : m.client.locks = true := by rw [hpc]; rfl
    rw [← h, hmem]
    by_cases hover : buffer.length > u32 (tcBufferFreeSpace s.ring)
    · rw [if_pos hover]
      exact hl.client_moves (Overlaid.refl _ _) ⟨hle, hover⟩ hlocked rfl
    · rw [if_neg hover, if_pos (Nat.le_of_not_lt hover)]
      exact hl.client_moves (Overlaid.refl _ _) ⟨hle, hover⟩ hlocked rfl
  | _ => simp only [clientStep, hpc, reduceCtorEq] at h

theorem store_linked {i : ℕ} (h : clientStep m (.store i) = some m') : Linked m' s := by
  have hv := hl.carries.sound.ring
  have hsize := hl.carries.sound.ring_size
  simp only [writeRingBufferSize] at hsize
  cases hpc : m.client with
  | overwriting buffer stored =>
    have hlocked : m.client.locks = true := by rw [hpc]; rfl
    simp only [clientStep, hpc] at h
    split_ifs at h with hi
    rw [← Option.some.inj h]
    obtain ⟨hring, hdecided, -⟩ := hl.client.at_pc hpc
    have hle := hdecided.1
    exact hl.client_moves (hring.store hv (by omega) hi) hdecided hlocked rfl
  | storing buffer stored =>
    have hlocked : m.client.locks = true := by rw [hpc]; rfl
    simp only [clientStep, hpc] at h
    split_ifs at h with hi
    rw [← Option.some.inj h]
    obtain ⟨hring, hdecided, -⟩ := hl.client.at_pc hpc
    have hle := hdecided.1
    exact hl.client_moves (hring.store hv (by omega) hi) hdecided hlocked rfl
  | _ => simp only [clientStep, hpc, reduceCtorEq] at h

/-- A push keeps what WriteThread has seen. -/
theorem Linked.sees_push {ring : TcRingbuf α}
    (hsize : ring.maxBufferSize = s.ring.maxBufferSize)
    (hseen : ∀ head < s.ring.maxBufferSize,
      count (headAt s.ring head) ≤ count s.ring → count (headAt ring head) ≤ count ring) :
    m.writer.Sees ring := by
  have hsees := hl.writer.sees
  cases hpc : m.writer with
  | headLoaded iRead =>
    rw [hpc] at hsees
    exact ⟨Nat.lt_of_lt_of_eq hsees.1 hsize.symm, hseen iRead hsees.1 hsees.2⟩
  | _ => trivial

/-- Storing Tail is the whole call. -/
theorem Linked.writeData {buffer : List α} (hle : buffer.length ≤ 520) :
    ∃ t, WritePath.step s (.writeData buffer) = some t ∧ Carries t ∧
      t = { s with
        ring := (tcIpcWriteData s.ring buffer).ring
        enqueued := s.enqueued ++ buffer
        overwrote := s.overwrote || decide (buffer.length > u32 (tcBufferFreeSpace s.ring)) } := by
  have hstep : WritePath.step s (.writeData buffer) = some { s with
      ring := (tcIpcWriteData s.ring buffer).ring
      enqueued := s.enqueued ++ buffer
      overwrote := s.overwrote || decide (buffer.length > u32 (tcBufferFreeSpace s.ring)) } := by
    rw [WritePath.step, if_pos hle]
  exact ⟨_, hstep, WritePath.writeData_carries hl.carries hstep, rfl⟩

theorem storeTail_overwriting {buffer : List α} {stored : Finset ℕ}
    (hpc : m.client = .overwriting buffer stored) (hcopied : Copied buffer stored) :
    ∃ t, Linked { m with
      ring := { m.ring with tail := cellAt m.ring.maxBufferSize m.ring.tail buffer.length }
      client := .headStale
      enqueued := m.enqueued ++ buffer
      overwrote := true } t := by
  have hv := hl.carries.sound.ring
  have hsize := hl.carries.sound.ring_size
  simp only [writeRingBufferSize] at hsize
  obtain ⟨hring, ⟨hle, hover⟩, hlock⟩ := hl.client.at_pc hpc
  have hput := hring.put_eq hv (by omega) hcopied
  have hputv := put_valid s.ring hv buffer
  obtain ⟨t, -, hcarries, rfl⟩ := hl.writeData hle
  have hring' : (tcIpcWriteData s.ring buffer).ring = fill (put s.ring buffer) := by
    rw [tcIpcWriteData, if_pos hover]
    exact (tcPushBufferOverwrite_eq s.ring hv buffer (by omega)).1
  rw [hring', decide_eq_true hover, Bool.or_true] at hcarries
  refine ⟨_, hcarries, ?_, ?_⟩
  · rw [hput]
    refine ⟨⟨rfl, (put s.ring buffer).head, hv.head_lt, rfl⟩, trivial, ?_, rfl, hlock⟩
    rw [hl.client.enqueued]
  · refine ⟨hl.writer.fd, hl.writer.phase, hl.writer.writeBufs, hl.writer.device, ?_,
      hl.writer.lock⟩
    refine hl.sees_push rfl ?_
    intro head hlt _
    have hlt' := count_lt _ (headAt_valid (fill_valid _ hputv) hlt)
    rw [count_fill _ hputv]
    exact Nat.le_sub_one_of_lt hlt'

theorem storeTail_storing {buffer : List α} {stored : Finset ℕ}
    (hpc : m.client = .storing buffer stored) (hcopied : Copied buffer stored) :
    ∃ t, Linked { m with
      ring := { m.ring with tail := cellAt m.ring.maxBufferSize m.ring.tail buffer.length }
      client := .unlocking
      enqueued := m.enqueued ++ buffer } t := by
  have hv := hl.carries.sound.ring
  have hsize := hl.carries.sound.ring_size
  have hcount := count_lt s.ring hv
  simp only [writeRingBufferSize] at hsize
  obtain ⟨hring, ⟨hle, hfits⟩, hlock⟩ := hl.client.at_pc hpc
  have hput := hring.put_eq hv (by omega) hcopied
  have hroom : count s.ring + buffer.length < s.ring.maxBufferSize := by
    rw [u32_freeSpace s.ring hv] at hfits
    omega
  obtain ⟨t, -, hcarries, rfl⟩ := hl.writeData hle
  have hring' : (tcIpcWriteData s.ring buffer).ring = put s.ring buffer := by
    rw [tcIpcWriteData, if_neg hfits]
    exact (tcPushBuffer_fits s.ring hv buffer hroom).1
  rw [hring', decide_eq_false hfits, Bool.or_false] at hcarries
  refine ⟨_, hcarries, ?_, ?_⟩
  · rw [hput]
    refine ⟨rfl, trivial, ?_, hl.client.overwrote, hlock⟩
    rw [hl.client.enqueued]
  · refine ⟨hl.writer.fd, hl.writer.phase, hl.writer.writeBufs, hl.writer.device, ?_,
      hl.writer.lock⟩
    refine hl.sees_push rfl ?_
    intro head hlt hseen
    have hold := count_put _ (headAt_valid hv hlt) buffer (by
      change _ < s.ring.maxBufferSize
      omega)
    have hnew := count_put s.ring hv buffer hroom
    change count (put (headAt s.ring head) buffer) ≤ count (put s.ring buffer)
    omega

theorem storeTail_linked (h : clientStep m .storeTail = some m') : ∃ t, Linked m' t := by
  cases hpc : m.client with
  | overwriting buffer stored =>
    simp only [clientStep, hpc] at h
    split_ifs at h with hcopied
    rw [← Option.some.inj h]
    exact storeTail_overwriting hl hpc hcopied
  | storing buffer stored =>
    simp only [clientStep, hpc] at h
    split_ifs at h with hcopied
    rw [← Option.some.inj h]
    exact storeTail_storing hl hpc hcopied
  | _ => simp only [clientStep, hpc, reduceCtorEq] at h

/-- Storing Head brings memory back to the ring between calls. -/
theorem storeHead_linked (h : clientStep m .storeHead = some m') : Linked m' s := by
  cases hpc : m.client with
  | headStale =>
    have hlocked : m.client.locks = true := by rw [hpc]; rfl
    simp only [clientStep, hpc, Option.some.injEq] at h
    obtain ⟨⟨hfull, head, -, hmem⟩, -, -⟩ := hl.client.at_pc hpc
    have hv := hl.carries.sound.ring
    have htail := hv.tail_lt
    have hsize := hv.size_lt
    have hsucc : u32 (s.ring.tail + 1) = s.ring.tail + 1 := u32_succ _ (by omega)
    rw [← h, hmem]
    refine hl.client_moves ?_ trivial hlocked rfl
    change { s.ring with head := u32 (s.ring.tail + 1) % s.ring.maxBufferSize } = s.ring
    rw [hsucc]
    exact hfull
  | _ => simp only [clientStep, hpc, reduceCtorEq] at h

theorem unlock_linked (h : clientStep m .unlock = some m') : Linked m' s := by
  cases hpc : m.client with
  | unlocking =>
    have hwaits := (hl.writer_waits (by rw [hpc]; rfl)).2
    simp only [clientStep, hpc, Option.some.injEq] at h
    obtain ⟨hring, -, -⟩ := hl.client.at_pc hpc
    rw [← h]
    refine ⟨hl.carries, ?_, ?_⟩
    · exact ⟨hring, trivial, hl.client.enqueued, hl.client.overwrote, by simp [ClientPc.locks]⟩
    · exact ⟨hl.writer.fd, hl.writer.phase, hl.writer.writeBufs, hl.writer.device,
        hl.writer.sees, by simp [hwaits]⟩
  | _ => simp only [clientStep, hpc, reduceCtorEq] at h

theorem clientStep_linked (access : ClientAccess α) (h : clientStep m access = some m') :
    ∃ t, Linked m' t := by
  cases access with
  | lock buffer => exact ⟨s, lock_linked hl h⟩
  | measure => exact ⟨s, measure_linked hl h⟩
  | store i => exact ⟨s, store_linked hl h⟩
  | storeTail => exact storeTail_linked hl h
  | storeHead => exact ⟨s, storeHead_linked hl h⟩
  | unlock => exact ⟨s, unlock_linked hl h⟩

end Client

/-! The accesses of WriteThread -/

theorem carries_of_phase {s : WritePath.State α} (hs : Carries s) {phase : Phase}
    (hbefore : WritePath.inFlight s = [])
    (hafter : WritePath.inFlight { s with phase := phase } = [])
    (hbacked : phase.Backed (count s.ring)) : Carries { s with phase := phase } := by
  refine WritePath.carries_of_same hs ?_ ?_ rfl rfl
  · exact ⟨hs.sound.fd, hs.sound.ring, hs.sound.ring_size, hs.sound.writeBufs, hbacked⟩
  · rw [WritePath.onWay, WritePath.onWay, hbefore, hafter]

section Writer

variable {m m' : Machine α} {s : WritePath.State α} (hl : Linked m s)

include hl

/-- Without the mutex WriteThread changes only where it stands. -/
theorem Linked.writer_moves {t : WritePath.State α} {writer : WriterPc} (hcarries : Carries t)
    (ht : t = { s with phase := writer.phase }) (hsees : writer.Sees s.ring)
    (hlocks : writer.locks = m.writer.locks) : Linked { m with writer := writer } t := by
  subst ht
  refine ⟨hcarries, ?_, ?_⟩
  · exact ⟨hl.client.ring, hl.client.decided, hl.client.enqueued, hl.client.overwrote,
      hl.client.lock⟩
  · refine ⟨hl.writer.fd, rfl, hl.writer.writeBufs, hl.writer.device, hsees, ?_⟩
    rw [hlocks]
    exact hl.writer.lock

theorem Linked.phase_eq {pc : WriterPc} (hpc : m.writer = pc) : s.phase = pc.phase := by
  rw [← hpc]
  exact hl.writer.phase

theorem loadHead_linked (h : writerStep m .loadHead = some m') : Linked m' s := by
  cases hpc : m.writer with
  | sleeping =>
    simp only [writerStep, hpc, Option.some.injEq] at h
    obtain ⟨-, -, hlt, hseen⟩ := hl.client.ring.seen hl.carries.sound.ring
    have hphase := hl.phase_eq hpc
    rw [← h]
    refine hl.writer_moves hl.carries ?_ ⟨hlt, hseen⟩ (by rw [hpc]; rfl)
    rw [WriterPc.phase, ← show s.phase = .sleeping from hphase]
  | _ => simp only [writerStep, hpc, reduceCtorEq] at h

/-- With whatever Head the look began, it shows no more than the ring holds. -/
theorem looked_le {iRead : ℕ} (hpc : m.writer = .headLoaded iRead) :
    tcBufferDataAvailable (headAt m.ring iRead) = count (headAt s.ring iRead) ∧
      count (headAt s.ring iRead) ≤ count s.ring := by
  have hv := hl.carries.sound.ring
  have hsees := hl.writer.sees
  rw [hpc] at hsees
  obtain ⟨htail, hsize, -, -⟩ := hl.client.ring.seen hv
  refine ⟨?_, hsees.2⟩
  rw [← dataAvailable_eq _ (headAt_valid hv hsees.1)]
  exact UnlockedReadRing.dataAvailable_congr rfl htail hsize

theorem loadTail_linked (h : writerStep m .loadTail = some m') : ∃ t, Linked m' t := by
  cases hpc : m.writer with
  | headLoaded iRead =>
    obtain ⟨hlooked, hle⟩ := looked_le hl hpc
    have hphase := hl.phase_eq hpc
    have hbefore : WritePath.inFlight s = [] := by rw [WritePath.inFlight, hphase]; rfl
    simp only [writerStep, hpc, hlooked, Option.some.injEq] at h
    rw [← h]
    by_cases hzero : min (count (headAt s.ring iRead) : ℤ) ipcWriteSize ≠ 0
    · rw [if_pos hzero]
      refine ⟨_, hl.writer_moves (carries_of_phase hl.carries hbefore rfl ?_) rfl trivial
        (by rw [hpc]; rfl)⟩
      exact ⟨by omega, by omega, by omega⟩
    · have hcarries : Carries { s with phase := .sleeping } :=
        carries_of_phase hl.carries hbefore rfl trivial
      rw [if_neg hzero]
      exact ⟨_, hl.writer_moves hcarries rfl trivial (by rw [hpc]; rfl)⟩
  | _ => simp only [writerStep, hpc, reduceCtorEq] at h

theorem status_linked {answer : ℕ} (h : writerStep m (.status answer) = some m') :
    ∃ t, Linked m' t := by
  cases hpc : m.writer with
  | sized writeSize =>
    have hphase := hl.phase_eq hpc
    have hbefore : WritePath.inFlight s = [] := by rw [WritePath.inFlight, hphase]; rfl
    have hbacked := hl.carries.sound.backed
    rw [hphase] at hbacked
    simp only [writerStep, hpc, Option.some.injEq] at h
    rw [← h]
    by_cases hready : ipcStatus m.fd answer = 1
    · have hcarries : Carries { s with phase := .ready writeSize } :=
        carries_of_phase hl.carries hbefore rfl hbacked
      rw [if_pos hready]
      exact ⟨_, hl.writer_moves hcarries rfl trivial (by rw [hpc]; rfl)⟩
    · have hcarries : Carries { s with phase := .sleeping } :=
        carries_of_phase hl.carries hbefore rfl trivial
      rw [if_neg hready]
      exact ⟨_, hl.writer_moves hcarries rfl trivial (by rw [hpc]; rfl)⟩
  | _ => simp only [writerStep, hpc, reduceCtorEq] at h

/-- WriteThread at the mutex, or just behind it. -/
theorem Linked.client_waits (hwriter : m.writer.locks = true) :
    m.mutex = some .writeThread ∧ m.client.locks = false ∧ m.ring = s.ring := by
  have hmutex := hl.writer.lock.mpr hwriter
  have hclient : m.client.locks = false := by
    rw [Bool.eq_false_iff]
    intro hlocks
    rw [hl.client.lock.mpr hlocks] at hmutex
    cases hmutex
  exact ⟨hmutex, hclient, hl.client.ring.eq_of_outside hclient⟩

theorem writerLock_linked (h : writerStep m .lock = some m') : Linked m' s := by
  cases hpc : m.writer with
  | locking writeSize =>
    have hphase := hl.phase_eq hpc
    simp only [writerStep, hpc] at h
    split_ifs at h with hfree
    rw [← Option.some.inj h]
    have hclient : m.client.locks = false := by
      rw [Bool.eq_false_iff]
      intro hlocks
      have hmutex := hl.client.lock.mpr hlocks
      rw [hfree] at hmutex
      cases hmutex
    refine ⟨hl.carries, ?_, ?_⟩
    · exact ⟨hl.client.ring, hl.client.decided, hl.client.enqueued, hl.client.overwrote,
        by simp [hclient]⟩
    · exact ⟨hl.writer.fd, hphase, hl.writer.writeBufs, hl.writer.device, trivial,
        by simp [WriterPc.locks]⟩
  | _ => simp only [writerStep, hpc, reduceCtorEq] at h

theorem pop_linked (h : writerStep m .pop = some m') : ∃ t, Linked m' t := by
  cases hpc : m.writer with
  | popping writeSize =>
    have hwriter : m.writer.locks = true := by rw [hpc]; rfl
    obtain ⟨hmutex, hclient, hmem⟩ := hl.client_waits hwriter
    have hphase : s.phase = .ready writeSize := hl.phase_eq hpc
    have hstep : WritePath.step s .pop = some { s with
        ring := (tcPopBuffer s.ring (u32 writeSize)).ring
        writeBufs := memcpy s.writeBufs 0 (tcPopBuffer s.ring (u32 writeSize)).out
        phase := .filled writeSize } := by
      simp only [WritePath.step, hphase]
    have haccepts : WritePath.AcceptsAll s .pop := trivial
    have hcarries := WritePath.step_carries hl.carries haccepts hstep
    simp only [writerStep, hpc, Option.some.injEq] at h
    have hbufs := hl.writer.writeBufs
    have houtside : m.client = .outside := by
      cases hm : m.client with
      | outside => rfl
      | _ =>
        rw [hm] at hclient
        cases hclient
    rw [← h, hmem, hbufs]
    refine ⟨_, hcarries, ?_, ?_⟩
    · refine ⟨?_, ?_, hl.client.enqueued, hl.client.overwrote, hl.client.lock⟩
      · change Shows _ _ m.client
        rw [houtside]
        rfl
      · change m.client.Decided _
        rw [houtside]
        trivial
    · exact ⟨hl.writer.fd, rfl, rfl, hl.writer.device, trivial, by simp [hmutex, WriterPc.locks]⟩
  | _ => simp only [writerStep, hpc, reduceCtorEq] at h

theorem writerUnlock_linked (h : writerStep m .unlock = some m') : Linked m' s := by
  cases hpc : m.writer with
  | unlocking writeSize =>
    have hphase := hl.phase_eq hpc
    obtain ⟨-, hclient, -⟩ := hl.client_waits (by rw [hpc]; rfl)
    simp only [writerStep, hpc, Option.some.injEq] at h
    rw [← h]
    refine ⟨hl.carries, ?_, ?_⟩
    · exact ⟨hl.client.ring, hl.client.decided, hl.client.enqueued, hl.client.overwrote,
        by simp [hclient]⟩
    · exact ⟨hl.writer.fd, hphase, hl.writer.writeBufs, hl.writer.device, trivial,
        by simp [WriterPc.locks]⟩
  | _ => simp only [writerStep, hpc, reduceCtorEq] at h

theorem write_linked {written : ℤ} (haccepts : m.writer = .filled written)
    (h : writerStep m (.write written) = some m') : ∃ t, Linked m' t := by
  have hphase : s.phase = .filled written := hl.phase_eq haccepts
  simp only [writerStep, haccepts] at h
  split_ifs at h with hrange
  have hstep : WritePath.step s (.write written) = some { s with
      device := s.device ++ (WritePath.chunk s written).take
        (ipcWrite s.fd (WritePath.chunk s written) written).toNat
      phase := .sleeping } := by
    simp only [WritePath.step, hphase, if_pos hrange]
  have haccepts' : WritePath.AcceptsAll s (.write written) := hphase
  have hcarries := WritePath.step_carries hl.carries haccepts' hstep
  rw [← Option.some.inj h]
  refine ⟨_, hcarries, ?_, ?_⟩
  · exact ⟨hl.client.ring, hl.client.decided, hl.client.enqueued, hl.client.overwrote,
      hl.client.lock⟩
  · refine ⟨hl.writer.fd, rfl, hl.writer.writeBufs, ?_, trivial, ?_⟩
    · rw [hl.writer.device, hl.writer.writeBufs, hl.writer.fd, WritePath.chunk]
    · have hlock := hl.writer.lock
      rw [haccepts] at hlock
      exact hlock

theorem writerStep_linked (access : WriterAccess) (haccepts : AcceptsAll m (.writer access))
    (h : writerStep m access = some m') : ∃ t, Linked m' t := by
  cases access with
  | loadHead => exact ⟨s, loadHead_linked hl h⟩
  | loadTail => exact loadTail_linked hl h
  | status answer => exact status_linked hl h
  | lock => exact ⟨s, writerLock_linked hl h⟩
  | pop => exact pop_linked hl h
  | unlock => exact ⟨s, writerUnlock_linked hl h⟩
  | write written => exact write_linked hl haccepts h

end Writer

theorem step_linked {m m' : Machine α} {s : WritePath.State α} (hl : Linked m s) {e : Event α}
    (haccepts : AcceptsAll m e) (h : step m e = some m') : ∃ t, Linked m' t := by
  cases e with
  | client access => exact clientStep_linked hl access h
  | writer access => exact writerStep_linked hl access haccepts h

/-- The bytes popped and not yet written. -/
def inFlight (m : Machine α) : List α :=
  match m.writer with
  | .unlocking writeSize => m.writeBufs.take (u32 writeSize)
  | .filled writeSize => m.writeBufs.take (u32 writeSize)
  | _ => []

theorem Linked.inFlight_eq {m : Machine α} {s : WritePath.State α} (hl : Linked m s) :
    inFlight m = WritePath.inFlight s := by
  have hphase := hl.writer.phase
  rw [inFlight, WritePath.inFlight, hphase, hl.writer.writeBufs]
  cases m.writer <;> rfl

theorem linked_of_reach (fd : ℤ) (hfd : -1 < fd) (cells : List α)
    (hcells : cells.length = writeRingBufferSize) (writeBufs : List α)
    (hbufs : writeBufs.length = ipcWriteSize) {m : Machine α}
    (h : Reach step AcceptsAll (start fd cells hcells writeBufs) m) : ∃ s, Linked m s :=
  h.invariant (fun m => ∃ s, Linked m s)
    ⟨_, start_linked fd hfd cells hcells writeBufs hbufs⟩
    fun _ _ _ ⟨_, hl⟩ haccepts hstep => step_linked hl haccepts hstep

def ClientPc.overwrites : ClientPc α → Bool
  | .overwriting _ _ => true
  | .headStale => true
  | _ => false

/-- The readable bytes in memory are those between whole calls, unless a client is
overwriting. -/
theorem Linked.contents_eq {m : Machine α} {s : WritePath.State α} (hl : Linked m s)
    (hpc : m.client.overwrites = false) : contents m.ring = contents s.ring := by
  have hv := hl.carries.sound.ring
  cases hclient : m.client with
  | overwriting =>
    rw [hclient] at hpc
    cases hpc
  | headStale =>
    rw [hclient] at hpc
    cases hpc
  | storing buffer stored =>
    obtain ⟨hring, ⟨-, hfits⟩, -⟩ := hl.client.at_pc hclient
    rw [u32_freeSpace s.ring hv] at hfits
    have hlt := count_lt s.ring hv
    exact hring.contents_eq hv (by omega)
  | _ =>
    obtain ⟨hring, -, -⟩ := hl.client.at_pc hclient
    rw [show m.ring = s.ring from hring]

/-- Whatever the clients store while WriteThread looks: the mutex is held by one thread
at a time, every pop finds as many bytes as the look gave, the device stream is an
ordered part of what the clients enqueued, and while nothing has been overwritten no
byte of it is missing: unless a client is just overwriting, what the device has not got is
under way in WriteThread or readable in memory. -/
theorem torn_looks_in_order (fd : ℤ) (hfd : -1 < fd) (cells : List α)
    (hcells : cells.length = writeRingBufferSize) (writeBufs : List α)
    (hbufs : writeBufs.length = ipcWriteSize) {m : Machine α}
    (h : Reach step AcceptsAll (start fd cells hcells writeBufs) m) :
    (m.client.locks = false ∨ m.writer.locks = false) ∧
      (∀ writeSize, m.writer = .popping writeSize →
        (tcPopBuffer m.ring (u32 writeSize)).ret = tcBufferOk ∧
          ((tcPopBuffer m.ring (u32 writeSize)).out.length : ℤ) = writeSize) ∧
      m.device.Sublist m.enqueued ∧
      (m.overwrote = false → m.device <+: m.enqueued) ∧
      (m.overwrote = false → m.client.overwrites = false →
        m.device ++ inFlight m ++ contents m.ring = m.enqueued) := by
  obtain ⟨s, hl⟩ := linked_of_reach fd hfd cells hcells writeBufs hbufs h
  have hdevice := hl.writer.device
  have henqueued := hl.client.enqueued
  have hcomplete : m.overwrote = false → WritePath.onWay s = m.enqueued := by
    intro hnone
    rw [henqueued]
    exact hl.carries.complete (hl.client.overwrote.symm.trans hnone)
  refine ⟨?_, ?_, ?_, ?_, ?_⟩
  · cases hlocks : m.client.locks with
    | false => exact Or.inl rfl
    | true => exact Or.inr (hl.writer_waits hlocks).2
  · intro writeSize hpc
    obtain ⟨-, -, hmem⟩ := hl.client_waits (by rw [hpc]; rfl)
    have hphase : s.phase = .ready writeSize := hl.phase_eq hpc
    have hbacked := hl.carries.sound.backed
    rw [hphase] at hbacked
    have hpos := hbacked.1
    obtain ⟨-, hret, -, hlen⟩ := WritePath.pop_ok hl.carries.sound hphase
    rw [hmem]
    exact ⟨hret, by omega⟩
  · rw [hdevice, henqueued]
    refine List.Sublist.trans ?_ hl.carries.ordered
    rw [WritePath.onWay, List.append_assoc]
    exact List.sublist_append_left _ _
  · intro hnone
    rw [hdevice, ← hcomplete hnone, WritePath.onWay, List.append_assoc]
    exact List.prefix_append _ _
  · intro hnone hpc
    rw [hdevice, hl.inFlight_eq, hl.contents_eq hpc]
    exact hcomplete hnone

/-- A second call between the two loads of the look. -/
theorem torn_looks_in_order_two :
    ∃ m, runFrom (guarded step AcceptsAll)
        (start 3 (List.replicate writeRingBufferSize (0xa5 : UInt8)) List.length_replicate
          (List.replicate ipcWriteSize 0))
        [.client (.lock [1, 2]), .client .measure, .client (.store 1), .client (.store 0),
          .client .storeTail, .client .unlock, .writer .loadHead, .client (.lock [3]),
          .client .measure, .client (.store 0), .client .storeTail, .writer .loadTail,
          .client .unlock, .writer (.status 1), .writer .lock, .writer .pop, .writer .unlock,
          .writer (.write 3)] = some m ∧
      m.device = [1, 2, 3] ∧ m.device.Sublist m.enqueued :=
  have hrun : (runFrom (guarded step AcceptsAll)
      (start 3 (List.replicate writeRingBufferSize (0xa5 : UInt8)) List.length_replicate
        (List.replicate ipcWriteSize 0))
      [.client (.lock [1, 2]), .client .measure, .client (.store 1), .client (.store 0),
        .client .storeTail, .client .unlock, .writer .loadHead, .client (.lock [3]),
        .client .measure, .client (.store 0), .client .storeTail, .writer .loadTail,
        .client .unlock, .writer (.status 1), .writer .lock, .writer .pop, .writer .unlock,
        .writer (.write 3)]).map (fun m => m.device) = some [1, 2, 3] := by
    decide +kernel
  have ⟨m, hm, hdevice⟩ := Option.map_eq_some_iff.mp hrun
  ⟨m, hm, hdevice, (torn_looks_in_order 3 (by decide) _ _ _ List.length_replicate
    (reach_of_guarded _ hm)).2.2.1⟩

end TcIpcCtrl.UnlockedWriteRing
