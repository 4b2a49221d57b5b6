import TcIpcCtrl.RingEffects
import TcIpcCtrl.Runs

/-!
The send path: clients append to the write ring under its lock, WriteThread
looks at it without the lock, asks the driver, pops under the lock and writes to
the device. WriteThread is the only consumer, so what it saw stays in the ring
until its pop, whatever the clients do in between.
-/
namespace TcIpcCtrl.WritePath

open CInt Cells Runs BoundedQueue RingBuffer RingContents RingEffects

variable {α : Type*}

def writeRingBufferSize : ℕ := 1024 * 16
def ipcWriteSize : ℕ := 512

/-- `written` is what write(2) returns. -/
def ipcWrite (fd : ℤ) (wbuffer : List α) (written : ℤ) : ℤ :=
  if fd > -1 ∧ wbuffer.length > 0 then written else -1

/-- `status` is what the driver answers. -/
def ipcStatus (fd : ℤ) (status : ℕ) : ℕ := if fd > -1 then status else 0

/-- Where WriteThread stands in its loop, with its `writeSize`. -/
inductive Phase
  | sleeping
  | sized (writeSize : ℤ)
  | ready (writeSize : ℤ)
  | filled (writeSize : ℤ)
deriving DecidableEq

structure State (α : Type*) where
  fd : ℤ
  ring : TcRingbuf α
  phase : Phase
  writeBufs : List α
  /-- the buffers of all calls of tc_ipc_write_data, in lock order -/
  enqueued : List α
  /-- the bytes that the device has accepted -/
  device : List α
  /-- whether a call has overwritten -/
  overwrote : Bool

inductive Event (α : Type*)
  | writeData (buffer : List α)
  | measure
  | status (answer : ℕ)
  | pop
  | write (written : ℤ)

/-- The bytes given to ipc_write. -/
def chunk (s : State α) (writeSize : ℤ) : List α := s.writeBufs.take (u32 writeSize)

def step (s : State α) : Event α → Option (State α)
  | .writeData buffer =>
    if buffer.length ≤ 520 then
      some { s with
        ring := (tcIpcWriteData s.ring buffer).ring
        enqueued := s.enqueued ++ buffer
        overwrote := s.overwrote || decide (buffer.length > u32 (tcBufferFreeSpace s.ring)) }
    else none
  | .measure =>
    if s.phase = .sleeping then
      let writeSize := min (tcBufferDataAvailable s.ring) ipcWriteSize
      some { s with phase := if writeSize ≠ 0 then .sized writeSize else .sleeping }
    else none
  | .status answer =>
    match s.phase with
    | .sized writeSize =>
      some { s with phase := if ipcStatus s.fd answer = 1 then .ready writeSize else .sleeping }
    | _ => none
  | .pop =>
    match s.phase with
    | .ready writeSize =>
      -- The result of the pop is not looked at.
      some { s with
        ring := (tcPopBuffer s.ring (u32 writeSize)).ring
        writeBufs := memcpy s.writeBufs 0 (tcPopBuffer s.ring (u32 writeSize)).out
        phase := .filled writeSize }
    | _ => none
  | .write written =>
    match s.phase with
    | .filled writeSize =>
      if -1 ≤ written ∧ written ≤ writeSize then
        some { s with
          device := s.device ++
            (chunk s writeSize).take (ipcWrite s.fd (chunk s writeSize) written).toNat
          phase := .sleeping }
      else none
    | _ => none

/-- The state in which the thread is started, `cells` and `writeBufs` as memory
was found. -/
def start (fd : ℤ) (cells : List α) (hcells : cells.length = writeRingBufferSize)
    (writeBufs : List α) : State α :=
  { fd := fd
    ring := tcBufferInit cells writeRingBufferSize hcells
    phase := .sleeping
    writeBufs := writeBufs
    enqueued := []
    device := []
    overwrote := false }

/-- The device takes the whole chunk. -/
def AcceptsAll (s : State α) : Event α → Prop
  | .write written => s.phase = .filled written
  | .writeData _ => True
  | .measure => True
  | .status _ => True
  | .pop => True

instance (s : State α) : (e : Event α) → Decidable (AcceptsAll s e)
  | .write _ => inferInstanceAs (Decidable (_ = _))
  | .writeData _ => inferInstanceAs (Decidable True)
  | .measure => inferInstanceAs (Decidable True)
  | .status _ => inferInstanceAs (Decidable True)
  | .pop => inferInstanceAs (Decidable True)

/-- A size that WriteThread may pop: what it saw is still there. -/
def Phase.Backed (phase : Phase) (available : ℕ) : Prop :=
  match phase with
  | .sleeping => True
  | .sized writeSize => 0 < writeSize ∧ writeSize ≤ ipcWriteSize ∧ writeSize ≤ available
  | .ready writeSize => 0 < writeSize ∧ writeSize ≤ ipcWriteSize ∧ writeSize ≤ available
  | .filled writeSize => 0 < writeSize ∧ writeSize ≤ ipcWriteSize

/-- What every step keeps. -/
structure Sound (s : State α) : Prop where
  fd : -1 < s.fd
  ring : Valid s.ring
  ring_size : s.ring.maxBufferSize = writeRingBufferSize
  writeBufs : s.writeBufs.length = ipcWriteSize
  backed : s.phase.Backed (count s.ring)

theorem start_sound (fd : ℤ) (hfd : -1 < fd) (cells : List α)
    (hcells : cells.length = writeRingBufferSize) (writeBufs : List α)
    (hbufs : writeBufs.length = ipcWriteSize) : Sound (start fd cells hcells writeBufs) where
  fd := hfd
  ring := init_valid cells _ hcells (by decide) (by decide)
  ring_size := rfl
  writeBufs := hbufs
  backed := trivial

theorem Phase.Backed.mono {phase : Phase} {available available' : ℕ}
    (h : phase.Backed available) (hle : available ≤ available') : phase.Backed available' := by
  cases phase with
  | sleeping => exact trivial
  | sized writeSize =>
    obtain ⟨hpos, hsize, havail⟩ := h
    exact ⟨hpos, hsize, by omega⟩
  | ready writeSize =>
    obtain ⟨hpos, hsize, havail⟩ := h
    exact ⟨hpos, hsize, by omega⟩
  | filled writeSize => exact h

theorem u32_of_backed {writeSize : ℤ} (hpos : 0 < writeSize) (hle : writeSize ≤ ipcWriteSize) :
    u32 writeSize = writeSize.toNat := by
  simp only [ipcWriteSize] at hle
  unfold u32
  omega

/-- The pop after a look finds all the bytes that were seen. -/
theorem pop_ok {s : State α} (hs : Sound s) {writeSize : ℤ} (hphase : s.phase = .ready writeSize) :
    (tcPopBuffer s.ring (u32 writeSize)).ring = advance s.ring writeSize.toNat ∧
      (tcPopBuffer s.ring (u32 writeSize)).ret = tcBufferOk ∧
      (tcPopBuffer s.ring (u32 writeSize)).out = (contents s.ring).take writeSize.toNat ∧
      (tcPopBuffer s.ring (u32 writeSize)).out.length = writeSize.toNat := by
  have hbacked := hs.backed
  rw [hphase] at hbacked
  obtain ⟨hpos, hsize, havail⟩ := hbacked
  rw [u32_of_backed hpos hsize]
  obtain ⟨hring, hret, hout, -⟩ := tcPopBuffer_ok s.ring hs.ring writeSize.toNat (by omega)
    (by omega)
  refine ⟨hring, hret, hout, ?_⟩
  rw [hout, List.length_take, length_contents s.ring hs.ring]
  omega

/-- The bytes popped and not yet written. -/
def inFlight (s : State α) : List α :=
  match s.phase with
  | .sleeping => []
  | .sized _ => []
  | .ready _ => []
  | .filled writeSize => chunk s writeSize

/-! What a step can do -/

/-- A step that only moves WriteThread on, short of the pop. -/
structure Moves (s t : State α) (phase : Phase) : Prop where
  eq : t = { s with phase := phase }
  backed : phase.Backed (count s.ring)
  before : inFlight s = []
  after : inFlight t = []

theorem measure_moves {s t : State α} (hs : Sound s) (h : step s .measure = some t) :
    ∃ phase, Moves s t phase := by
  by_cases hsleeping : s.phase = .sleeping
  · have hflight : inFlight s = [] := by rw [inFlight, hsleeping]
    rw [step, if_pos hsleeping, dataAvailable_eq s.ring hs.ring] at h
    by_cases hzero : min (count s.ring : ℤ) ipcWriteSize ≠ 0
    · simp only [if_pos hzero] at h
      refine ⟨.sized (min (count s.ring : ℤ) ipcWriteSize), (Option.some.inj h).symm, ?_,
        hflight, ?_⟩
      · exact ⟨by omega, by omega, by omega⟩
      · rw [← Option.some.inj h]
        rfl
    · simp only [if_neg hzero] at h
      refine ⟨.sleeping, (Option.some.inj h).symm, trivial, hflight, ?_⟩
      rw [← Option.some.inj h]
      rfl
  · rw [step, if_neg hsleeping] at h
    cases h

theorem status_moves {s t : State α} (hs : Sound s) {answer : ℕ}
    (h : step s (.status answer) = some t) : ∃ phase, Moves s t phase := by
  have hbacked := hs.backed
  cases hphase : s.phase with
  | sized writeSize =>
    have hflight : inFlight s = [] := by rw [inFlight, hphase]
    simp only [step, hphase] at h
    rw [hphase] at hbacked
    by_cases hready : ipcStatus s.fd answer = 1
    · rw [if_pos hready] at h
      refine ⟨.ready writeSize, (Option.some.inj h).symm, hbacked, hflight, ?_⟩
      rw [← Option.some.inj h]
      rfl
    · rw [if_neg hready] at h
      refine ⟨.sleeping, (Option.some.inj h).symm, trivial, hflight, ?_⟩
      rw [← Option.some.inj h]
      rfl
  | sleeping => simp [step, hphase] at h
  | ready writeSize => simp [step, hphase] at h
  | filled writeSize => simp [step, hphase] at h

theorem length_chunk {s : State α} (hs : Sound s) {writeSize : ℤ}
    (hpos : 0 < writeSize) (hle : writeSize ≤ ipcWriteSize) :
    (chunk s writeSize).length = writeSize.toNat := by
  have hbufs := hs.writeBufs
  rw [chunk, u32_of_backed hpos hle, List.length_take]
  omega

/-- The descriptor is open and the chunk not empty, so ipc_write does call write. -/
theorem ipcWrite_eq {s : State α} (hs : Sound s) {writeSize : ℤ}
    (hphase : s.phase = .filled writeSize) (written : ℤ) :
    ipcWrite s.fd (chunk s writeSize) written = written := by
  have hbacked := hs.backed
  rw [hphase] at hbacked
  have hlen := length_chunk hs hbacked.1 hbacked.2
  have hpos := hbacked.1
  rw [ipcWrite, if_pos ⟨hs.fd, by omega⟩]

theorem write_reaches_device {s t : State α} (hs : Sound s) {written : ℤ}
    (h : step s (.write written) = some t) :
    ∃ writeSize, s.phase = .filled writeSize ∧
      t = { s with
        device := s.device ++ (chunk s writeSize).take written.toNat
        phase := .sleeping } := by
  cases hphase : s.phase with
  | filled writeSize =>
    by_cases hrange : -1 ≤ written ∧ written ≤ writeSize
    · simp only [step, hphase, if_pos hrange, ipcWrite_eq hs hphase] at h
      exact ⟨writeSize, rfl, (Option.some.inj h).symm⟩
    · simp only [step, hphase, if_neg hrange] at h
      cases h
  | sleeping => simp [step, hphase] at h
  | sized writeSize => simp [step, hphase] at h
  | ready writeSize => simp [step, hphase] at h

theorem step_cases {s t : State α} (hs : Sound s) {e : Event α} (h : step s e = some t) :
    (∃ buffer ring', e = .writeData buffer ∧ buffer.length ≤ 520 ∧ Pushed s.ring ring' buffer ∧
      t = { s with
        ring := ring'
        enqueued := s.enqueued ++ buffer
        overwrote := s.overwrote || decide (buffer.length > u32 (tcBufferFreeSpace s.ring)) }) ∨
    ((∀ buffer, e ≠ .writeData buffer) ∧ ∃ phase, Moves s t phase) ∨
    (∃ writeSize, e = .pop ∧ s.phase = .ready writeSize ∧
      t = { s with
        ring := advance s.ring writeSize.toNat
        writeBufs := memcpy s.writeBufs 0 ((contents s.ring).take writeSize.toNat)
        phase := .filled writeSize }) ∨
    (∃ writeSize written, e = .write written ∧ s.phase = .filled writeSize ∧
      t = { s with
        device := s.device ++ (chunk s writeSize).take written.toNat
        phase := .sleeping }) := by
  cases e with
  | writeData buffer =>
    by_cases hle : buffer.length ≤ 520
    · rw [step, if_pos hle] at h
      have hlt : buffer.length < s.ring.maxBufferSize := by
        rw [hs.ring_size, writeRingBufferSize]
        omega
      have hpushed := tcIpcWriteData_pushed s.ring hs.ring buffer hlt
      exact Or.inl ⟨buffer, _, rfl, hle, hpushed, (Option.some.inj h).symm⟩
    · rw [step, if_neg hle] at h
      cases h
  | measure => exact Or.inr (Or.inl ⟨(fun _ heq => nomatch heq), measure_moves hs h⟩)
  | status answer => exact Or.inr (Or.inl ⟨(fun _ heq => nomatch heq), status_moves hs h⟩)
  | pop =>
    cases hphase : s.phase with
    | ready writeSize =>
      obtain ⟨hring, -, hout, -⟩ := pop_ok hs hphase
      simp only [step, hphase, hring, hout] at h
      exact Or.inr (Or.inr (Or.inl ⟨writeSize, rfl, rfl, (Option.some.inj h).symm⟩))
    | sleeping => simp [step, hphase] at h
    | sized writeSize => simp [step, hphase] at h
    | filled writeSize => simp [step, hphase] at h
  | write written =>
    obtain ⟨writeSize, hphase, ht⟩ := write_reaches_device hs h
    exact Or.inr (Or.inr (Or.inr ⟨writeSize, written, rfl, hphase, ht⟩))

theorem sound_of_ring {s : State α} (hs : Sound s) {ring : TcRingbuf α} {buffer : List α}
    (hpushed : Pushed s.ring ring buffer) (enqueued : List α) (overwrote : Bool) :
    Sound { s with ring := ring, enqueued := enqueued, overwrote := overwrote } where
  fd := hs.fd
  ring := hpushed.valid
  ring_size := hpushed.size.trans hs.ring_size
  writeBufs := hs.writeBufs
  backed := hs.backed.mono (hpushed.count_le hs.ring)

theorem step_sound {s t : State α} (hs : Sound s) {e : Event α} (h : step s e = some t) :
    Sound t := by
  rcases step_cases hs h with ⟨buffer, ring', -, -, hpushed, rfl⟩ | ⟨-, phase, hmoves⟩ |
    ⟨writeSize, -, hphase, rfl⟩ | ⟨writeSize, written, -, -, rfl⟩
  · exact sound_of_ring hs hpushed _ _
  · rw [hmoves.eq]
    exact ⟨hs.fd, hs.ring, hs.ring_size, hs.writeBufs, hmoves.backed⟩
  · have hbacked := hs.backed
    rw [hphase] at hbacked
    refine ⟨hs.fd, advance_valid s.ring hs.ring _, hs.ring_size, ?_, hbacked.1, hbacked.2.1⟩
    rw [length_memcpy, hs.writeBufs]
  · exact ⟨hs.fd, hs.ring, hs.ring_size, hs.writeBufs, trivial⟩

/-! What is under way -/

/-- Accepted by the device, popped, or still in the ring. -/
def onWay (s : State α) : List α := s.device ++ inFlight s ++ contents s.ring

/-- The oldest bytes that a push has to drop. -/
def dropped (s : State α) (buffer : List α) : ℕ :=
  count s.ring + buffer.length - (s.ring.maxBufferSize - 1)

theorem dropped_eq_zero {s : State α} (hs : Sound s) (buffer : List α)
    (h : decide (buffer.length > u32 (tcBufferFreeSpace s.ring)) = false) :
    dropped s buffer = 0 := by
  have hle := of_decide_eq_false h
  have hcount := count_lt s.ring hs.ring
  rw [u32_freeSpace s.ring hs.ring] at hle
  unfold dropped
  omega

/-- What one call of tc_ipc_write_data does to the bytes under way. -/
theorem writeData_drops {s t : State α} (hs : Sound s) {buffer : List α}
    (h : step s (.writeData buffer) = some t) :
    t.device = s.device ∧ inFlight t = inFlight s ∧ t.enqueued = s.enqueued ++ buffer ∧
      contents t.ring = (contents s.ring).drop (dropped s buffer) ++ buffer ∧
      (t.overwrote = false → s.overwrote = false ∧ dropped s buffer = 0) := by
  rcases step_cases hs h with ⟨buffer', ring', heq, hle, hpushed, rfl⟩ | ⟨hne, -⟩ | ⟨_, heq, -⟩ |
    ⟨_, _, heq, -⟩
  · cases heq
    have hlt : buffer.length < s.ring.maxBufferSize := by
      rw [hs.ring_size, writeRingBufferSize]
      omega
    refine ⟨rfl, rfl, rfl, hpushed.drops hs.ring hlt, ?_⟩
    intro hfalse
    obtain ⟨hbefore, hnow⟩ := Bool.or_eq_false_iff.mp hfalse
    exact ⟨hbefore, dropped_eq_zero hs buffer hnow⟩
  · exact absurd rfl (hne buffer)
  · cases heq
  · cases heq

/-- The bytes under way are an ordered part of those enqueued, and all of them as
long as nothing was overwritten. -/
structure Carries (s : State α) : Prop where
  sound : Sound s
  ordered : (onWay s).Sublist s.enqueued
  complete : s.overwrote = false → onWay s = s.enqueued

theorem carries_of_same {s t : State α} (hs : Carries s) (ht : Sound t)
    (honWay : onWay t = onWay s) (henqueued : t.enqueued = s.enqueued)
    (hoverwrote : t.overwrote = s.overwrote) : Carries t := by
  refine ⟨ht, ?_, ?_⟩
  · rw [honWay, henqueued]
    exact hs.ordered
  · intro hfalse
    rw [honWay, henqueued]
    exact hs.complete (hoverwrote ▸ hfalse)

theorem writeData_carries {s t : State α} (hs : Carries s) {buffer : List α}
    (h : step s (.writeData buffer) = some t) : Carries t := by
  obtain ⟨hdevice, hflight, henqueued, hcontents, hfalse⟩ := writeData_drops hs.sound h
  have honWay : onWay t = s.device ++ inFlight s ++
      (contents s.ring).drop (dropped s buffer) ++ buffer := by
    rw [onWay, hdevice, hflight, hcontents, ← List.append_assoc]
  refine ⟨step_sound hs.sound h, ?_, ?_⟩
  · rw [honWay, henqueued]
    refine (List.Sublist.trans ?_ hs.ordered).append_right buffer
    exact (List.drop_sublist _ _).append_left _
  · intro hnone
    obtain ⟨hbefore, hzero⟩ := hfalse hnone
    rw [honWay, henqueued, hzero, List.drop_zero, ← hs.complete hbefore]
    rfl

/-- The bytes popped are what is in `writeBufs` up to `writeSize`. -/
theorem chunk_pop {s : State α} (hs : Sound s) {writeSize : ℤ}
    (hphase : s.phase = .ready writeSize) :
    (memcpy s.writeBufs 0 ((contents s.ring).take writeSize.toNat)).take (u32 writeSize) =
      (contents s.ring).take writeSize.toNat := by
  obtain ⟨-, -, hout, hlen⟩ := pop_ok hs hphase
  have hbacked := hs.backed
  rw [hphase] at hbacked
  obtain ⟨hpos, hsize, -⟩ := hbacked
  have hbufs := hs.writeBufs
  rw [hout] at hlen
  simp only [ipcWriteSize] at hsize hbufs
  rw [memcpy_eq _ _ _ (by omega), List.take_zero, List.nil_append, u32_of_backed hpos hsize,
    List.take_left' hlen]

/-- A pop moves bytes on, but changes nothing in those that wait. -/
theorem waiting_pop {s : State α} (hs : Sound s) {writeSize : ℤ}
    (hphase : s.phase = .ready writeSize) :
    (memcpy s.writeBufs 0 ((contents s.ring).take writeSize.toNat)).take (u32 writeSize) ++
      contents (advance s.ring writeSize.toNat) = contents s.ring := by
  have hbacked := hs.backed
  rw [hphase] at hbacked
  have hle : writeSize.toNat ≤ count s.ring := by
    have havail := hbacked.2.2
    omega
  rw [chunk_pop hs hphase, contents_advance s.ring hs.ring _ hle, List.take_append_drop]

theorem step_carries {s t : State α} (hs : Carries s) {e : Event α} (haccepts : AcceptsAll s e)
    (h : step s e = some t) : Carries t := by
  have ht := step_sound hs.sound h
  rcases step_cases hs.sound h with ⟨buffer, ring', rfl, -⟩ | ⟨-, phase, hmoves⟩ |
    ⟨writeSize, -, hphase, rfl⟩ | ⟨writeSize, written, rfl, hphase, rfl⟩
  · exact writeData_carries hs h
  · have hafter := hmoves.after
    refine carries_of_same hs ht ?_ (by rw [hmoves.eq]) (by rw [hmoves.eq])
    rw [onWay, onWay, hafter, hmoves.before, hmoves.eq]
  · refine carries_of_same hs ht ?_ rfl rfl
    show s.device ++ (memcpy s.writeBufs 0 ((contents s.ring).take writeSize.toNat)).take
      (u32 writeSize) ++ contents (advance s.ring writeSize.toNat) = onWay s
    rw [List.append_assoc, waiting_pop hs.sound hphase, onWay, inFlight, hphase, List.append_nil]
  · have hbacked := hs.sound.backed
    rw [hphase] at hbacked
    obtain ⟨hpos, hsize⟩ := hbacked
    obtain rfl : writeSize = written := by
      rw [AcceptsAll, hphase] at haccepts
      cases haccepts
      rfl
    have hall : (chunk s writeSize).take writeSize.toNat = chunk s writeSize := by
      rw [chunk, u32_of_backed hpos hsize, List.take_take, Nat.min_self]
    refine carries_of_same hs ht ?_ rfl rfl
    show s.device ++ (chunk s writeSize).take writeSize.toNat ++ [] ++ contents s.ring = onWay s
    rw [hall, List.append_nil, onWay, inFlight, hphase]

/-- When the device accepts whole chunks: every pop succeeds with the size that
was seen, nothing is lost without an overwrite, an overwrite drops only the
oldest bytes of the ring, and the device stream is an ordered part of what the
clients enqueued. -/
theorem send_path_in_order (fd : ℤ) (hfd : -1 < fd) (cells : List α)
    (hcells : cells.length = writeRingBufferSize) (writeBufs : List α)
    (hbufs : writeBufs.length = ipcWriteSize) {s : State α}
    (h : Reach step AcceptsAll (start fd cells hcells writeBufs) s) :
    (∀ writeSize, s.phase = .ready writeSize →
      (tcPopBuffer s.ring (u32 writeSize)).ret = tcBufferOk ∧
        (tcPopBuffer s.ring (u32 writeSize)).out = (contents s.ring).take writeSize.toNat ∧
        ((tcPopBuffer s.ring (u32 writeSize)).out.length : ℤ) = writeSize) ∧
      (s.overwrote = false → s.device ++ inFlight s ++ contents s.ring = s.enqueued) ∧
      (∀ buffer t, step s (.writeData buffer) = some t →
        t.device = s.device ∧ inFlight t = inFlight s ∧
          contents t.ring = (contents s.ring).drop (dropped s buffer) ++ buffer) ∧
      (s.device ++ inFlight s ++ contents s.ring).Sublist s.enqueued ∧
      s.device.Sublist s.enqueued := by
  have hcarries : Carries s := h.invariant Carries
    ⟨start_sound fd hfd cells hcells writeBufs hbufs, List.Sublist.slnil, fun _ => rfl⟩
    fun _ _ _ hs hC hstep => step_carries hs hC hstep
  have hs := hcarries.sound
  refine ⟨?_, hcarries.complete, ?_, hcarries.ordered, ?_⟩
  · intro writeSize hphase
    obtain ⟨-, hret, hout, hlen⟩ := pop_ok hs hphase
    have hbacked := hs.backed
    rw [hphase] at hbacked
    have hpos := hbacked.1
    exact ⟨hret, hout, by omega⟩
  · intro buffer t hstep
    obtain ⟨hdevice, hflight, -, hcontents, -⟩ := writeData_drops hs hstep
    exact ⟨hdevice, hflight, hcontents⟩
  · refine List.Sublist.trans ?_ hcarries.ordered
    rw [onWay, List.append_assoc]
    exact List.sublist_append_left _ _

theorem send_path_in_order_three :
    ∃ s, runFrom (guarded step AcceptsAll)
        (start 3 (List.replicate writeRingBufferSize (0 : UInt8)) List.length_replicate
          (List.replicate ipcWriteSize 0))
        [.writeData [1, 2, 3], .measure, .status 1, .writeData [4], .pop, .write 3] = some s ∧
      s.device = [1, 2, 3] ∧ s.device.Sublist s.enqueued :=
  have hrun : (runFrom (guarded step AcceptsAll)
      (start 3 (List.replicate writeRingBufferSize (0 : UInt8)) List.length_replicate
        (List.replicate ipcWriteSize 0))
      [.writeData [1, 2, 3], .measure, .status 1, .writeData [4], .pop, .write 3]).map
        (fun s => s.device) = some [1, 2, 3] := by
    decide +kernel
  have ⟨s, hs, hdevice⟩ := Option.map_eq_some_iff.mp hrun
  ⟨s, hs, hdevice, (send_path_in_order 3 (by decide) _ _ _ List.length_replicate
    (reach_of_guarded _ hs)).2.2.2.2⟩

end TcIpcCtrl.WritePath
