import TcIpcCtrl.WritePath

/-!
That WriteThread gets rid of what it has. Whatever happened before, while no client
calls and the device is ready and takes whole chunks, the number of steps that are
left is known, and when they have been made everything under way has reached the
device.
-/
namespace TcIpcCtrl.WriteDrain

open CInt Cells Runs BoundedQueue RingBuffer RingContents RingEffects WritePath

variable {α : Type*}

/-- A step that gets on with the bytes: no client, no poll that finds nothing, no answer
but the one that the device is ready, and whole chunks. -/
def GetsOn (s : State α) : Event α → Prop
  | .writeData _ => False
  | .measure => 0 < tcBufferDataAvailable s.ring
  | .status answer => answer = 1
  | .pop => True
  | .write written => s.phase = .filled written

instance (s : State α) : (e : Event α) → Decidable (GetsOn s e)
  | .writeData _ => inferInstanceAs (Decidable False)
  | .measure => inferInstanceAs (Decidable (_ < _))
  | .status _ => inferInstanceAs (Decidable (_ = _))
  | .pop => inferInstanceAs (Decidable True)
  | .write _ => inferInstanceAs (Decidable (_ = _))

/-- How many chunks `n` bytes make. -/
def chunks (n : ℕ) : ℕ := (n + (ipcWriteSize - 1)) / ipcWriteSize

theorem chunks_eq_zero {n : ℕ} : chunks n = 0 ↔ n = 0 := by
  simp only [chunks, ipcWriteSize]
  omega

theorem chunks_sub {n size : ℕ} (hpos : 0 < n) (hsize : size = min n ipcWriteSize) :
    chunks (n - size) + 1 = chunks n := by
  simp only [chunks, ipcWriteSize] at hsize ⊢
  omega

/-- Four steps for each chunk, less those that have been made for the next one. -/
def stepsLeft (s : State α) : ℕ :=
  match s.phase with
  | .sleeping => 4 * chunks (count s.ring)
  | .sized writeSize => 4 * chunks (count s.ring - writeSize.toNat) + 3
  | .ready writeSize => 4 * chunks (count s.ring - writeSize.toNat) + 2
  | .filled _ => 4 * chunks (count s.ring) + 1

/-! What the steps do -/

theorem measure_eq {s t : State α} (hs : Sound s) (hpos : 0 < tcBufferDataAvailable s.ring)
    (h : step s .measure = some t) :
    s.phase = .sleeping ∧ ∃ writeSize, t = { s with phase := .sized writeSize } ∧
      writeSize.toNat = min (count s.ring) ipcWriteSize := by
  rw [dataAvailable_eq s.ring hs.ring] at hpos
  by_cases hsleeping : s.phase = .sleeping
  · have hmin : min (count s.ring : ℤ) ipcWriteSize ≠ 0 := by
      have hsize : (0 : ℤ) < ipcWriteSize := by decide
      omega
    rw [step, if_pos hsleeping, dataAvailable_eq s.ring hs.ring] at h
    simp only [if_pos hmin, Option.some.injEq] at h
    exact ⟨hsleeping, _, h.symm, by omega⟩
  · rw [step, if_neg hsleeping] at h
    cases h

theorem status_eq {s t : State α} (hs : Sound s) (h : step s (.status 1) = some t) :
    ∃ writeSize, s.phase = .sized writeSize ∧ t = { s with phase := .ready writeSize } := by
  cases hphase : s.phase with
  | sized writeSize =>
    have hready : ipcStatus s.fd 1 = 1 := by rw [ipcStatus, if_pos hs.fd]
    simp only [step, hphase, if_pos hready, Option.some.injEq] at h
    exact ⟨writeSize, rfl, h.symm⟩
  | _ => simp [step, hphase] at h

theorem pop_eq {s t : State α} (hs : Sound s) (h : step s .pop = some t) :
    ∃ n, 0 < n ∧ s.phase = .ready n ∧ t.phase = .filled n ∧ t.device = s.device ∧
      count t.ring + n.toNat = count s.ring ∧ (inFlight t).length = n.toNat ∧
      onWay t = onWay s := by
  have hbacked := hs.backed
  have hsound := step_sound hs h
  cases hphase : s.phase with
  | ready writeSize =>
    have hwaiting := waiting_pop hs hphase
    obtain ⟨hring, -, hout, -⟩ := pop_ok hs hphase
    rw [hphase] at hbacked
    obtain ⟨hpos, hsize, havail⟩ := hbacked
    simp only [step, hphase, hring, hout, Option.some.injEq] at h
    rw [← h] at hsound ⊢
    refine ⟨writeSize, hpos, rfl, rfl, rfl, ?_, length_chunk hsound hpos hsize, ?_⟩
    · change count (advance s.ring writeSize.toNat) + writeSize.toNat = count s.ring
      rw [count_advance s.ring hs.ring _ (by omega)]
      omega
    · change s.device ++ (memcpy s.writeBufs 0 _).take (u32 writeSize) ++
        contents (advance s.ring writeSize.toNat) = onWay s
      rw [List.append_assoc, hwaiting, onWay, inFlight, hphase, List.append_nil]
  | _ => simp [step, hphase] at h

theorem write_eq {s t : State α} (hs : Sound s) {written : ℤ} (haccepts : s.phase = .filled written)
    (h : step s (.write written) = some t) :
    0 < written ∧ (inFlight s).length = written.toNat ∧ inFlight t = [] ∧ t.ring = s.ring ∧
      t.phase = .sleeping ∧ t.device = s.device ++ inFlight s := by
  have hbacked := hs.backed
  rw [haccepts] at hbacked
  obtain ⟨writeSize, hphase, rfl⟩ := write_reaches_device hs h
  obtain rfl : writeSize = written := by
    rw [haccepts] at hphase
    cases hphase
    rfl
  have hlen := length_chunk hs hbacked.1 hbacked.2
  have hflight : inFlight s = chunk s writeSize := by rw [inFlight, hphase]
  have hall : (chunk s writeSize).take writeSize.toNat = chunk s writeSize := by
    rw [List.take_of_length_le hlen.le]
  refine ⟨hbacked.1, ?_, rfl, rfl, rfl, ?_⟩
  · rw [hflight]
    exact hlen
  · change s.device ++ (chunk s writeSize).take writeSize.toNat = _
    rw [hall, hflight]

/-- Each step leaves one less, and moves nothing out of order. -/
theorem getsOn_lowers {s t : State α} (hs : Sound s) {e : Event α} (hon : GetsOn s e)
    (h : step s e = some t) : stepsLeft t + 1 = stepsLeft s ∧ onWay t = onWay s := by
  cases e with
  | writeData buffer => exact hon.elim
  | measure =>
    obtain ⟨hsleeping, writeSize, rfl, hsize⟩ := measure_eq hs hon h
    have hpos : 0 < count s.ring := by
      have havail : 0 < tcBufferDataAvailable s.ring := hon
      rw [dataAvailable_eq s.ring hs.ring] at havail
      omega
    have hchunks := chunks_sub hpos hsize
    constructor
    · rw [stepsLeft, stepsLeft, hsleeping]
      change 4 * chunks (count s.ring - writeSize.toNat) + 3 + 1 = 4 * chunks (count s.ring)
      omega
    · rw [onWay, onWay, inFlight, inFlight, hsleeping]
  | status answer =>
    obtain rfl : answer = 1 := hon
    obtain ⟨writeSize, hsized, rfl⟩ := status_eq hs h
    constructor
    · rw [stepsLeft, stepsLeft, hsized]
    · rw [onWay, onWay, inFlight, inFlight, hsized]
  | pop =>
    obtain ⟨n, -, hready, hfilled, -, hcount, -, honWay⟩ := pop_eq hs h
    refine ⟨?_, honWay⟩
    have hleft : count s.ring - n.toNat = count t.ring := by omega
    rw [stepsLeft, stepsLeft, hready, hfilled]
    change 4 * chunks (count t.ring) + 1 + 1 = 4 * chunks (count s.ring - n.toNat) + 2
    rw [hleft]
  | write written =>
    obtain ⟨-, -, hempty, hring, hsleeping, hdevice⟩ := write_eq hs hon h
    have hphase : s.phase = .filled written := hon
    constructor
    · rw [stepsLeft, stepsLeft, hsleeping, hphase, hring]
    · rw [onWay, onWay, hempty, hring, hdevice, List.append_nil]

/-! When no step is left -/

theorem sleeps_of_stepsLeft {s : State α} (hs : Sound s) (h : stepsLeft s = 0) :
    s.phase = .sleeping ∧ contents s.ring = [] := by
  cases hphase : s.phase with
  | sleeping =>
    simp only [stepsLeft, hphase] at h
    have hzero : count s.ring = 0 := chunks_eq_zero.mp (by omega)
    refine ⟨rfl, List.length_eq_zero_iff.mp ?_⟩
    rw [length_contents s.ring hs.ring, hzero]
  | sized writeSize => simp [stepsLeft, hphase] at h
  | ready writeSize => simp [stepsLeft, hphase] at h
  | filled writeSize => simp [stepsLeft, hphase] at h

/-- In every phase but sleep with an empty ring, some step gets on. -/
theorem exists_getsOn {s : State α} (hs : Sound s) (hleft : stepsLeft s ≠ 0) :
    ∃ e, GetsOn s e ∧ (step s e).isSome = true := by
  have hbacked := hs.backed
  cases hphase : s.phase with
  | sleeping =>
    have hpos : 0 < tcBufferDataAvailable s.ring := by
      rw [dataAvailable_eq s.ring hs.ring]
      by_contra hnone
      have hzero : count s.ring = 0 := by omega
      simp only [stepsLeft, hphase, hzero] at hleft
      exact hleft rfl
    exact ⟨.measure, hpos, by rw [step, if_pos hphase]; rfl⟩
  | sized writeSize => exact ⟨.status 1, rfl, by simp only [step, hphase, Option.isSome_some]⟩
  | ready writeSize => exact ⟨.pop, trivial, by simp only [step, hphase, Option.isSome_some]⟩
  | filled writeSize =>
    rw [hphase] at hbacked
    have hrange : -1 ≤ writeSize ∧ writeSize ≤ writeSize := by
      have hpos := hbacked.1
      omega
    refine ⟨.write writeSize, hphase, ?_⟩
    simp only [step, hphase, if_pos hrange, Option.isSome_some]

theorem stepsLeft_le (s : State α) : stepsLeft s ≤ 4 * chunks (count s.ring) + 3 := by
  have hmono : ∀ n, chunks (count s.ring - n) ≤ chunks (count s.ring) :=
    fun n => Nat.div_le_div_right (by omega)
  cases hphase : s.phase with
  | sleeping => simp only [stepsLeft, hphase]; omega
  | sized writeSize =>
    have hle := hmono writeSize.toNat
    simp only [stepsLeft, hphase]
    omega
  | ready writeSize =>
    have hle := hmono writeSize.toNat
    simp only [stepsLeft, hphase]
    omega
  | filled writeSize => simp only [stepsLeft, hphase]; omega

theorem stuck_iff {s : State α} (hs : Sound s) :
    (∀ e, guarded step GetsOn s e = none) ↔ stepsLeft s = 0 := by
  constructor
  · intro hstuck
    by_contra hleft
    obtain ⟨e, hon, hsome⟩ := exists_getsOn hs hleft
    have hnone := hstuck e
    rw [guarded, if_pos hon] at hnone
    rw [hnone] at hsome
    cases hsome
  · intro hzero e
    by_cases hon : GetsOn s e
    · rw [guarded, if_pos hon]
      cases hstep : step s e with
      | none => rfl
      | some t =>
        have hone := (getsOn_lowers hs hon hstep).1
        omega
    · rw [guarded, if_neg hon]

/-- From every reachable state, failed writes and overwrites before it included: the
steps that get on are exactly `stepsLeft` in number, at most four for each chunk and
three for the one begun, and when they have been made the device has got exactly what
was under way, in order. -/
theorem writer_drains (fd : ℤ) (hfd : -1 < fd) (cells : List α)
    (hcells : cells.length = writeRingBufferSize) (writeBufs : List α)
    (hbufs : writeBufs.length = ipcWriteSize) {s : State α}
    (h : Reach step Free (start fd cells hcells writeBufs) s) :
    stepsLeft s ≤ 4 * chunks (count s.ring) + 3 ∧
      ∀ es t, runFrom (guarded step GetsOn) s es = some t →
        es.length + stepsLeft t = stepsLeft s ∧
          ((∀ e, guarded step GetsOn t e = none) ↔ es.length = stepsLeft s) ∧
          (es.length = stepsLeft s → t.device = s.device ++ inFlight s ++ contents s.ring) := by
  have hs : Sound s := h.invariant Sound (start_sound fd hfd cells hcells writeBufs hbufs)
    fun _ _ _ hu _ hstep => step_sound hu hstep
  refine ⟨stepsLeft_le s, fun es t hrun => ?_⟩
  obtain ⟨⟨ht, honWay⟩, hlen⟩ := length_add_variant
    (fun u => Sound u ∧ onWay u = onWay s) stepsLeft
    (fun u e v ⟨hu, hsame⟩ hon hstep =>
      have ⟨hone, hmoved⟩ := getsOn_lowers hu hon hstep
      ⟨⟨step_sound hu hstep, hmoved.trans hsame⟩, hone⟩)
    ⟨hs, rfl⟩ es hrun
  refine ⟨hlen, (stuck_iff ht).trans (by omega), fun hdone => ?_⟩
  obtain ⟨hsleeping, hempty⟩ := sleeps_of_stepsLeft ht (by omega)
  rw [onWay, onWay, inFlight, hsleeping, hempty, List.append_nil, List.append_nil] at honWay
  exact honWay

/-- A client has called, the device has refused, and the client has called again. -/
def refused : List (Event UInt8) :=
  [.writeData [1, 2, 3], .measure, .status 1, .pop, .write (-1), .writeData [4, 5]]

theorem writer_drains_refused :
    ∃ s t, runFrom step (start 3 (List.replicate writeRingBufferSize (0 : UInt8))
        List.length_replicate (List.replicate ipcWriteSize 0)) refused = some s ∧
      runFrom (guarded step GetsOn) s [.measure, .status 1, .pop, .write 2] = some t ∧
      t.device = s.device ++ inFlight s ++ contents s.ring := by
  have hrun : ((runFrom step (start 3 (List.replicate writeRingBufferSize (0 : UInt8))
      List.length_replicate (List.replicate ipcWriteSize 0)) refused).bind fun s =>
        (runFrom (guarded step GetsOn) s [.measure, .status 1, .pop, .write 2]).map fun _ =>
          stepsLeft s) = some 4 := by
    decide +kernel
  obtain ⟨s, hs, hrun⟩ := Option.bind_eq_some_iff.mp hrun
  obtain ⟨t, ht, hfour⟩ := Option.map_eq_some_iff.mp hrun
  exact ⟨s, t, hs, ht, ((writer_drains 3 (by decide) _ _ _ List.length_replicate
    (reach_of_runFrom _ hs)).2 _ t ht).2.2 hfour.symm⟩

end TcIpcCtrl.WriteDrain
