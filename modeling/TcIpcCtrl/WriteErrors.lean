import Mathlib.Data.List.Forall2
import TcIpcCtrl.WritePath

/-!
Device errors on the send path. WriteThread pops a chunk before it knows how
much of it the device will take, and only logs what the device has refused. So
each write that falls short leaves a gap: the rest of its chunk is gone, while
everything else that was enqueued still goes out, once and in order.
-/
namespace TcIpcCtrl.WriteErrors

open CInt Cells Runs BoundedQueue RingBuffer RingContents RingEffects
open WritePath hiding step

variable {α : Type*}

/-- The steps of the send path, for calls of tc_ipc_write_data of any size that fits
into the ring. -/
def step (s : State α) : Event α → Option (State α)
  | .writeData buffer =>
    if buffer.length ≤ u32 (tcBufferFreeSpace s.ring) then
      some { s with
        ring := (tcIpcWriteData s.ring buffer).ring
        enqueued := s.enqueued ++ buffer }
    else none
  | e => WritePath.step s e

/-- A chunk as the device has taken it. -/
structure Chunk (α : Type*) where
  accepted : List α
  skipped : List α

def Chunk.bytes (c : Chunk α) : List α := c.accepted ++ c.skipped

/-- The device has the accepted parts; what was enqueued is made up of the chunks,
the bytes popped, and those in the ring. -/
structure Accounts (s : State α) (chunks : List (Chunk α)) : Prop where
  device : s.device = chunks.flatMap Chunk.accepted
  enqueued : s.enqueued = chunks.flatMap Chunk.bytes ++ (inFlight s ++ contents s.ring)

/-- One call of ipc_write by WriteThread and the `ret` it compares with `writeSize`. -/
structure Write where
  writeSize : ℤ
  ret : ℤ
deriving DecidableEq

/-- The call that a step makes, if it is a write. -/
def writeIn (s : State α) : Event α → List Write
  | .write written =>
    match s.phase with
    | .filled writeSize => [⟨writeSize, ipcWrite s.fd (chunk s writeSize) written⟩]
    | _ => []
  | _ => []

/-- What has become of the chunk that `w` was given: the device has the first `ret` of its
`writeSize` bytes, and nothing of it is lost if and only if the two are equal. -/
structure Answers (w : Write) (c : Chunk α) : Prop where
  size : (c.bytes.length : ℤ) = w.writeSize
  accepted : c.accepted.length = w.ret.toNat
  complete : c.skipped = [] ↔ w.ret = w.writeSize

/-! One step -/

/-- A step that leaves the bytes not yet written as they are. -/
theorem accounts_of_same {s t : State α} {chunks : List (Chunk α)} (ha : Accounts s chunks)
    (hdevice : t.device = s.device) (henqueued : t.enqueued = s.enqueued)
    (hwaiting : inFlight t ++ contents t.ring = inFlight s ++ contents s.ring) :
    Accounts t chunks :=
  ⟨hdevice.trans ha.device, by rw [henqueued, ha.enqueued, hwaiting]⟩

/-- A call that fits appends its buffer to the ring. -/
theorem writeData_appends {s t : State α} (hs : Sound s) {buffer : List α}
    (h : step s (.writeData buffer) = some t) :
    ∃ ring', Pushed s.ring ring' buffer ∧ contents ring' = contents s.ring ++ buffer ∧
      t = { s with ring := ring', enqueued := s.enqueued ++ buffer } := by
  by_cases hfits : buffer.length ≤ u32 (tcBufferFreeSpace s.ring)
  · rw [step, if_pos hfits] at h
    have hcount := count_lt s.ring hs.ring
    have hzero := dropped_eq_zero hs buffer (decide_eq_false (Nat.not_lt.mpr hfits))
    rw [u32_freeSpace s.ring hs.ring] at hfits
    have hlt : buffer.length < s.ring.maxBufferSize := by omega
    have hpushed := tcIpcWriteData_pushed s.ring hs.ring buffer hlt
    have hcontents := hpushed.drops hs.ring hlt
    unfold dropped at hzero
    rw [hzero, List.drop_zero] at hcontents
    exact ⟨_, hpushed, hcontents, (Option.some.inj h).symm⟩
  · rw [step, if_neg hfits] at h
    cases h

theorem writeData_accounts {s t : State α} (hs : Sound s) {chunks : List (Chunk α)}
    (ha : Accounts s chunks) {buffer : List α} (h : step s (.writeData buffer) = some t) :
    Sound t ∧ Accounts t chunks := by
  obtain ⟨ring', hpushed, hcontents, rfl⟩ := writeData_appends hs h
  refine ⟨sound_of_ring hs hpushed _ _, ha.device, ?_⟩
  show s.enqueued ++ buffer = _ ++ (inFlight s ++ contents ring')
  rw [hcontents, ha.enqueued]
  simp only [List.append_assoc]

theorem moves_accounts {s t : State α} {chunks : List (Chunk α)} (ha : Accounts s chunks)
    {phase : Phase} (hmoves : Moves s t phase) : Accounts t chunks := by
  have hafter := hmoves.after
  refine accounts_of_same ha (by rw [hmoves.eq]) (by rw [hmoves.eq]) ?_
  rw [hafter, hmoves.before, hmoves.eq]

theorem pop_accounts {s t : State α} (hs : Sound s) {chunks : List (Chunk α)}
    (ha : Accounts s chunks) (h : WritePath.step s .pop = some t) : Accounts t chunks := by
  rcases step_cases hs h with ⟨_, _, heq, -⟩ | ⟨-, phase, hmoves⟩ | ⟨writeSize, -, hphase, rfl⟩ |
    ⟨_, _, heq, -⟩
  · cases heq
  · exact moves_accounts ha hmoves
  · refine accounts_of_same ha rfl rfl ?_
    show (memcpy s.writeBufs 0 ((contents s.ring).take writeSize.toNat)).take (u32 writeSize) ++
      contents (advance s.ring writeSize.toNat) = inFlight s ++ contents s.ring
    rw [waiting_pop hs hphase, inFlight, hphase, List.nil_append]
  · cases heq

theorem answers_split {bytes : List α} {writeSize written : ℤ}
    (hlen : (bytes.length : ℤ) = writeSize) (hpos : 0 < writeSize) (hle : written ≤ writeSize) :
    Answers ⟨writeSize, written⟩ ⟨bytes.take written.toNat, bytes.drop written.toNat⟩ := by
  refine ⟨?_, ?_, ?_⟩
  · rw [Chunk.bytes, List.take_append_drop]
    exact hlen
  · change (bytes.take written.toNat).length = written.toNat
    rw [List.length_take]
    omega
  · change bytes.drop written.toNat = [] ↔ written = writeSize
    rw [List.drop_eq_nil_iff]
    omega

/-- What a write adds to the account. -/
theorem write_accounts {s t : State α} (hs : Sound s) {chunks : List (Chunk α)}
    (ha : Accounts s chunks) {written : ℤ} (h : WritePath.step s (.write written) = some t) :
    ∃ w c, writeIn s (.write written) = [w] ∧ Answers w c ∧ Accounts t (chunks ++ [c]) := by
  obtain ⟨writeSize, hphase, rfl⟩ := write_reaches_device hs h
  have hbacked := hs.backed
  rw [hphase] at hbacked
  obtain ⟨hpos, hsize⟩ := hbacked
  have hrange : written ≤ writeSize := by
    by_contra hover
    simp only [WritePath.step, hphase] at h
    rw [if_neg (fun hboth => hover hboth.2)] at h
    cases h
  have hflight : inFlight s = chunk s writeSize := by rw [inFlight, hphase]
  have hlen := length_chunk hs hpos hsize
  refine ⟨⟨writeSize, written⟩,
    ⟨(chunk s writeSize).take written.toNat, (chunk s writeSize).drop written.toNat⟩, ?_,
    answers_split (by omega) hpos hrange, ?_, ?_⟩
  · simp only [writeIn, hphase, ipcWrite_eq hs hphase]
  · rw [List.flatMap_append, ← ha.device]
    simp only [List.flatMap_cons, List.flatMap_nil, List.append_nil]
  · show s.enqueued = _ ++ ([] ++ contents s.ring)
    rw [ha.enqueued, hflight, List.flatMap_append]
    simp only [List.flatMap_cons, List.flatMap_nil, List.append_nil, List.nil_append, Chunk.bytes,
      List.take_append_drop, List.append_assoc]

/-- What every step but a write keeps, and what a write adds. -/
theorem step_accounts {s t : State α} (hs : Sound s) {chunks : List (Chunk α)}
    (ha : Accounts s chunks) {e : Event α} (h : step s e = some t) :
    Sound t ∧ ∃ more, Accounts t (chunks ++ more) ∧ List.Forall₂ Answers (writeIn s e) more := by
  cases e with
  | writeData buffer =>
    obtain ⟨ht, hta⟩ := writeData_accounts hs ha h
    exact ⟨ht, [], by rwa [List.append_nil], .nil⟩
  | measure =>
    have h' : WritePath.step s .measure = some t := h
    obtain ⟨phase, hmoves⟩ := measure_moves hs h'
    exact ⟨step_sound hs h', [], by rw [List.append_nil]; exact moves_accounts ha hmoves, .nil⟩
  | status answer =>
    have h' : WritePath.step s (.status answer) = some t := h
    obtain ⟨phase, hmoves⟩ := status_moves hs h'
    exact ⟨step_sound hs h', [], by rw [List.append_nil]; exact moves_accounts ha hmoves, .nil⟩
  | pop =>
    have h' : WritePath.step s .pop = some t := h
    exact ⟨step_sound hs h', [], by rw [List.append_nil]; exact pop_accounts hs ha h', .nil⟩
  | write written =>
    have h' : WritePath.step s (.write written) = some t := h
    obtain ⟨w, c, hw, hanswers, hta⟩ := write_accounts hs ha h'
    rw [hw]
    exact ⟨step_sound hs h', [c], hta, .cons hanswers .nil⟩

/-! Whole runs -/

theorem run_accounts {s t : State α} (hs : Sound s) {chunks : List (Chunk α)}
    (ha : Accounts s chunks) (es : List (Event α)) (hrun : runFrom step s es = some t) :
    ∃ more, Accounts t (chunks ++ more) ∧
      List.Forall₂ Answers (emitted step writeIn s es) more := by
  induction es generalizing s chunks with
  | nil =>
    obtain rfl : s = t := Option.some.inj hrun
    exact ⟨[], by rwa [List.append_nil], .nil⟩
  | cons e es ih =>
    obtain ⟨u, hu, hrest⟩ := Option.bind_eq_some_iff.mp hrun
    obtain ⟨hsu, first, hfirst, hanswers⟩ := step_accounts hs ha hu
    obtain ⟨more, hmore, hlater⟩ := ih hsu hfirst hrest
    refine ⟨first ++ more, by rwa [← List.append_assoc], ?_⟩
    rw [emitted_cons hu]
    exact List.rel_append hanswers hlater

theorem accepted_sublist (chunks : List (Chunk α)) :
    (chunks.flatMap Chunk.accepted).Sublist (chunks.flatMap Chunk.bytes) := by
  induction chunks with
  | nil => exact List.Sublist.slnil
  | cons c chunks ih =>
    rw [List.flatMap_cons, List.flatMap_cons]
    exact (List.sublist_append_left c.accepted c.skipped).append ih

/-- Where only the last write fell short, the accepted parts are a front part. -/
theorem prefix_accepted {writes : List Write} {chunks : List (Chunk α)}
    (hanswers : List.Forall₂ Answers writes chunks)
    (h : ∀ w ∈ writes.dropLast, w.ret = w.writeSize) :
    chunks.flatMap Chunk.accepted <+: chunks.flatMap Chunk.bytes := by
  induction hanswers with
  | nil => exact List.nil_prefix
  | @cons w c writes chunks hfirst hrest ih =>
    cases hrest with
    | nil =>
      simp only [List.flatMap_cons, List.flatMap_nil, List.append_nil]
      exact List.prefix_append _ _
    | @cons w' c' writes chunks _ _ =>
      have hcomplete : w.ret = w.writeSize := h w List.mem_cons_self
      have hfull : c.bytes = c.accepted := by
        rw [Chunk.bytes, hfirst.complete.mpr hcomplete, List.append_nil]
      show c.accepted ++ (c' :: chunks).flatMap Chunk.accepted <+:
        c.bytes ++ (c' :: chunks).flatMap Chunk.bytes
      rw [hfull]
      refine (List.prefix_append_right_inj _).mpr (ih fun v hv => h v ?_)
      exact List.mem_cons_of_mem w hv

/-- In every run the device has the enqueued bytes in order, without the ends that it
refused: one chunk for each ipc_write, `writeSize` bytes long, of which it has the first
`ret`. While every ipc_write but the last has taken all, they are a prefix. -/
theorem device_skips_refused (fd : ℤ) (hfd : -1 < fd) (cells : List α)
    (hcells : cells.length = writeRingBufferSize) (writeBufs : List α)
    (hbufs : writeBufs.length = ipcWriteSize) (es : List (Event α)) {s : State α}
    (hrun : runFrom step (start fd cells hcells writeBufs) es = some s) :
    ∃ chunks : List (Chunk α),
      List.Forall₂ Answers (emitted step writeIn (start fd cells hcells writeBufs) es) chunks ∧
      s.device = chunks.flatMap Chunk.accepted ∧
      s.enqueued = chunks.flatMap Chunk.bytes ++ (inFlight s ++ contents s.ring) ∧
      s.device.Sublist s.enqueued ∧
      ((∀ w ∈ (emitted step writeIn (start fd cells hcells writeBufs) es).dropLast,
        w.ret = w.writeSize) → s.device <+: s.enqueued) := by
  have hnone : Accounts (start fd cells hcells writeBufs) [] := ⟨rfl, rfl⟩
  obtain ⟨chunks, ha, hanswers⟩ :=
    run_accounts (start_sound fd hfd cells hcells writeBufs hbufs) hnone es hrun
  rw [List.nil_append] at ha
  refine ⟨chunks, hanswers, ha.device, ha.enqueued, ?_, fun hgap => ?_⟩
  · rw [ha.device, ha.enqueued]
    exact (accepted_sublist chunks).trans (List.sublist_append_left _ _)
  · rw [ha.device, ha.enqueued]
    exact (prefix_accepted hanswers hgap).trans (List.prefix_append _ _)

/-- Three bytes of which the device takes one, then one more byte. -/
def shortWrite : List (Event UInt8) :=
  [.writeData [1, 2, 3], .measure, .status 1, .pop, .write 1, .writeData [4], .measure, .status 1,
    .pop, .write 1]

theorem shortWrite_runs :
    (runFrom step (start 3 (List.replicate writeRingBufferSize 0) List.length_replicate
      (List.replicate ipcWriteSize 0)) shortWrite).map (fun s => (s.device, s.enqueued)) =
        some ([1, 4], [1, 2, 3, 4]) := by
  decide +kernel

/-- Bytes 2 and 3 are gone when byte 4 is sent. -/
theorem popped_bytes_are_skipped :
    ¬ ∀ (fd : ℤ) (cells : List UInt8) (hcells : cells.length = writeRingBufferSize)
      (writeBufs : List UInt8) (es : List (Event UInt8)) (s : State UInt8),
      -1 < fd → writeBufs.length = ipcWriteSize →
      runFrom step (start fd cells hcells writeBufs) es = some s → s.device <+: s.enqueued := by
  intro hclaim
  obtain ⟨s, hrun, hbytes⟩ := Option.map_eq_some_iff.mp shortWrite_runs
  have hprefix := hclaim 3 _ _ _ _ s (by decide) List.length_replicate hrun
  rw [Prod.mk.injEq] at hbytes
  rw [hbytes.1, hbytes.2] at hprefix
  exact absurd hprefix (by decide)

theorem shortWrite_writes :
    emitted step writeIn (start 3 (List.replicate writeRingBufferSize 0) List.length_replicate
      (List.replicate ipcWriteSize 0)) shortWrite = [⟨3, 1⟩, ⟨1, 1⟩] := by
  decide +kernel

theorem device_skips_refused_short :
    ∃ first last : Chunk UInt8,
      first.bytes.length = 3 ∧ first.accepted.length = 1 ∧ first.skipped ≠ [] ∧
      last.bytes.length = 1 ∧ last.skipped = [] ∧ [1, 4] = first.accepted ++ last.accepted := by
  obtain ⟨s, hrun, hbytes⟩ := Option.map_eq_some_iff.mp shortWrite_runs
  obtain ⟨chunks, hanswers, hdevice, -⟩ :=
    device_skips_refused 3 (by decide) _ _ _ List.length_replicate shortWrite hrun
  rw [Prod.mk.injEq] at hbytes
  rw [hbytes.1] at hdevice
  rw [shortWrite_writes] at hanswers
  cases hanswers with
  | @cons _ first _ _ hfirst hrest =>
    cases hrest with
    | @cons _ last _ _ hlast hnone =>
      cases hnone
      refine ⟨first, last, ?_, hfirst.accepted, ?_, ?_, hlast.complete.mpr rfl, ?_⟩
      · exact Int.ofNat.inj hfirst.size
      · exact fun hskipped => absurd (hfirst.complete.mp hskipped) (by decide)
      · exact Int.ofNat.inj hlast.size
      · rw [hdevice]
        simp only [List.flatMap_cons, List.flatMap_nil, List.append_nil]

end TcIpcCtrl.WriteErrors
