import TcIpcCtrl.PacedLink
import TcIpcCtrl.WriteDrain

/-!
How much a client may have under way. With at most 512 bytes between the call of
tc_package_send and the decoder, the traffic is paced whatever the order in which
the threads run, and once no more is sent, everything is delivered within a
bounded number of their steps, polls that find nothing aside.
-/
namespace TcIpcCtrl.LinkWindow

open CInt Cells Package Runs RingBuffer RingContents RingEffects TcIpcCtrl.Parser RoundTrip Delivery
  PacedLink
open ReceivePath (Receiver)
open WritePath (Phase inFlight writeRingBufferSize ipcWriteSize)
open WriteDrain (measure_eq status_eq pop_eq write_eq)
open ReadRing (readRingBufferSize)

/-- The bytes of all frames that the decoder has not taken yet. -/
def underWay (l : Link) : ℕ :=
  count l.sender.ring + (inFlight l.sender).length + (line l).length + count l.receiver.readRing

/-- No more than `ipcWriteSize` bytes are under way, the device takes whole chunks, and
a read returns all that waits. -/
def Windowed (l : Link) : Event → Prop
  | .send call => underWay l + call.frame.length ≤ ipcWriteSize
  | .writer (.writeData _) => True
  | .writer .measure => True
  | .writer (.status _) => True
  | .writer .pop => True
  | .writer (.write written) => l.sender.phase = .filled written
  | .carry size => (line l).length ≤ size
  | .look => True
  | .turn => True

/-- A step that gets something done: no client, no poll that finds nothing, no answer
but the one that the device is ready. -/
def Busy (l : Link) : Event → Prop
  | .send _ => False
  | .writer (.writeData _) => False
  | .writer .measure => 0 < tcBufferDataAvailable l.sender.ring
  | .writer (.status answer) => answer = 1
  | .writer .pop => True
  | .writer (.write written) => l.sender.phase = .filled written
  | .carry size => (line l).length ≤ size
  | .look => 0 < tcBufferDataAvailable l.receiver.readRing
  | .turn => True

instance (l : Link) : (e : Event) → Decidable (Windowed l e)
  | .send _ => inferInstanceAs (Decidable (_ ≤ _))
  | .writer (.writeData _) => inferInstanceAs (Decidable True)
  | .writer .measure => inferInstanceAs (Decidable True)
  | .writer (.status _) => inferInstanceAs (Decidable True)
  | .writer .pop => inferInstanceAs (Decidable True)
  | .writer (.write _) => inferInstanceAs (Decidable (_ = _))
  | .carry _ => inferInstanceAs (Decidable (_ ≤ _))
  | .look => inferInstanceAs (Decidable True)
  | .turn => inferInstanceAs (Decidable True)

instance (l : Link) : (e : Event) → Decidable (Busy l e)
  | .send _ => inferInstanceAs (Decidable False)
  | .writer (.writeData _) => inferInstanceAs (Decidable False)
  | .writer .measure => inferInstanceAs (Decidable (_ < _))
  | .writer (.status _) => inferInstanceAs (Decidable (_ = _))
  | .writer .pop => inferInstanceAs (Decidable True)
  | .writer (.write _) => inferInstanceAs (Decidable (_ = _))
  | .carry _ => inferInstanceAs (Decidable (_ ≤ _))
  | .look => inferInstanceAs (Decidable (_ < _))
  | .turn => inferInstanceAs (Decidable True)

theorem Busy.windowed {l : Link} {e : Event} (h : Busy l e) : Windowed l e := by
  cases e with
  | send call => exact h.elim
  | writer e =>
    cases e with
    | write written => exact h
    | _ => trivial
  | carry size => exact h
  | look => trivial
  | turn => trivial

/-! The window -/

structure Light (l : Link) : Prop where
  steady : Steady l
  le : underWay l ≤ ipcWriteSize

theorem underWay_eq {l : Link} (hl : Steady l) :
    (stream l.sent).length = l.receiver.taken.length + underWay l := by
  have hring := length_contents l.sender.ring hl.sender.sound.ring
  have hread := length_contents l.receiver.readRing hl.receiver.tracks.sound.ring
  rw [hl.bytes]
  simp only [List.length_append, hring, hread, underWay]
  omega

theorem paced_of_windowed {l : Link} (hl : Light l) {e : Event} (h : Windowed l e) : Paced l e := by
  have hle := hl.le
  have hv := hl.steady.sender.sound.ring
  have hv' := hl.steady.receiver.tracks.sound.ring
  have hsize := hl.steady.sender.sound.ring_size
  have hsize' := hl.steady.receiver.tracks.sound.ring_size
  simp only [underWay, ipcWriteSize] at hle
  simp only [writeRingBufferSize] at hsize
  simp only [readRingBufferSize] at hsize'
  cases e with
  | send call =>
    change (call.frame.length : ℤ) ≤ tcBufferFreeSpace l.sender.ring
    simp only [Windowed, underWay, ipcWriteSize] at h
    rw [freeSpace_eq _ hv]
    omega
  | writer e =>
    cases e with
    | measure =>
      change tcBufferDataAvailable l.sender.ring ≤ (512 : ℕ)
      rw [dataAvailable_eq _ hv]
      omega
    | write written => exact h
    | _ => trivial
  | carry size =>
    refine ⟨h, ?_⟩
    rw [freeSpace_eq _ hv']
    omega
  | look =>
    change tcBufferDataAvailable l.receiver.readRing ≤ (1024 : ℕ)
    rw [dataAvailable_eq _ hv']
    omega
  | turn => trivial

theorem taken_le {r t : Receiver} (hs : ReceivePath.Sound r) {e : ReceivePath.Event}
    (h : ReceivePath.step r e = some t) : r.taken.length ≤ t.taken.length := by
  rcases ReceivePath.step_cases hs h with ⟨_, -, -, -, rfl⟩ | ⟨-, -, rfl⟩ | ⟨-, -, rfl⟩ |
    ⟨-, n, out, u, hturns⟩
  · exact le_rfl
  · exact le_rfl
  · exact le_rfl
  · rw [hturns.eq]
    change r.taken.length ≤ (r.taken ++ _).length
    rw [List.length_append]
    exact Nat.le_add_right _ _

theorem step_light {l l' : Link} (hl : Light l) {e : Event} (hwindow : Windowed l e)
    (h : step l e = some l') : Light l' := by
  have hsteady := step_steady hl.steady (paced_of_windowed hl hwindow) h
  have hbefore := underWay_eq hl.steady
  have hafter := underWay_eq hsteady
  have hle := hl.le
  refine ⟨hsteady, ?_⟩
  cases e with
  | send call =>
    obtain ⟨t, -, rfl⟩ := Option.map_eq_some_iff.mp h
    change (stream (l.sent ++ [call])).length = l.receiver.taken.length + _ at hafter
    rw [stream_append, stream_singleton, List.length_append] at hafter
    simp only [Windowed] at hwindow
    omega
  | writer e =>
    cases e with
    | writeData buffer => cases h
    | _ =>
      obtain ⟨t, -, rfl⟩ := Option.map_eq_some_iff.mp h
      change (stream l.sent).length = l.receiver.taken.length + _ at hafter
      omega
  | carry size =>
    obtain ⟨t, ht, rfl⟩ := Option.map_eq_some_iff.mp h
    have htaken := taken_le hl.steady.receiver.tracks.sound ht
    change (stream l.sent).length = t.taken.length + _ at hafter
    omega
  | look =>
    obtain ⟨t, ht, rfl⟩ := Option.map_eq_some_iff.mp h
    have htaken := taken_le hl.steady.receiver.tracks.sound ht
    change (stream l.sent).length = t.taken.length + _ at hafter
    omega
  | turn =>
    obtain ⟨t, ht, rfl⟩ := Option.map_eq_some_iff.mp h
    have htaken := taken_le hl.steady.receiver.tracks.sound ht
    change (stream l.sent).length = t.taken.length + _ at hafter
    omega

/-! How long it takes -/

def phaseSteps : Phase → ℕ
  | .sleeping => 3
  | .sized _ => 2
  | .ready _ => 1
  | .filled _ => 0

def lookSteps : Option ℤ → ℕ
  | none => 1
  | some n => if n = 0 then 2 else 0

/-- What the steps that are left depend on: each byte weighs less with each step that
takes it further. -/
def variant (l : Link) : ℕ :=
  10 * count l.sender.ring + 8 * (inFlight l.sender).length + 3 * (line l).length +
    2 * count l.receiver.readRing + phaseSteps l.sender.phase + lookSteps l.receiver.availableSize

theorem variant_le {l : Link} (hl : Light l) : variant l ≤ 5125 := by
  have hle := hl.le
  simp only [underWay, ipcWriteSize] at hle
  have hphase : phaseSteps l.sender.phase ≤ 3 := by
    unfold phaseSteps
    split <;> omega
  have hlook : lookSteps l.receiver.availableSize ≤ 2 := by
    unfold lookSteps
    split
    · omega
    · split <;> omega
  unfold variant
  omega

theorem length_line {l : Link} (hl : Steady l) :
    l.sender.device.length = l.receiver.arrived.length + (line l).length := by
  rw [hl.carried, List.length_append]

theorem writer_lowers {l : Link} (hl : Light l) {e : WritePath.Event UInt8}
    (hbusy : Busy l (.writer e)) {t : WritePath.State UInt8}
    (h : WritePath.step l.sender e = some t) : variant { l with sender := t } < variant l := by
  have hs := hl.steady.sender.sound
  cases e with
  | writeData buffer => exact hbusy.elim
  | measure =>
    obtain ⟨hsleeping, writeSize, rfl, -⟩ := measure_eq hs hbusy h
    have hflight : inFlight l.sender = [] := by rw [inFlight, hsleeping]
    have hphase : phaseSteps l.sender.phase = 3 := by rw [hsleeping, phaseSteps]
    change 10 * count l.sender.ring + 8 * 0 + 3 * (line l).length +
      2 * count l.receiver.readRing + 2 + lookSteps l.receiver.availableSize < variant l
    rw [variant, hflight, hphase, List.length_nil]
    omega
  | status answer =>
    obtain rfl : answer = 1 := hbusy
    obtain ⟨writeSize, hsized, rfl⟩ := status_eq hs h
    have hflight : inFlight l.sender = [] := by rw [inFlight, hsized]
    have hphase : phaseSteps l.sender.phase = 2 := by rw [hsized, phaseSteps]
    change 10 * count l.sender.ring + 8 * 0 + 3 * (line l).length +
      2 * count l.receiver.readRing + 1 + lookSteps l.receiver.availableSize < variant l
    rw [variant, hflight, hphase, List.length_nil]
    omega
  | pop =>
    obtain ⟨n, hpos, hready, hfilled, hdevice, hcount, hlen, -⟩ := pop_eq hs h
    have hflight : inFlight l.sender = [] := by rw [inFlight, hready]
    have hphase : phaseSteps l.sender.phase = 1 := by rw [hready, phaseSteps]
    have hline : line { l with sender := t } = line l := by rw [line, line, hdevice]
    change 10 * count t.ring + 8 * (inFlight t).length + 3 * (line { l with sender := t }).length +
      2 * count l.receiver.readRing + phaseSteps t.phase + lookSteps l.receiver.availableSize <
        variant l
    rw [variant, hflight, hphase, hline, hlen, hfilled, phaseSteps, List.length_nil]
    omega
  | write written =>
    obtain ⟨hpos, hlen, hempty, hring, hsleeping, hdevice⟩ := write_eq hs hbusy h
    have hgrown : t.device.length = l.sender.device.length + written.toNat := by
      rw [hdevice, List.length_append, hlen]
    have hphase : phaseSteps l.sender.phase = 0 := by
      rw [show l.sender.phase = .filled written from hbusy, phaseSteps]
    have hbefore := length_line hl.steady
    have hline : (line { l with sender := t }).length = (line l).length + written.toNat := by
      change (t.device.drop l.receiver.arrived.length).length = _
      rw [List.length_drop, hgrown, hbefore]
      omega
    change 10 * count t.ring + 8 * (inFlight t).length + 3 * (line { l with sender := t }).length +
      2 * count l.receiver.readRing + phaseSteps t.phase + lookSteps l.receiver.availableSize <
        variant l
    rw [variant, hempty, hphase, hline, hring, hlen, hsleeping, phaseSteps, List.length_nil]
    omega

/-- The steps of the second end, with what they leave in the read ring and on the
line. -/
theorem receiver_lowers {l : Link} {t : Receiver} {n : ℕ}
    (hcount : count t.readRing + n = count l.receiver.readRing)
    (harrived : t.arrived = l.receiver.arrived)
    (hlook : lookSteps t.availableSize < lookSteps l.receiver.availableSize + 2 * n) :
    variant { l with receiver := t } < variant l := by
  have hline : line { l with receiver := t } = line l := by rw [line, line, harrived]
  change 10 * count l.sender.ring + 8 * (inFlight l.sender).length +
    3 * (line { l with receiver := t }).length + 2 * count t.readRing +
      phaseSteps l.sender.phase + lookSteps t.availableSize < variant l
  rw [variant, hline]
  omega

theorem carry_lowers {l : Link} (hl : Light l) {size : ℕ} (hbusy : Busy l (.carry size))
    {t : Receiver}
    (h : ReceivePath.step l.receiver (.arrive ((line l).take size)) = some t) :
    variant { l with receiver := t } < variant l := by
  have hv := hl.steady.receiver.tracks.sound.ring
  have hfits : ((line l).length : ℤ) ≤ tcBufferFreeSpace l.receiver.readRing :=
    (paced_of_windowed hl (Busy.windowed hbusy)).2
  have hcount := count_lt l.receiver.readRing hv
  rw [List.take_of_length_le hbusy] at h
  rw [freeSpace_eq _ hv] at hfits
  have hbefore := length_line hl.steady
  rcases ReceivePath.step_cases hl.steady.receiver.tracks.sound h with
    ⟨readBufs, heq, hpos, -, rfl⟩ | ⟨heq, -⟩ | ⟨heq, -⟩ | ⟨heq, -⟩
  · cases heq
    have hpushed := ReceivePath.readThreadPass_pushed l.receiver.readRing hv (line l) (by omega)
    have hring := length_contents _ hpushed.valid
    rw [hpushed.of_fits hv (by omega), List.length_append, length_contents _ hv] at hring
    obtain ⟨ring, hname⟩ :
        ∃ ring, (ReceivePath.readThreadPass l.receiver.readRing (line l)).ring = ring := ⟨_, rfl⟩
    rw [hname] at hring ⊢
    have hline : (l.sender.device.drop (l.receiver.arrived ++ line l).length).length = 0 := by
      rw [List.length_drop, List.length_append]
      omega
    change 10 * count l.sender.ring + 8 * (inFlight l.sender).length +
      3 * (l.sender.device.drop (l.receiver.arrived ++ line l).length).length + 2 * count ring +
        phaseSteps l.sender.phase + lookSteps l.receiver.availableSize < variant l
    rw [variant, hline]
    omega
  · cases heq
  · cases heq
  · cases heq

theorem look_lowers {l : Link} (hl : Light l) (hbusy : Busy l .look) {t : Receiver}
    (h : ReceivePath.step l.receiver .look = some t) :
    variant { l with receiver := t } < variant l := by
  have hv := hl.steady.receiver.tracks.sound.ring
  have hpos : 0 < tcBufferDataAvailable l.receiver.readRing := hbusy
  rw [dataAvailable_eq _ hv] at hpos
  rcases ReceivePath.step_cases hl.steady.receiver.tracks.sound h with ⟨_, heq, -⟩ |
    ⟨-, hnone, rfl⟩ | ⟨heq, -⟩ | ⟨heq, -⟩
  · cases heq
  · refine receiver_lowers (n := 0) rfl rfl ?_
    rw [hnone, lookSteps, lookSteps, if_neg (by omega)]
    omega
  · cases heq
  · cases heq

theorem turn_lowers {l : Link} (hl : Light l) {t : Receiver}
    (h : ReceivePath.step l.receiver .turn = some t) :
    variant { l with receiver := t } < variant l := by
  have hr := hl.steady.receiver
  have hv := hr.tracks.sound.ring
  obtain ⟨sends, htaken⟩ := hr.taken
  obtain ⟨-, hempty⟩ := hr.settled htaken
  rcases ReceivePath.step_cases hr.tracks.sound h with ⟨_, heq, -⟩ | ⟨heq, -⟩ | ⟨-, hzero, rfl⟩ |
    ⟨-, n, out, u, hturns⟩
  · cases heq
  · cases heq
  · refine receiver_lowers (n := 0) rfl rfl ?_
    rw [hzero, lookSteps, lookSteps, if_pos rfl]
    omega
  · have hpos := hturns.pos
    obtain ⟨hle, -⟩ := hr.looked n hturns.seen
    have hsize := ReceivePath.readSize_eq hr.tracks.sound hturns.seen
    have hcount := ReceivePath.readSize_le_count hr.tracks.sound hturns.seen
    simp only [tmmParserBufSize, ipcMaximumDataSize] at hle
    rw [hempty, Nat.sub_zero, Nat.min_eq_left (by omega)] at hsize
    rw [hsize] at hcount
    have heq := hturns.eq
    rw [hsize] at heq
    have hring : count t.readRing + n.toNat = count l.receiver.readRing := by
      rw [heq]
      change count (advance l.receiver.readRing n.toNat) + n.toNat = _
      rw [count_advance _ hv _ hcount, Nat.sub_add_cancel hcount]
    apply receiver_lowers hring (by rw [heq])
    rw [heq, hturns.seen]
    change 1 < lookSteps (some n) + 2 * n.toNat
    omega

theorem busy_lowers {l l' : Link} (hl : Light l) {e : Event} (hbusy : Busy l e)
    (h : step l e = some l') : variant l' < variant l ∧ l'.sent = l.sent := by
  cases e with
  | send call => exact hbusy.elim
  | writer e =>
    cases e with
    | writeData buffer => exact hbusy.elim
    | _ =>
      obtain ⟨t, ht, rfl⟩ := Option.map_eq_some_iff.mp h
      exact ⟨writer_lowers hl hbusy ht, rfl⟩
  | carry size =>
    obtain ⟨t, ht, rfl⟩ := Option.map_eq_some_iff.mp h
    exact ⟨carry_lowers hl hbusy ht, rfl⟩
  | look =>
    obtain ⟨t, ht, rfl⟩ := Option.map_eq_some_iff.mp h
    exact ⟨look_lowers hl hbusy ht, rfl⟩
  | turn =>
    obtain ⟨t, ht, rfl⟩ := Option.map_eq_some_iff.mp h
    exact ⟨turn_lowers hl ht, rfl⟩

/-! When nothing is left to do -/

section Stuck

variable {l : Link} (hl : Light l) (hstuck : ∀ e, guarded step Busy l e = none)

include hstuck

theorem none_of_busy {e : Event} (hbusy : Busy l e) : step l e = none := by
  have hnone := hstuck e
  rwa [guarded, if_pos hbusy] at hnone

include hl

theorem sender_sleeps : l.sender.phase = .sleeping := by
  have hs := hl.steady.sender.sound
  have hbacked := hs.backed
  cases hphase : l.sender.phase with
  | sleeping => rfl
  | sized writeSize =>
    have hnone := none_of_busy hstuck (e := .writer (.status 1)) rfl
    simp only [step, WritePath.step, hphase, Option.map_some, reduceCtorEq] at hnone
  | ready writeSize =>
    have hnone := none_of_busy hstuck (e := .writer .pop) trivial
    simp only [step, WritePath.step, hphase, Option.map_some, reduceCtorEq] at hnone
  | filled writeSize =>
    have hnone := none_of_busy hstuck (e := .writer (.write writeSize)) hphase
    rw [hphase] at hbacked
    have hrange : -1 ≤ writeSize ∧ writeSize ≤ writeSize := ⟨by have := hbacked.1; omega, le_rfl⟩
    simp only [step, WritePath.step, hphase, if_pos hrange, Option.map_some, reduceCtorEq] at hnone

theorem writeRing_empty : contents l.sender.ring = [] := by
  have hv := hl.steady.sender.sound.ring
  have hsleeps := sender_sleeps hl hstuck
  by_contra hne
  have hpos : 0 < count l.sender.ring := by
    rw [← length_contents _ hv]
    exact List.length_pos_iff.mpr hne
  have hbusy : Busy l (.writer .measure) := by
    change 0 < tcBufferDataAvailable l.sender.ring
    rw [dataAvailable_eq _ hv]
    omega
  have hnone := none_of_busy hstuck hbusy
  simp only [step, WritePath.step, if_pos hsleeps, Option.map_some, reduceCtorEq] at hnone

theorem line_empty : line l = [] := by
  have hle := hl.le
  simp only [underWay, ipcWriteSize] at hle
  by_contra hne
  have hpos := List.length_pos_iff.mpr hne
  have hnone := none_of_busy hstuck (e := .carry (line l).length) (Nat.le_refl _)
  have hlen : 1 ≤ (line l).length ∧ (line l).length ≤ ReadRing.tmmReadSize :=
    ⟨hpos, by rw [ReadRing.tmmReadSize]; omega⟩
  simp only [step, ReceivePath.step, List.take_length, if_pos hlen, Option.map_some,
    reduceCtorEq] at hnone

theorem readRing_empty : contents l.receiver.readRing = [] := by
  have hsound := hl.steady.receiver.tracks.sound
  by_contra hne
  have hpos : 0 < count l.receiver.readRing := by
    rw [← length_contents _ hsound.ring]
    exact List.length_pos_iff.mpr hne
  cases hlook : l.receiver.availableSize with
  | none =>
    have hbusy : Busy l .look := by
      change 0 < tcBufferDataAvailable l.receiver.readRing
      rw [dataAvailable_eq _ hsound.ring]
      omega
    have hnone := none_of_busy hstuck hbusy
    simp only [step, ReceivePath.step, if_pos hlook, Option.map_some, reduceCtorEq] at hnone
  | some n =>
    obtain ⟨t, ht⟩ := ReceivePath.parse_isSome hsound hlook
    have hnone := none_of_busy hstuck (e := .turn) trivial
    simp only [step, ReceivePath.step, hlook, Option.bind_some, ht, Option.map_some,
      reduceCtorEq] at hnone

theorem idle_of_stuck : Idle l where
  writeRing := writeRing_empty hl hstuck
  inFlight := by rw [inFlight, sender_sleeps hl hstuck]
  line := line_empty hl hstuck
  readRing := readRing_empty hl hstuck

end Stuck

theorem reach_light (fd : ℤ) (hfd : -1 < fd) (writeCells : List UInt8)
    (hwrite : writeCells.length = writeRingBufferSize) (writeBufs : List UInt8)
    (hbufs : writeBufs.length = ipcWriteSize) (readCells : List UInt8)
    (hread : readCells.length = readRingBufferSize) (parserData : IpcMsg) (stale : Bool) {l : Link}
    (h : Reach step Windowed
      (start fd writeCells hwrite writeBufs readCells hread parserData stale) l) : Light l := by
  have hsteady :=
    start_steady fd hfd writeCells hwrite writeBufs hbufs readCells hread parserData stale
  have hbytes := underWay_eq hsteady
  refine h.invariant Light ⟨hsteady, ?_⟩ fun _ _ _ hl hwindow hstep => step_light hl hwindow hstep
  change 0 = 0 + _ at hbytes
  omega

/-- A client that keeps within the window loses nothing, in whatever order the threads
run: what is delivered is always a beginning of what was sent, and after at most 5125
steps that do something, no step is left to do and all of it has been delivered. -/
theorem window_completes (fd : ℤ) (hfd : -1 < fd) (writeCells : List UInt8)
    (hwrite : writeCells.length = writeRingBufferSize) (writeBufs : List UInt8)
    (hbufs : writeBufs.length = ipcWriteSize) (readCells : List UInt8)
    (hread : readCells.length = readRingBufferSize) (parserData : IpcMsg) (stale : Bool) {l : Link}
    (h : Reach step Windowed
      (start fd writeCells hwrite writeBufs readCells hread parserData stale) l) :
    l.receiver.delivered <+: l.sent.map Send.delivered ∧
      ∀ es l', runFrom (guarded step Busy) l es = some l' →
        es.length ≤ 5125 ∧ l'.sent = l.sent ∧
          l'.receiver.delivered <+: l.sent.map Send.delivered ∧
          ((∀ e, guarded step Busy l' e = none) →
            l'.receiver.delivered = l.sent.map Send.delivered) := by
  have hlight := reach_light fd hfd writeCells hwrite writeBufs hbufs readCells hread parserData
    stale h
  refine ⟨hlight.steady.delivered.1, ?_⟩
  intro es l' hrun
  obtain ⟨⟨hlight', hsent⟩, hle⟩ := length_le_of_variant
    (fun k => Light k ∧ k.sent = l.sent) variant
    (fun u e v ⟨hu, hsame⟩ hbusy hstep =>
      have ⟨hlt, hsent⟩ := busy_lowers hu hbusy hstep
      ⟨⟨step_light hu hbusy.windowed hstep, hsent.trans hsame⟩, hlt⟩)
    ⟨hlight, rfl⟩ es hrun
  have hbound := variant_le hlight
  have hdelivered := hlight'.steady.delivered
  rw [hsent] at hdelivered
  exact ⟨by omega, hsent, hdelivered.1, fun hstuck => hdelivered.2.1 (idle_of_stuck hlight' hstuck)⟩

theorem window_completes_one :
    ∃ l, runFrom (guarded step Windowed) opened [.send sendEmpty, .writer .measure] = some l ∧
      ∀ es l', runFrom (guarded step Busy) l es = some l' → es.length ≤ 5125 :=
  have hrun : (runFrom (guarded step Windowed) opened
      [.send sendEmpty, .writer .measure]).isSome = true := by
    decide +kernel
  have ⟨l, hl⟩ := Option.isSome_iff_exists.mp hrun
  ⟨l, hl, fun es l' hes => ((window_completes 3 (by decide) _ _ _ List.length_replicate _ _ _ _
    (reach_of_guarded _ hl)).2 es l' hes).1⟩

end TcIpcCtrl.LinkWindow
