import TcIpcCtrl.Delivery
import TcIpcCtrl.WritePath

/-!
From tc_package_send at one end to the callback at the other. The two devices
carry bytes in order; nothing else marks where a frame ends. When the traffic is
paced, so that each chunk that is written, read and popped is all there is at
that time, every piece is a whole number of frames, the decoder never has bytes
left over, and each message is delivered once and in order.
-/
namespace TcIpcCtrl.PacedLink

open CInt Cells Package Runs RingBuffer RingContents RingEffects Tokens FrameGrammar
  TcIpcCtrl.Parser DecoderPasses DecoderRefinement RoundTrip Delivery
open ReadRing (readRingBufferSize tmmReadSize)
open ReceivePath (Receiver Rests Turns readSize)
open WritePath (Phase onWay chunk writeRingBufferSize ipcWriteSize)

/-! Whole frames -/

/-- The bytes are whole frames of a sender. -/
def Whole (bytes : List UInt8) : Prop := ∃ sends, bytes = stream sends

theorem whole_nil : Whole [] := ⟨[], rfl⟩

theorem whole_frame (call : Send) : Whole call.frame :=
  ⟨[call], (stream_singleton call).symm⟩

theorem Whole.append {xs ys : List UInt8} (hxs : Whole xs) (hys : Whole ys) : Whole (xs ++ ys) := by
  obtain ⟨sends, rfl⟩ := hxs
  obtain ⟨sends', rfl⟩ := hys
  exact ⟨sends ++ sends', (stream_append sends sends').symm⟩

/-- Both parts of the bytes are whole frames. -/
structure Cut (n : ℕ) (bytes : List UInt8) : Prop where
  le : n ≤ bytes.length
  before : Whole (bytes.take n)
  after : Whole (bytes.drop n)

theorem Cut.append {n : ℕ} {xs ys : List UInt8} (h : Cut n xs) (hys : Whole ys) :
    Cut n (xs ++ ys) where
  le := by
    rw [List.length_append]
    exact Nat.le_add_right_of_le h.le
  before := by
    rw [List.take_append_of_le_length h.le]
    exact h.before
  after := by
    rw [List.drop_append_of_le_length h.le]
    exact h.after.append hys

theorem cut_all {n : ℕ} {xs : List UInt8} (hxs : Whole xs) (hn : xs.length = n) : Cut n xs where
  le := Nat.le_of_eq hn.symm
  before := by
    rw [List.take_of_length_le hn.le]
    exact hxs
  after := by
    rw [List.drop_of_length_le hn.le]
    exact whole_nil

/-! The link -/

/-- Both ends, and the calls of tc_package_send at the first, in lock order. -/
structure Link where
  sender : WritePath.State UInt8
  receiver : Receiver
  sent : List Send

/-- What the first device has taken and the second has not given. -/
def line (l : Link) : List UInt8 := l.sender.device.drop l.receiver.arrived.length

inductive Event
  /-- a call of tc_package_send -/
  | send (call : Send)
  /-- a step of WriteThread -/
  | writer (e : WritePath.Event UInt8)
  /-- ReadThread reads up to `size` bytes -/
  | carry (size : ℕ)
  | look
  | turn

def step (l : Link) : Event → Option Link
  | .send call =>
    (WritePath.step l.sender (.writeData call.frame)).map fun sender =>
      { l with sender := sender, sent := l.sent ++ [call] }
  | .writer (.writeData _) => none
  | .writer e => (WritePath.step l.sender e).map fun sender => { l with sender := sender }
  | .carry size =>
    (ReceivePath.step l.receiver (.arrive ((line l).take size))).map fun receiver =>
      { l with receiver := receiver }
  | .look => (ReceivePath.step l.receiver .look).map fun receiver => { l with receiver := receiver }
  | .turn => (ReceivePath.step l.receiver .turn).map fun receiver => { l with receiver := receiver }

/-- The traffic does not run ahead of the threads: no overwrite, one chunk takes all
that waits in the write ring, one read all that waits on the line, one turn all that
was seen in the read ring. -/
def Paced (l : Link) : Event → Prop
  | .send call => (call.frame.length : ℤ) ≤ tcBufferFreeSpace l.sender.ring
  | .writer (.writeData _) => True
  | .writer .measure => tcBufferDataAvailable l.sender.ring ≤ ipcWriteSize
  | .writer (.status _) => True
  | .writer .pop => True
  | .writer (.write written) => l.sender.phase = .filled written
  | .carry size => (line l).length ≤ size ∧
      ((line l).length : ℤ) ≤ tcBufferFreeSpace l.receiver.readRing
  | .look => tcBufferDataAvailable l.receiver.readRing ≤ tmmParserBufSize
  | .turn => True

instance (l : Link) : (e : Event) → Decidable (Paced l e)
  | .send _ => inferInstanceAs (Decidable (_ ≤ _))
  | .writer (.writeData _) => inferInstanceAs (Decidable True)
  | .writer .measure => inferInstanceAs (Decidable (_ ≤ _))
  | .writer (.status _) => inferInstanceAs (Decidable True)
  | .writer .pop => inferInstanceAs (Decidable True)
  | .writer (.write _) => inferInstanceAs (Decidable (_ = _))
  | .carry _ => inferInstanceAs (Decidable (_ ∧ _))
  | .look => inferInstanceAs (Decidable (_ ≤ _))
  | .turn => inferInstanceAs (Decidable True)

def start (fd : ℤ) (writeCells : List UInt8) (hwrite : writeCells.length = writeRingBufferSize)
    (writeBufs readCells : List UInt8) (hread : readCells.length = readRingBufferSize)
    (parserData : IpcMsg) (stale : Bool) : Link :=
  { sender := WritePath.start fd writeCells hwrite writeBufs
    receiver := ReceivePath.start readCells hread parserData stale true
    sent := [] }

/-- What WriteThread has measured ends between two frames. -/
def PhaseCut (phase : Phase) (waiting : List UInt8) : Prop :=
  match phase with
  | .sleeping => True
  | .sized writeSize => Cut writeSize.toNat waiting
  | .ready writeSize => Cut writeSize.toNat waiting
  | .filled _ => True

theorem PhaseCut.append {phase : Phase} {waiting bytes : List UInt8} (h : PhaseCut phase waiting)
    (hbytes : Whole bytes) : PhaseCut phase (waiting ++ bytes) := by
  cases phase with
  | sleeping => trivial
  | sized writeSize => exact Cut.append h hbytes
  | ready writeSize => exact Cut.append h hbytes
  | filled writeSize => trivial

/-- What waits at the first end is whole frames. -/
structure SendsWhole (s : WritePath.State UInt8) : Prop where
  sound : WritePath.Sound s
  ring : Whole (contents s.ring)
  inFlight : Whole (WritePath.inFlight s)
  phase : PhaseCut s.phase (contents s.ring)

/-- So is what waits at the second, up to the place where ParserThread has looked. -/
structure ReceivesWhole (r : Receiver) : Prop where
  tracks : Tracks r
  flows : Flows r
  taken : Whole r.taken
  ring : Whole (contents r.readRing)
  looked : ∀ n, r.availableSize = some n →
    n ≤ tmmParserBufSize ∧ Cut n.toNat (contents r.readRing)

structure Steady (l : Link) : Prop where
  sender : SendsWhole l.sender
  receiver : ReceivesWhole l.receiver
  line : Whole (PacedLink.line l)
  carried : l.sender.device = l.receiver.arrived ++ PacedLink.line l
  sent : onWay l.sender = stream l.sent

/-! The first end -/

/-- A step puts `moved` on the line and takes `added` from a client. -/
structure Moves (s t : WritePath.State UInt8) (moved added : List UInt8) : Prop where
  whole : SendsWhole t
  device : t.device = s.device ++ moved
  moved_whole : Whole moved
  onWay : WritePath.onWay t = WritePath.onWay s ++ added

theorem writeData_moves {s t : WritePath.State UInt8} (hs : SendsWhole s) {call : Send}
    (hfits : (call.frame.length : ℤ) ≤ tcBufferFreeSpace s.ring)
    (h : WritePath.step s (.writeData call.frame) = some t) : Moves s t [] call.frame := by
  have hv := hs.sound.ring
  have hcount := count_lt s.ring hv
  have hsound := WritePath.step_sound hs.sound h
  rw [freeSpace_eq s.ring hv] at hfits
  rcases WritePath.step_cases hs.sound h with ⟨buffer, ring', heq, -, hpushed, rfl⟩ | ⟨hne, -⟩ |
    ⟨_, heq, -⟩ | ⟨_, _, heq, -⟩
  · cases heq
    have hcontents : contents ring' = contents s.ring ++ call.frame :=
      hpushed.of_fits hv (by omega)
    refine ⟨⟨hsound, ?_, hs.inFlight, ?_⟩, (List.append_nil _).symm, whole_nil, ?_⟩
    · change Whole (contents ring')
      rw [hcontents]
      exact hs.ring.append (whole_frame call)
    · change PhaseCut s.phase (contents ring')
      rw [hcontents]
      exact hs.phase.append (whole_frame call)
    · change s.device ++ WritePath.inFlight s ++ contents ring' = onWay s ++ call.frame
      rw [hcontents, ← List.append_assoc]
      rfl
  · exact absurd rfl (hne _)
  · cases heq
  · cases heq

theorem measure_moves {s t : WritePath.State UInt8} (hs : SendsWhole s)
    (hpaced : tcBufferDataAvailable s.ring ≤ ipcWriteSize)
    (h : WritePath.step s .measure = some t) : Moves s t [] [] := by
  have hv := hs.sound.ring
  have hsound := WritePath.step_sound hs.sound h
  by_cases hsleeping : s.phase = .sleeping
  · have hflight : WritePath.inFlight s = [] := by rw [WritePath.inFlight, hsleeping]
    have hmin : min (tcBufferDataAvailable s.ring) ipcWriteSize = (count s.ring : ℤ) := by
      rw [min_eq_left hpaced, dataAvailable_eq s.ring hv]
    rw [WritePath.step, if_pos hsleeping] at h
    simp only [hmin, Option.some.injEq] at h
    by_cases hzero : (count s.ring : ℤ) ≠ 0
    · rw [if_pos hzero] at h
      have hcut := cut_all hs.ring (length_contents s.ring hv)
      rw [← h] at hsound ⊢
      refine ⟨⟨hsound, hs.ring, whole_nil, ?_⟩, (List.append_nil _).symm, whole_nil, ?_⟩
      · change Cut (count s.ring : ℤ).toNat (contents s.ring)
        rwa [Int.toNat_natCast]
      · change s.device ++ [] ++ contents s.ring = onWay s ++ []
        rw [WritePath.onWay, hflight, List.append_nil (_ ++ contents s.ring)]
    · rw [if_neg hzero] at h
      rw [← h] at hsound ⊢
      refine ⟨⟨hsound, hs.ring, whole_nil, trivial⟩, (List.append_nil _).symm, whole_nil, ?_⟩
      change s.device ++ [] ++ contents s.ring = onWay s ++ []
      rw [WritePath.onWay, hflight, List.append_nil (_ ++ contents s.ring)]
  · rw [WritePath.step, if_neg hsleeping] at h
    cases h

theorem status_moves {s t : WritePath.State UInt8} (hs : SendsWhole s) {answer : ℕ}
    (h : WritePath.step s (.status answer) = some t) : Moves s t [] [] := by
  have hsound := WritePath.step_sound hs.sound h
  have hcut := hs.phase
  cases hphase : s.phase with
  | sized writeSize =>
    have hflight : WritePath.inFlight s = [] := by rw [WritePath.inFlight, hphase]
    have honWay : s.device ++ [] ++ contents s.ring = onWay s ++ [] := by
      rw [WritePath.onWay, hflight, List.append_nil (_ ++ contents s.ring)]
    rw [hphase] at hcut
    simp only [WritePath.step, hphase, Option.some.injEq] at h
    by_cases hready : WritePath.ipcStatus s.fd answer = 1
    · rw [if_pos hready] at h
      rw [← h] at hsound ⊢
      exact ⟨⟨hsound, hs.ring, whole_nil, hcut⟩, (List.append_nil _).symm, whole_nil, honWay⟩
    · rw [if_neg hready] at h
      rw [← h] at hsound ⊢
      exact ⟨⟨hsound, hs.ring, whole_nil, trivial⟩, (List.append_nil _).symm, whole_nil, honWay⟩
  | _ => simp [WritePath.step, hphase] at h

/-- The pop takes what was measured, which ends between two frames. -/
theorem pop_moves {s t : WritePath.State UInt8} (hs : SendsWhole s)
    (h : WritePath.step s .pop = some t) : Moves s t [] [] := by
  have hv := hs.sound.ring
  have hsound := WritePath.step_sound hs.sound h
  have hcut := hs.phase
  cases hphase : s.phase with
  | ready writeSize =>
    obtain ⟨hring, -, hout, -⟩ := WritePath.pop_ok hs.sound hphase
    have hchunk := WritePath.chunk_pop hs.sound hphase
    have hwaiting := WritePath.waiting_pop hs.sound hphase
    simp only [WritePath.step, hphase, hring, hout, Option.some.injEq] at h
    rw [hphase] at hcut
    have hle : writeSize.toNat ≤ count s.ring := by
      rw [← length_contents s.ring hv]
      exact hcut.le
    rw [← h] at hsound ⊢
    refine ⟨⟨hsound, ?_, ?_, trivial⟩, (List.append_nil _).symm, whole_nil, ?_⟩
    · change Whole (contents (advance s.ring writeSize.toNat))
      rw [contents_advance s.ring hv _ hle]
      exact hcut.after
    · change Whole ((memcpy s.writeBufs 0 _).take _)
      rw [hchunk]
      exact hcut.before
    · change s.device ++ (memcpy s.writeBufs 0 _).take _ ++ _ = onWay s ++ []
      rw [List.append_assoc, hwaiting, WritePath.onWay, WritePath.inFlight, hphase,
        List.append_nil, List.append_nil]
  | _ => simp [WritePath.step, hphase] at h

theorem write_moves {s t : WritePath.State UInt8} (hs : SendsWhole s) {written : ℤ}
    (haccepts : s.phase = .filled written) (h : WritePath.step s (.write written) = some t) :
    ∃ moved, Moves s t moved [] := by
  have hsound := WritePath.step_sound hs.sound h
  have hbacked := hs.sound.backed
  obtain ⟨writeSize, hphase, ht⟩ := WritePath.write_reaches_device hs.sound h
  obtain rfl : writeSize = written := by
    rw [haccepts] at hphase
    cases hphase
    rfl
  rw [hphase] at hbacked
  have hflight : WritePath.inFlight s = chunk s writeSize := by rw [WritePath.inFlight, hphase]
  have hlen := WritePath.length_chunk hs.sound hbacked.1 hbacked.2
  have hall : (chunk s writeSize).take writeSize.toNat = chunk s writeSize :=
    List.take_of_length_le (Nat.le_of_eq hlen)
  rw [hall] at ht
  rw [ht] at hsound ⊢
  refine ⟨chunk s writeSize, ⟨hsound, hs.ring, whole_nil, trivial⟩, rfl, hflight ▸ hs.inFlight, ?_⟩
  change s.device ++ chunk s writeSize ++ [] ++ contents s.ring = onWay s ++ []
  rw [WritePath.onWay, hflight, List.append_nil, List.append_nil]

theorem writer_moves {l : Link} (hs : SendsWhole l.sender) {e : WritePath.Event UInt8}
    (hpaced : Paced l (.writer e)) {t : WritePath.State UInt8}
    (hclient : ∀ buffer, e ≠ .writeData buffer) (h : WritePath.step l.sender e = some t) :
    ∃ moved, Moves l.sender t moved [] := by
  cases e with
  | writeData buffer => exact absurd rfl (hclient buffer)
  | measure => exact ⟨[], measure_moves hs hpaced h⟩
  | status answer => exact ⟨[], status_moves hs h⟩
  | pop => exact ⟨[], pop_moves hs h⟩
  | write written => exact write_moves hs hpaced h

/-! The second end -/

/-- Once whole frames have been taken, their messages are delivered and the decoder
has nothing left over. -/
theorem ReceivesWhole.settled {r : Receiver} (hr : ReceivesWhole r) {sends : List Send}
    (htaken : r.taken = stream sends) :
    r.delivered = sends.map Send.delivered ∧ r.parser.dataSize = 0 := by
  have hscan := hr.tracks.scans
  rw [htaken] at hscan
  obtain ⟨hdelivered, hwindow⟩ := hscan.det (scans_stream sends)
  have hrests := hr.tracks.sound.parser
  have hle := hrests.dataSize_le
  have hcells := r.parser.data_length
  simp only [tmmParserBufSize, ipcMaximumDataSize] at hcells
  rw [hrests.maxSize] at hle
  have hlen := length_slice r.parser.data 0 r.parser.dataSize (by omega)
  rw [← window_rests hrests, hwindow] at hlen
  exact ⟨hdelivered, hlen.symm⟩

theorem whole_of_ring {r : Receiver} (hr : ReceivesWhole r) {bytes : List UInt8}
    (hbytes : Whole bytes) {ring : TcRingbuf UInt8}
    (hcontents : contents ring = contents r.readRing ++ bytes) {arrived : List UInt8}
    (htracks : Tracks { r with readRing := ring, arrived := arrived })
    (hflows : Flows { r with readRing := ring, arrived := arrived }) :
    ReceivesWhole { r with readRing := ring, arrived := arrived } := by
  refine ⟨htracks, hflows, hr.taken, ?_, ?_⟩
  · change Whole (contents ring)
    rw [hcontents]
    exact hr.ring.append hbytes
  · intro n hn
    obtain ⟨hle, hcut⟩ := hr.looked n hn
    refine ⟨hle, ?_⟩
    change Cut n.toNat (contents ring)
    rw [hcontents]
    exact hcut.append hbytes

theorem arrive_whole {r t : Receiver} (hr : ReceivesWhole r) {bytes : List UInt8}
    (hbytes : Whole bytes) (hfits : (bytes.length : ℤ) ≤ tcBufferFreeSpace r.readRing)
    (h : ReceivePath.step r (.arrive bytes) = some t) :
    ReceivesWhole t ∧ t.arrived = r.arrived ++ bytes := by
  have hv := hr.tracks.sound.ring
  have htracks := step_tracks (e := .arrive bytes) hr.tracks trivial h
  have hflows := step_flows (e := .arrive bytes) hr.flows hfits h
  have hcount := count_lt r.readRing hv
  rw [freeSpace_eq r.readRing hv] at hfits
  rcases ReceivePath.step_cases hr.tracks.sound h with ⟨readBufs, heq, -, -, rfl⟩ | ⟨heq, -⟩ |
    ⟨heq, -⟩ | ⟨heq, -⟩
  · cases heq
    have hpushed := ReceivePath.readThreadPass_pushed r.readRing hv bytes (by omega)
    exact ⟨whole_of_ring hr hbytes (hpushed.of_fits hv (by omega)) htracks hflows, rfl⟩
  · cases heq
  · cases heq
  · cases heq

theorem look_whole {r t : Receiver} (hr : ReceivesWhole r)
    (hpaced : tcBufferDataAvailable r.readRing ≤ tmmParserBufSize)
    (h : ReceivePath.step r .look = some t) : ReceivesWhole t ∧ t.arrived = r.arrived := by
  have hv := hr.tracks.sound.ring
  have htracks := step_tracks (e := .look) hr.tracks trivial h
  have hflows := step_flows (e := .look) hr.flows trivial h
  rw [dataAvailable_eq r.readRing hv] at hpaced
  rcases ReceivePath.step_cases hr.tracks.sound h with ⟨_, heq, -⟩ | ⟨-, -, rfl⟩ | ⟨heq, -⟩ |
    ⟨heq, -⟩
  · cases heq
  · refine ⟨⟨htracks, hflows, hr.taken, hr.ring, ?_⟩, rfl⟩
    intro n hn
    obtain rfl := Option.some.inj hn
    refine ⟨hpaced, ?_⟩
    rw [Int.toNat_natCast]
    exact cut_all hr.ring (length_contents r.readRing hv)
  · cases heq
  · cases heq

/-- A turn takes all that was seen, and the decoder consumes it. -/
theorem turn_whole {r t : Receiver} (hr : ReceivesWhole r)
    (h : ReceivePath.step r .turn = some t) : ReceivesWhole t ∧ t.arrived = r.arrived := by
  have hv := hr.tracks.sound.ring
  obtain ⟨sends, htaken⟩ := hr.taken
  obtain ⟨-, hempty⟩ := hr.settled htaken
  have happends : ReadAppends r .turn := appends_of_empty r _ hempty
  have htracks := step_tracks hr.tracks happends h
  have hflows := step_flows (e := .turn) hr.flows trivial h
  rcases ReceivePath.step_cases hr.tracks.sound h with ⟨_, heq, -⟩ | ⟨heq, -⟩ | ⟨-, -, rfl⟩ |
    ⟨-, n, out, u, hturns⟩
  · cases heq
  · cases heq
  · exact ⟨⟨htracks, hflows, hr.taken, hr.ring, fun n hn => (by cases hn)⟩, rfl⟩
  · obtain ⟨hle, hcut⟩ := hr.looked n hturns.seen
    have hsize := ReceivePath.readSize_eq hr.tracks.sound hturns.seen
    have hcount := ReceivePath.readSize_le_count hr.tracks.sound hturns.seen
    obtain ⟨-, -, hout⟩ :=
      ReceivePath.readData_ok hr.tracks.sound hturns.seen hturns.pos
    simp only [tmmParserBufSize, ipcMaximumDataSize] at hle
    rw [hempty, Nat.sub_zero, Nat.min_eq_left (by omega)] at hsize
    rw [hsize] at hout hcount
    have heq := hturns.eq
    rw [hsize, hout] at heq
    rw [heq] at htracks hflows ⊢
    refine ⟨⟨htracks, hflows, ?_, ?_, fun n hn => (by cases hn)⟩, rfl⟩
    · change Whole (r.taken ++ (contents r.readRing).take n.toNat)
      exact hr.taken.append hcut.before
    · change Whole (contents (advance r.readRing n.toNat))
      rw [contents_advance r.readRing hv _ hcount]
      exact hcut.after

/-! The link as a whole -/

theorem line_of_carried {l : Link} {bytes : List UInt8}
    (h : l.sender.device = l.receiver.arrived ++ bytes) : line l = bytes := by
  rw [line, h, List.drop_left]

theorem steady_of_moves {l : Link} (hl : Steady l) {t : WritePath.State UInt8}
    {moved added : List UInt8} (h : Moves l.sender t moved added) {sent : List Send}
    (hsent : stream sent = stream l.sent ++ added) :
    Steady { l with sender := t, sent := sent } := by
  have hcarried : t.device = l.receiver.arrived ++ (line l ++ moved) := by
    rw [h.device, hl.carried, List.append_assoc]
  have hline : line { l with sender := t, sent := sent } = line l ++ moved :=
    line_of_carried (l := { l with sender := t, sent := sent }) hcarried
  refine ⟨h.whole, hl.receiver, ?_, ?_, ?_⟩
  · rw [hline]
    exact hl.line.append h.moved_whole
  · rw [hline]
    exact hcarried
  · change onWay t = stream sent
    rw [h.onWay, hl.sent, hsent]

theorem steady_of_receiver {l : Link} (hl : Steady l) {t : Receiver} (ht : ReceivesWhole t)
    {bytes rest : List UInt8} (harrived : t.arrived = l.receiver.arrived ++ bytes)
    (hline : line l = bytes ++ rest) (hrest : Whole rest) : Steady { l with receiver := t } := by
  have hcarried : l.sender.device = t.arrived ++ rest := by
    rw [harrived, hl.carried, hline, List.append_assoc]
  have hline' : line { l with receiver := t } = rest :=
    line_of_carried (l := { l with receiver := t }) hcarried
  refine ⟨hl.sender, ht, ?_, ?_, hl.sent⟩
  · rw [hline']
    exact hrest
  · rw [hline']
    exact hcarried

theorem step_steady {l l' : Link} (hl : Steady l) {e : Event} (hpaced : Paced l e)
    (h : step l e = some l') : Steady l' := by
  cases e with
  | send call =>
    obtain ⟨t, ht, rfl⟩ := Option.map_eq_some_iff.mp h
    apply steady_of_moves hl (writeData_moves hl.sender hpaced ht)
    rw [stream_append, stream_singleton]
  | writer e =>
    cases e with
    | writeData buffer => cases h
    | _ =>
      obtain ⟨t, ht, rfl⟩ := Option.map_eq_some_iff.mp h
      obtain ⟨moved, hmoves⟩ := writer_moves hl.sender hpaced (by intro _ heq; cases heq) ht
      exact steady_of_moves hl hmoves (List.append_nil _).symm
  | carry size =>
    obtain ⟨t, ht, rfl⟩ := Option.map_eq_some_iff.mp h
    rw [List.take_of_length_le hpaced.1] at ht
    obtain ⟨hwhole, harrived⟩ := arrive_whole hl.receiver hl.line hpaced.2 ht
    exact steady_of_receiver hl hwhole harrived (List.append_nil _).symm whole_nil
  | look =>
    obtain ⟨t, ht, rfl⟩ := Option.map_eq_some_iff.mp h
    obtain ⟨hwhole, harrived⟩ := look_whole hl.receiver hpaced ht
    exact steady_of_receiver hl hwhole (harrived.trans (List.append_nil _).symm) rfl hl.line
  | turn =>
    obtain ⟨t, ht, rfl⟩ := Option.map_eq_some_iff.mp h
    obtain ⟨hwhole, harrived⟩ := turn_whole hl.receiver ht
    exact steady_of_receiver hl hwhole (harrived.trans (List.append_nil _).symm) rfl hl.line

theorem start_steady (fd : ℤ) (hfd : -1 < fd) (writeCells : List UInt8)
    (hwrite : writeCells.length = writeRingBufferSize) (writeBufs : List UInt8)
    (hbufs : writeBufs.length = ipcWriteSize) (readCells : List UInt8)
    (hread : readCells.length = readRingBufferSize) (parserData : IpcMsg) (stale : Bool) :
    Steady (start fd writeCells hwrite writeBufs readCells hread parserData stale) where
  sender := ⟨WritePath.start_sound fd hfd writeCells hwrite writeBufs hbufs, whole_nil, whole_nil,
    trivial⟩
  receiver := ⟨start_tracks readCells hread parserData stale,
    ⟨ReceivePath.start_sound readCells hread parserData stale true, rfl⟩, whole_nil, whole_nil,
    fun _ hn => by cases hn⟩
  line := whole_nil
  carried := rfl
  sent := rfl

/-- All bytes sent: taken by the decoder, or still somewhere on the way. -/
theorem Steady.bytes {l : Link} (hl : Steady l) :
    stream l.sent = l.receiver.taken ++ (contents l.receiver.readRing ++ PacedLink.line l ++
      WritePath.inFlight l.sender ++ contents l.sender.ring) := by
  rw [← hl.sent, onWay, hl.carried, hl.receiver.flows.arrived]
  simp only [List.append_assoc]

/-- Nothing waits anywhere. -/
structure Idle (l : Link) : Prop where
  writeRing : contents l.sender.ring = []
  inFlight : WritePath.inFlight l.sender = []
  line : PacedLink.line l = []
  readRing : contents l.receiver.readRing = []

theorem Steady.delivered {l : Link} (hl : Steady l) :
    l.receiver.delivered <+: l.sent.map Send.delivered ∧
      (Idle l → l.receiver.delivered = l.sent.map Send.delivered) ∧
      l.receiver.parser.dataSize = 0 := by
  have hscan := scans_stream l.sent
  have hbytes := hl.bytes
  obtain ⟨sends, htaken⟩ := hl.receiver.taken
  refine ⟨?_, ?_, (hl.receiver.settled htaken).2⟩
  · rw [hbytes] at hscan
    exact hl.receiver.tracks.scans.outs_prefix hscan
  · intro hidle
    rw [hidle.readRing, hidle.line, hidle.inFlight, hidle.writeRing] at hbytes
    simp only [List.append_nil] at hbytes
    exact (hl.receiver.settled hbytes.symm).1

/-- Paced traffic gets through: the messages delivered are always the first ones sent,
once each and in lock order, all of them when nothing waits any more, and the decoder
never keeps part of a frame from one call to the next. -/
theorem paced_link_delivers (fd : ℤ) (hfd : -1 < fd) (writeCells : List UInt8)
    (hwrite : writeCells.length = writeRingBufferSize) (writeBufs : List UInt8)
    (hbufs : writeBufs.length = ipcWriteSize) (readCells : List UInt8)
    (hread : readCells.length = readRingBufferSize) (parserData : IpcMsg) (stale : Bool) {l : Link}
    (h : Reach step Paced
      (start fd writeCells hwrite writeBufs readCells hread parserData stale) l) :
    l.receiver.delivered <+: l.sent.map Send.delivered ∧
      (Idle l → l.receiver.delivered = l.sent.map Send.delivered) ∧
      l.receiver.parser.dataSize = 0 :=
  have hsteady : Steady l := h.invariant Steady
    (start_steady fd hfd writeCells hwrite writeBufs hbufs readCells hread parserData stale)
    fun _ _ _ hl hpaced hstep => step_steady hl hpaced hstep
  hsteady.delivered

/-- Two ends just opened. -/
def opened : Link :=
  start 3 (List.replicate writeRingBufferSize 0xa5) List.length_replicate
    (List.replicate ipcWriteSize 0xa5) (List.replicate readRingBufferSize 0xa5)
    List.length_replicate ⟨0, 0, 0, none⟩ false

theorem paced_link_delivers_one :
    ∃ l, runFrom (guarded step Paced) opened
        [.send sendEmpty, .send sendStartPattern, .writer .measure, .writer (.status 1),
          .writer .pop, .writer (.write 26), .carry 520, .look, .turn] = some l ∧
      l.receiver.delivered <+: l.sent.map Send.delivered :=
  have hrun : (runFrom (guarded step Paced) opened
      [.send sendEmpty, .send sendStartPattern, .writer .measure, .writer (.status 1),
        .writer .pop, .writer (.write 26), .carry 520, .look, .turn]).isSome = true := by
    decide +kernel
  have ⟨l, hl⟩ := Option.isSome_iff_exists.mp hrun
  ⟨l, hl, (paced_link_delivers 3 (by decide) _ _ _ List.length_replicate _ _ _ _
    (reach_of_guarded _ hl)).1⟩

end TcIpcCtrl.PacedLink
