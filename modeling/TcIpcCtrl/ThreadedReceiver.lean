import TcIpcCtrl.Delivery
import TcIpcCtrl.RingHistory

/-!
The whole receive path with ReadThread's decision and its push as two steps, as
ParserThread may run between them. Its ring is the ring of the two threads, and
as long as every overwrite is still needed when it is done, the two steps cannot
be told from one pass. Whatever the interleaving, the callback is given messages
that it can read.
-/
namespace TcIpcCtrl.ThreadedReceiver

open CInt Cells Package WhileLoop Runs RingBuffer RingContents RingEffects FrameGrammar
  TcIpcCtrl.Parser DecoderPasses DecoderRefinement RoundTrip
open ReadRing (readRingBufferSize tmmReadSize needsOverwrite needsOverwrite_eq_true pushRead
  pushRead_fits pushRead_full fullRead length_fullRead)
open ReceivePath (Receiver Turns readSize readData handed)

/-- The bytes pushed so far are what has arrived at `receiver`. -/
structure Threads where
  receiver : Receiver
  /-- ReadThread: the bytes read and whether to overwrite -/
  reading : Option (List UInt8 × Bool)
  /-- bytes read from the device so far -/
  arrived : List UInt8

inductive Event
  | read (readBufs : List UInt8)
  | push
  | look
  | turn

/-- The receiver once ReadThread has done what it had decided. -/
def pushedBy (r : Receiver) (reading : List UInt8 × Bool) : Receiver :=
  { r with
    readRing := (pushRead r.readRing reading.1 reading.2).ring
    arrived := r.arrived ++ reading.1 }

def step (t : Threads) : Event → Option Threads
  | .read readBufs =>
    if t.reading = none ∧ 1 ≤ readBufs.length ∧ readBufs.length ≤ tmmReadSize then
      some { t with
        reading := some (readBufs, needsOverwrite t.receiver.readRing readBufs)
        arrived := t.arrived ++ readBufs }
    else none
  | .push => t.reading.map fun reading =>
    { t with receiver := pushedBy t.receiver reading, reading := none }
  | .look => (ReceivePath.step t.receiver .look).map fun r => { t with receiver := r }
  | .turn => (ReceivePath.step t.receiver .turn).map fun r => { t with receiver := r }

def start (cells : List UInt8) (hcells : cells.length = readRingBufferSize) (parserData : IpcMsg)
    (stale cb : Bool) : Threads :=
  { receiver := ReceivePath.start cells hcells parserData stale cb, reading := none, arrived := [] }

/-- An overwrite is still needed when it is done. -/
def StillNeeded (t : Threads) : Event → Prop
  | .push => t.reading.map Prod.snd = some true →
      needsOverwrite t.receiver.readRing ((t.reading.map Prod.fst).getD []) = true
  | .read _ => True
  | .look => True
  | .turn => True

instance (t : Threads) : (e : Event) → Decidable (StillNeeded t e)
  | .push => inferInstanceAs (Decidable (_ → _))
  | .read _ => inferInstanceAs (Decidable True)
  | .look => inferInstanceAs (Decidable True)
  | .turn => inferInstanceAs (Decidable True)

/-! What a push does in any run -/

/-- The ring in which a push leaves at least as much as there was. -/
structure Grows (ring ring' : TcRingbuf UInt8) : Prop where
  valid : Valid ring'
  size : ring'.maxBufferSize = ring.maxBufferSize
  count : count ring ≤ RingContents.count ring'

theorem pushRead_grows (ring : TcRingbuf UInt8) (hv : Valid ring) (readBufs : List UInt8)
    (overwrite : Bool) (hlt : readBufs.length < ring.maxBufferSize)
    (hfit : overwrite = false → count ring + readBufs.length < ring.maxBufferSize) :
    Grows ring (pushRead ring readBufs overwrite).ring := by
  have hput := put_valid ring hv readBufs
  have hcount := count_lt ring hv
  cases overwrite with
  | false =>
    obtain ⟨hring, -, -⟩ := tcPushBuffer_fits ring hv readBufs (hfit rfl)
    rw [show (pushRead ring readBufs false).ring = put ring readBufs from hring]
    refine ⟨hput, rfl, ?_⟩
    rw [count_put ring hv readBufs (hfit rfl)]
    exact Nat.le_add_right _ _
  | true =>
    obtain ⟨hring, -, -⟩ := tcPushBufferOverwrite_eq ring hv readBufs hlt
    rw [show (pushRead ring readBufs true).ring = fill (put ring readBufs) from hring]
    refine ⟨fill_valid _ hput, rfl, ?_⟩
    rw [count_fill _ hput, put_maxBufferSize]
    exact Nat.le_sub_one_of_lt hcount

/-- What every step keeps, overwrites that come too late included. -/
structure Sound (t : Threads) : Prop where
  receiver : ReceivePath.Sound t.receiver
  reading : ∀ readBufs overwrite, t.reading = some (readBufs, overwrite) →
    1 ≤ readBufs.length ∧ readBufs.length ≤ tmmReadSize ∧
      (overwrite = false → count t.receiver.readRing + readBufs.length <
        t.receiver.readRing.maxBufferSize)
  arrived : t.arrived = t.receiver.arrived ++ (t.reading.map Prod.fst).getD []

theorem start_sound (cells : List UInt8) (hcells : cells.length = readRingBufferSize)
    (parserData : IpcMsg) (stale cb : Bool) : Sound (start cells hcells parserData stale cb) where
  receiver := ReceivePath.start_sound cells hcells parserData stale cb
  reading _ _ h := by cases h
  arrived := rfl

theorem Sound.lt_size {t : Threads} (ht : Sound t) {readBufs : List UInt8}
    (hle : readBufs.length ≤ tmmReadSize) :
    readBufs.length < t.receiver.readRing.maxBufferSize := by
  rw [ht.receiver.ring_size, readRingBufferSize]
  simp only [tmmReadSize] at hle
  omega

theorem Sound.grows {t : Threads} (ht : Sound t) {readBufs : List UInt8} {overwrite : Bool}
    (hreading : t.reading = some (readBufs, overwrite)) :
    Grows t.receiver.readRing (pushRead t.receiver.readRing readBufs overwrite).ring := by
  obtain ⟨-, hle, hfit⟩ := ht.reading readBufs overwrite hreading
  exact pushRead_grows _ ht.receiver.ring _ _ (ht.lt_size hle) hfit

/-- ParserThread only takes bytes away. -/
theorem count_le_of_parserThread {r u : Receiver} (hr : ReceivePath.Sound r) {e : ReceivePath.Event}
    (he : e = .look ∨ e = .turn) (h : ReceivePath.step r e = some u) :
    count u.readRing ≤ count r.readRing ∧
      u.readRing.maxBufferSize = r.readRing.maxBufferSize ∧ u.arrived = r.arrived := by
  rcases ReceivePath.step_cases hr h with ⟨_, rfl, -⟩ | ⟨-, -, rfl⟩ | ⟨-, -, rfl⟩ |
    ⟨-, n, out, v, hturns⟩
  · rcases he with heq | heq <;> cases heq
  · exact ⟨le_rfl, rfl, rfl⟩
  · exact ⟨le_rfl, rfl, rfl⟩
  · have hle := ReceivePath.readSize_le_count hr hturns.seen
    rw [hturns.eq]
    refine ⟨?_, rfl, rfl⟩
    rw [count_advance r.readRing hr.ring _ hle]
    exact Nat.sub_le _ _

theorem sound_of_parserThread {t : Threads} (ht : Sound t) {e : ReceivePath.Event}
    (he : e = .look ∨ e = .turn) {u : Receiver} (h : ReceivePath.step t.receiver e = some u) :
    Sound { t with receiver := u } := by
  obtain ⟨hcount, hsize, harrived⟩ := count_le_of_parserThread ht.receiver he h
  refine ⟨ReceivePath.step_sound ht.receiver h, ?_, ?_⟩
  · intro readBufs overwrite hreading
    obtain ⟨hpos, hle, hfit⟩ := ht.reading readBufs overwrite hreading
    refine ⟨hpos, hle, fun hfalse => ?_⟩
    have hroom := hfit hfalse
    change count u.readRing + readBufs.length < u.readRing.maxBufferSize
    omega
  · change t.arrived = u.arrived ++ _
    rw [harrived]
    exact ht.arrived

theorem step_sound {t t' : Threads} (ht : Sound t) {e : Event} (h : step t e = some t') :
    Sound t' := by
  cases e with
  | read readBufs =>
    by_cases hg : t.reading = none ∧ 1 ≤ readBufs.length ∧ readBufs.length ≤ tmmReadSize
    · rw [step, if_pos hg, Option.some.injEq] at h
      rw [← h]
      refine ⟨ht.receiver, ?_, ?_⟩
      · intro bufs overwrite hreading
        simp only [Option.some.injEq, Prod.mk.injEq] at hreading
        obtain ⟨rfl, rfl⟩ := hreading
        refine ⟨hg.2.1, hg.2.2, fun hfits => ?_⟩
        have hneeds := needsOverwrite_eq_true t.receiver.readRing ht.receiver.ring readBufs
          (ht.lt_size hg.2.2)
        by_contra hfull
        rw [hneeds.mpr (Nat.le_of_not_lt hfull)] at hfits
        cases hfits
      · have hsame := ht.arrived
        rw [hg.1, Option.map_none, Option.getD_none, List.append_nil] at hsame
        change t.arrived ++ readBufs = t.receiver.arrived ++ readBufs
        rw [hsame]
    · rw [step, if_neg hg] at h
      cases h
  | push =>
    obtain ⟨⟨readBufs, overwrite⟩, hreading, rfl⟩ := Option.map_eq_some_iff.mp h
    have hgrows := ht.grows hreading
    refine ⟨ReceivePath.sound_of_ring ht.receiver hgrows.valid hgrows.size hgrows.count _, ?_, ?_⟩
    · intro bufs overwrite' hnone
      cases hnone
    · have harrived := ht.arrived
      rw [hreading] at harrived
      change t.arrived = t.receiver.arrived ++ readBufs ++ []
      rw [List.append_nil]
      exact harrived
  | look =>
    obtain ⟨u, hu, rfl⟩ := Option.map_eq_some_iff.mp h
    exact sound_of_parserThread ht (Or.inl rfl) hu
  | turn =>
    obtain ⟨u, hu, rfl⟩ := Option.map_eq_some_iff.mp h
    exact sound_of_parserThread ht (Or.inr rfl) hu

theorem reach_sound {cells : List UInt8} {hcells : cells.length = readRingBufferSize}
    {parserData : IpcMsg} {stale cb : Bool} {C : Threads → Event → Prop} {t : Threads}
    (h : Reach step C (start cells hcells parserData stale cb) t) : Sound t :=
  h.invariant Sound (start_sound cells hcells parserData stale cb)
    fun _ _ _ ht _ hstep => step_sound ht hstep

/-! Two steps as one pass -/

/-- A plain push that was decided is still right when it is done. -/
theorem decision_holds {t : Threads} (ht : Sound t) {readBufs : List UInt8} {overwrite : Bool}
    (hreading : t.reading = some (readBufs, overwrite)) (hneeded : StillNeeded t .push) :
    needsOverwrite t.receiver.readRing readBufs = overwrite := by
  obtain ⟨-, hle, hfit⟩ := ht.reading readBufs overwrite hreading
  cases overwrite with
  | false =>
    rw [← Bool.not_eq_true,
      needsOverwrite_eq_true _ ht.receiver.ring readBufs (ht.lt_size hle)]
    have hroom := hfit rfl
    omega
  | true =>
    rw [StillNeeded, hreading] at hneeded
    exact hneeded rfl

/-- The push is then a pass of ReadThread that reads and pushes at once. -/
theorem push_is_arrive {t : Threads} (ht : Sound t) {readBufs : List UInt8} {overwrite : Bool}
    (hreading : t.reading = some (readBufs, overwrite)) (hneeded : StillNeeded t .push) :
    ReceivePath.step t.receiver (.arrive readBufs) =
      some (pushedBy t.receiver (readBufs, overwrite)) := by
  obtain ⟨hpos, hle, -⟩ := ht.reading readBufs overwrite hreading
  have hdecision := decision_holds ht hreading hneeded
  rw [ReceivePath.step, if_pos ⟨hpos, hle⟩, ReceivePath.readThreadPass, hdecision]
  rfl

/-- A new receiver with a registered callback. -/
def fresh : Threads :=
  start (List.replicate readRingBufferSize 0x5a) List.length_replicate ⟨0, 0, 0, none⟩ false true

theorem step_read {t : Threads} (ht : t.reading = none) :
    step t (.read fullRead) = some { t with
      reading := some (fullRead, needsOverwrite t.receiver.readRing fullRead)
      arrived := t.arrived ++ fullRead } := by
  have hlen := length_fullRead
  rw [step, if_pos ⟨ht, by omega, by rw [hlen, tmmReadSize]⟩]

/-- Full reads that ParserThread does not take. -/
theorem filled_of_reads (cells : List UInt8) (hcells : cells.length = readRingBufferSize)
    (parserData : IpcMsg) (stale cb : Bool) (k : ℕ) (hk : k ≤ 31) :
    ∃ t, Reach step StillNeeded (start cells hcells parserData stale cb) t ∧ t.reading = none ∧
      count t.receiver.readRing = 520 * k := by
  induction k with
  | zero => exact ⟨start cells hcells parserData stale cb, .refl, rfl, rfl⟩
  | succ k ih =>
    obtain ⟨t, hreach, hnone, hcount⟩ := ih (by omega)
    have hlen := length_fullRead
    have hs := (reach_sound hreach).receiver
    have hsize := hs.ring_size
    rw [readRingBufferSize] at hsize
    have hfit : count t.receiver.readRing + fullRead.length <
        t.receiver.readRing.maxBufferSize := by
      omega
    obtain ⟨hneeds, hring⟩ := pushRead_fits _ hs.ring fullRead hfit
    have hread := step_read hnone
    rw [hneeds] at hread
    have hpush : StillNeeded { t with
        reading := some (fullRead, false), arrived := t.arrived ++ fullRead } .push := by
      intro hover
      cases hover
    have hstep : step { t with
        reading := some (fullRead, false), arrived := t.arrived ++ fullRead } .push =
          some { t with
            receiver := pushedBy t.receiver (fullRead, false), reading := none
            arrived := t.arrived ++ fullRead } := by
      rw [step, Option.map_some]
    refine ⟨_, (hreach.tail (show StillNeeded t (.read fullRead) from trivial) hread).tail hpush
      hstep, rfl, ?_⟩
    rw [pushedBy, hring, count_put _ hs.ring fullRead hfit, hcount, hlen, Nat.mul_succ]

/-- When every overwrite is still needed, the receiver is in a state that whole passes
of ReadThread reach, and what has been read is what has arrived there and what
ReadThread holds. -/
theorem threads_refine_passes (cells : List UInt8) (hcells : cells.length = readRingBufferSize)
    (parserData : IpcMsg) (stale cb : Bool) {t : Threads}
    (h : Reach step StillNeeded (start cells hcells parserData stale cb) t) :
    Reach ReceivePath.step Free (ReceivePath.start cells hcells parserData stale cb) t.receiver ∧
      t.arrived = t.receiver.arrived ++ (t.reading.map Prod.fst).getD [] := by
  have hsim : ∃ r, Reach ReceivePath.step Free
      (ReceivePath.start cells hcells parserData stale cb) r ∧ Sound t ∧ t.receiver = r := by
    apply h.simulates (fun t r => Sound t ∧ t.receiver = r)
      ⟨start_sound cells hcells parserData stale cb, rfl⟩
    rintro u e v r ⟨hu, rfl⟩ hneeded hstep
    have hv := step_sound hu hstep
    cases e with
    | read readBufs =>
      by_cases hg : u.reading = none ∧ 1 ≤ readBufs.length ∧ readBufs.length ≤ tmmReadSize
      · rw [step, if_pos hg, Option.some.injEq] at hstep
        rw [← hstep] at hv ⊢
        exact Or.inl ⟨hv, rfl⟩
      · rw [step, if_neg hg] at hstep
        cases hstep
    | push =>
      obtain ⟨⟨readBufs, overwrite⟩, hreading, rfl⟩ := Option.map_eq_some_iff.mp hstep
      exact Or.inr ⟨.arrive readBufs, _, trivial, push_is_arrive hu hreading hneeded, hv, rfl⟩
    | look =>
      obtain ⟨w, hw, rfl⟩ := Option.map_eq_some_iff.mp hstep
      exact Or.inr ⟨.look, w, trivial, hw, hv, rfl⟩
    | turn =>
      obtain ⟨w, hw, rfl⟩ := Option.map_eq_some_iff.mp hstep
      exact Or.inr ⟨.turn, w, trivial, hw, hv, rfl⟩
  obtain ⟨r, hreach, hsound, rfl⟩ := hsim
  exact ⟨hreach, hsound.arrived⟩

/-- A ring that is filled and then overwritten. -/
theorem threads_refine_passes_overwrite :
    ∃ u v, Reach step StillNeeded fresh u ∧ u.reading = some (fullRead, true) ∧
      step u .push = some v ∧ Reach ReceivePath.step Free fresh.receiver v.receiver := by
  obtain ⟨t, hreach, hnone, hcount⟩ :=
    filled_of_reads _ List.length_replicate ⟨0, 0, 0, none⟩ false true 31 (Nat.le_refl 31)
  have hlen := length_fullRead
  have hs := (reach_sound hreach).receiver
  have hsize := hs.ring_size
  rw [readRingBufferSize] at hsize
  obtain ⟨hneeds, -, -⟩ := pushRead_full _ hs.ring fullRead (by omega) (by omega)
  have hread := step_read hnone
  rw [hneeds] at hread
  have hu := hreach.tail (show StillNeeded t (.read fullRead) from trivial) hread
  exact ⟨_, _, hu, rfl, rfl, (threads_refine_passes _ _ _ _ _
    (hu.tail (e := Event.push) (fun _ => hneeds) rfl)).1⟩

/-! The ring of the two threads -/

/-- The size that ParserThread pops in its next turn. -/
def popping (r : Receiver) : Option ℕ :=
  r.availableSize.bind fun n =>
    if 0 < n then some (readSize n (tcParserFreeSpace r.parser)) else none

/-- The ring side of a receiver. -/
structure Projects (t : Threads) (s : ReadRing.State UInt8) : Prop where
  sound : Sound t
  ring : s.ring = t.receiver.readRing
  reading : s.reading = t.reading
  popping : s.popping = ThreadedReceiver.popping t.receiver
  arrived : s.arrived = t.arrived
  popped : s.popped = t.receiver.taken

theorem look_projects {t : Threads} {s : ReadRing.State UInt8} (hp : Projects t s) {u : Receiver}
    (h : ReceivePath.step t.receiver .look = some u) :
    Projects { t with receiver := u } s ∨ ∃ d s', ReadRing.step s d = some s' ∧
      Projects { t with receiver := u } s' := by
  have hsound := sound_of_parserThread hp.sound (Or.inl rfl) h
  have hv := hp.sound.receiver.ring
  rcases ReceivePath.step_cases hp.sound.receiver h with ⟨_, heq, -⟩ | ⟨-, hnone, rfl⟩ | ⟨heq, -⟩ |
    ⟨heq, -⟩
  · cases heq
  · have hidle : s.popping = none := by
      rw [hp.popping, popping, hnone, Option.bind_none]
    by_cases hpos : (0 : ℤ) < count t.receiver.readRing
    · have hle : readSize (count t.receiver.readRing) (tcParserFreeSpace t.receiver.parser) ≤
          count t.receiver.readRing :=
        ReceivePath.readSize_le_count hsound.receiver rfl
      refine Or.inr ⟨.look (readSize (count t.receiver.readRing)
        (tcParserFreeSpace t.receiver.parser)), { s with
          popping := some (readSize (count t.receiver.readRing)
            (tcParserFreeSpace t.receiver.parser)) },
        ?_, hsound, hp.ring, hp.reading, ?_, hp.arrived, hp.popped⟩
      · rw [ReadRing.step, hp.ring, dataAvailable_eq _ hv, if_pos ⟨hidle, hpos, by omega⟩]
      · rw [popping, Option.bind_some, if_pos hpos]
    · refine Or.inl ⟨hsound, hp.ring, hp.reading, ?_, hp.arrived, hp.popped⟩
      rw [hidle, popping, Option.bind_some, if_neg hpos]
  · cases heq
  · cases heq

theorem turn_projects {t : Threads} {s : ReadRing.State UInt8} (hp : Projects t s) {u : Receiver}
    (h : ReceivePath.step t.receiver .turn = some u) :
    Projects { t with receiver := u } s ∨ ∃ d s', ReadRing.step s d = some s' ∧
      Projects { t with receiver := u } s' := by
  have hsound := sound_of_parserThread hp.sound (Or.inr rfl) h
  rcases ReceivePath.step_cases hp.sound.receiver h with ⟨_, heq, -⟩ | ⟨heq, -⟩ | ⟨-, hzero, rfl⟩ |
    ⟨-, n, out, v, hturns⟩
  · cases heq
  · cases heq
  · refine Or.inl ⟨hsound, hp.ring, hp.reading, ?_, hp.arrived, hp.popped⟩
    rw [hp.popping, popping, popping, hzero]
    rfl
  · obtain ⟨hring, -, -⟩ := ReceivePath.readData_ok hp.sound.receiver hturns.seen hturns.pos
    have hpopping : s.popping =
        some (readSize n (tcParserFreeSpace t.receiver.parser)) := by
      rw [hp.popping, popping, hturns.seen, Option.bind_some, if_pos hturns.pos]
    refine Or.inr ⟨.pop, { s with
      ring := (readData t.receiver n).ring
      popping := none
      popped := s.popped ++ (readData t.receiver n).out }, ?_, hsound, ?_, hp.reading, ?_,
      hp.arrived, ?_⟩
    · rw [ReadRing.step, hpopping, Option.map_some, hp.ring]
      rfl
    · rw [hturns.eq]
      exact hring
    · rw [hturns.eq]
      rfl
    · rw [hturns.eq, hp.popped]

/-- Every run of the receiver is a run of the two threads on their ring: the decoder
takes what they pop. -/
theorem threads_run_ring (cells : List UInt8) (hcells : cells.length = readRingBufferSize)
    (parserData : IpcMsg) (stale cb : Bool) {t : Threads}
    (h : Reach step Free (start cells hcells parserData stale cb) t) :
    ∃ s, Reach ReadRing.step Free (ReadRing.start cells hcells) s ∧
      s.ring = t.receiver.readRing ∧ s.reading = t.reading ∧ s.arrived = t.arrived ∧
      s.popped = t.receiver.taken := by
  have hsim : ∃ s, Reach ReadRing.step Free (ReadRing.start cells hcells) s ∧ Projects t s := by
    apply h.simulates Projects
      ⟨start_sound cells hcells parserData stale cb, rfl, rfl, rfl, rfl, rfl⟩
    intro u e v s hp _ hstep
    have hv := step_sound hp.sound hstep
    cases e with
    | read readBufs =>
      by_cases hg : u.reading = none ∧ 1 ≤ readBufs.length ∧ readBufs.length ≤ tmmReadSize
      · rw [step, if_pos hg, Option.some.injEq] at hstep
        rw [← hstep] at hv ⊢
        refine Or.inr ⟨.read readBufs, { s with
          reading := some (readBufs, needsOverwrite s.ring readBufs)
          arrived := s.arrived ++ readBufs }, trivial, ?_, hv, hp.ring, ?_, hp.popping, ?_,
          hp.popped⟩
        · rw [ReadRing.step, hp.reading, if_pos hg]
        · rw [hp.ring]
        · rw [hp.arrived]
      · rw [step, if_neg hg] at hstep
        cases hstep
    | push =>
      obtain ⟨reading, hreading, rfl⟩ := Option.map_eq_some_iff.mp hstep
      refine Or.inr ⟨.push, { s with
        ring := (pushRead s.ring reading.1 reading.2).ring, reading := none }, trivial, ?_, hv, ?_,
        rfl, hp.popping, hp.arrived, hp.popped⟩
      · rw [ReadRing.step, hp.reading, hreading, Option.map_some]
      · rw [hp.ring]
        rfl
    | look =>
      obtain ⟨w, hw, rfl⟩ := Option.map_eq_some_iff.mp hstep
      rcases look_projects hp hw with hsame | ⟨d, s', hd, hs'⟩
      · exact Or.inl hsame
      · exact Or.inr ⟨d, s', trivial, hd, hs'⟩
    | turn =>
      obtain ⟨w, hw, rfl⟩ := Option.map_eq_some_iff.mp hstep
      rcases turn_projects hp hw with hsame | ⟨d, s', hd, hs'⟩
      · exact Or.inl hsame
      · exact Or.inr ⟨d, s', trivial, hd, hs'⟩
  obtain ⟨s, hreach, hp⟩ := hsim
  exact ⟨s, hreach, hp.ring, hp.reading, hp.arrived, hp.popped⟩

theorem threads_run_ring_one :
    ∃ t, runFrom step fresh [.read [0xff, 0x55], .push, .look, .turn] = some t ∧
      t.receiver.taken = [0xff, 0x55] ∧ ∃ s, Reach ReadRing.step Free
          (ReadRing.start (List.replicate readRingBufferSize 0x5a) List.length_replicate) s ∧
        s.ring = t.receiver.readRing ∧ s.reading = t.reading ∧ s.arrived = t.arrived ∧
        s.popped = t.receiver.taken :=
  have hrun : (runFrom step fresh [.read [0xff, 0x55], .push, .look, .turn]).map
      (fun t => t.receiver.taken) = some [0xff, 0x55] := by
    decide +kernel
  have ⟨t, ht, htaken⟩ := Option.map_eq_some_iff.mp hrun
  ⟨t, ht, htaken, threads_run_ring _ _ _ _ _ (reach_of_runFrom _ ht)⟩

end TcIpcCtrl.ThreadedReceiver
