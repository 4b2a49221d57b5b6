import TcIpcCtrl.ReadRing

/-!
What the read ring holds in every run, overwrites that come too late included.
The array always keeps the newest bytes pushed, so that what is readable is the
end of the stream, as long as the distance from Head to Tail; an overwrite that
finds room to spare only makes that end longer. What ParserThread pops is thus
always a contiguous piece of the stream, never a mixture of its pieces.
-/
namespace TcIpcCtrl.RingHistory

open Cells Runs BoundedQueue RingBuffer RingContents RingEffects ReadRing

variable {α : Type*}

/-! The whole array -/

/-- All cells, from the one that is written next, which is the oldest. -/
def trail (r : TcRingbuf α) : List α := readRound r.pBuffer r.tail r.maxBufferSize

theorem trail_init (buff : List α) (size : ℕ) (hbuff : buff.length = size) :
    trail (tcBufferInit buff size hbuff) = buff := by
  show readRound buff 0 size = buff
  rw [readRound_eq_slice _ _ _ (by omega), slice, List.drop_zero, List.take_of_length_le (by omega)]

/-- What is readable is the newest part of the array. -/
theorem contents_eq_trail (r : TcRingbuf α) (hv : Valid r) :
    contents r = (trail r).rtake (count r) := by
  have hlt := count_lt r hv
  have hlen := length_readRound r.pBuffer r.tail (r.maxBufferSize - count r) (by
    rw [r.pBuffer_length]
    omega)
  have hsplit : trail r = readRound r.pBuffer r.tail (r.maxBufferSize - count r) ++
      readRound r.pBuffer (r.tail + (r.maxBufferSize - count r)) (count r) := by
    rw [← readRound_add, Nat.sub_add_cancel (Nat.le_of_lt hlt), trail]
  have hhead : readRound r.pBuffer (r.tail + (r.maxBufferSize - count r)) (count r) =
      contents r := by
    apply readRound_congr
    rw [r.pBuffer_length, ← head_add_count r hv, Nat.mod_add_mod,
      show r.head + count r + (r.maxBufferSize - count r) = r.head + r.maxBufferSize by omega,
      Nat.add_mod_right]
  rw [hsplit, hhead, rtake_append_length _ (length_contents r hv)]

/-- A store moves the oldest cells out of the array, whatever is readable. -/
theorem trail_put (r : TcRingbuf α) (src : List α) (hle : src.length ≤ r.maxBufferSize) :
    trail (put r src) = (trail r ++ src).rtake r.maxBufferSize := by
  have hlen := r.pBuffer_length
  have hlen' := (put r src).pBuffer_length
  have hturn : r.tail % r.pBuffer.length = (r.tail + r.maxBufferSize) % r.pBuffer.length := by
    rw [hlen, Nat.add_mod_right]
  have hstart : readRound (put r src).pBuffer (put r src).tail r.maxBufferSize =
      readRound (put r src).pBuffer (r.tail + src.length) r.maxBufferSize := by
    apply readRound_congr
    rw [hlen']
    exact Nat.mod_mod _ _
  have hsplit : r.maxBufferSize = r.maxBufferSize - src.length + src.length := by omega
  have hold : readRound (put r src).pBuffer (r.tail + src.length)
      (r.maxBufferSize - src.length) =
        readRound r.pBuffer (r.tail + src.length) (r.maxBufferSize - src.length) := by
    show readRound (writeRound r.pBuffer r.tail src) _ _ = _
    rw [writeRound_congr _ _ hturn]
    exact readRound_writeRound_of_le _ _ _ _ _ (by omega) (by omega)
  have hnew : readRound (put r src).pBuffer
      (r.tail + src.length + (r.maxBufferSize - src.length)) src.length = src := by
    show readRound (writeRound r.pBuffer r.tail src) _ _ = _
    rw [writeRound_congr _ _ hturn,
      show r.tail + src.length + (r.maxBufferSize - src.length) = r.tail + r.maxBufferSize by omega]
    exact readRound_writeRound _ _ _ (by omega)
  have hkept : (trail r).rtake (r.maxBufferSize - src.length) =
      readRound r.pBuffer (r.tail + src.length) (r.maxBufferSize - src.length) := by
    by_cases hfull : src.length = r.maxBufferSize
    · rw [hfull, Nat.sub_self, List.rtake_zero]
      rfl
    · have hrest := length_readRound r.pBuffer (r.tail + src.length)
        (r.maxBufferSize - src.length) (by omega)
      have hparts : trail r = readRound r.pBuffer r.tail src.length ++
          readRound r.pBuffer (r.tail + src.length) (r.maxBufferSize - src.length) := by
        rw [← readRound_add, Nat.add_sub_cancel' hle, trail]
      rw [hparts, rtake_append_length _ hrest]
  rw [rtake_append_of_le _ _ _ hle, hkept]
  calc
    trail (put r src) = readRound (put r src).pBuffer (r.tail + src.length) r.maxBufferSize :=
      hstart
    _ = readRound (put r src).pBuffer (r.tail + src.length) (r.maxBufferSize - src.length) ++
          readRound (put r src).pBuffer
            (r.tail + src.length + (r.maxBufferSize - src.length)) src.length := by
      rw [← readRound_add, ← hsplit]
    _ = _ := by rw [hold, hnew]

/-! What a step can do in any run -/

theorem push_cases {s t : State α} (hs : Sound s) (h : step s .push = some t) :
    ∃ readBufs, readBufs.length ≤ tmmReadSize ∧
      ((s.reading = some (readBufs, false) ∧
          count s.ring + readBufs.length < s.ring.maxBufferSize ∧
          t = { s with ring := put s.ring readBufs, reading := none }) ∨
        (s.reading = some (readBufs, true) ∧
          t = { s with ring := fill (put s.ring readBufs), reading := none })) := by
  obtain ⟨⟨readBufs, overwrite⟩, hreading, ht⟩ := Option.map_eq_some_iff.mp h
  obtain ⟨hle, hfit⟩ := hs.reading readBufs overwrite hreading
  refine ⟨readBufs, hle, ?_⟩
  cases overwrite with
  | false =>
    obtain ⟨hring, -, -⟩ := tcPushBuffer_fits s.ring hs.ring readBufs (hfit rfl)
    have hput : (pushRead s.ring readBufs false).ring = put s.ring readBufs := hring
    rw [hput] at ht
    exact Or.inl ⟨hreading, hfit rfl, ht.symm⟩
  | true =>
    obtain ⟨hring, -, -⟩ := tcPushBufferOverwrite_eq s.ring hs.ring readBufs (hs.lt_size hle)
    have hput : (pushRead s.ring readBufs true).ring = fill (put s.ring readBufs) := hring
    rw [hput] at ht
    exact Or.inr ⟨hreading, ht.symm⟩

theorem sound_of_push {s : State α} (hs : Sound s) {ring : TcRingbuf α} (hv : Valid ring)
    (hsize : ring.maxBufferSize = s.ring.maxBufferSize) (hcount : count s.ring ≤ count ring) :
    Sound { s with ring := ring, reading := none } := by
  refine ⟨hv, hsize.trans hs.ring_size, ?_, ?_⟩
  · intro readBufs overwrite hreading
    cases hreading
  · intro size hpopping
    obtain ⟨hpos, hle⟩ := hs.popping size hpopping
    exact ⟨Nat.lt_of_lt_of_le hpos hcount, Nat.le_trans hle hcount⟩

/-- An overwrite leaves the ring full, so what ParserThread has seen is still there. -/
theorem push_sound {s t : State α} (hs : Sound s) (h : step s .push = some t) : Sound t := by
  have hcount := count_lt s.ring hs.ring
  obtain ⟨readBufs, -, ⟨-, hfit, rfl⟩ | ⟨-, rfl⟩⟩ := push_cases hs h
  · have hv := put_valid s.ring hs.ring readBufs
    refine sound_of_push hs hv rfl ?_
    rw [count_put s.ring hs.ring readBufs hfit]
    exact Nat.le_add_right _ _
  · have hv := put_valid s.ring hs.ring readBufs
    refine sound_of_push hs (fill_valid _ hv) rfl ?_
    rw [count_fill _ hv, put_maxBufferSize]
    omega

theorem step_sound_free {s t : State α} (hs : Sound s) {e : Event α} (h : step s e = some t) :
    Sound t := by
  cases e with
  | read readBufs => exact step_sound (e := .read readBufs) hs trivial h
  | push => exact push_sound hs h
  | look size => exact step_sound (e := .look size) hs trivial h
  | pop => exact step_sound (e := .pop) hs trivial h

/-! The stream -/

/-- The bytes that ReadThread has pushed; those it holds are the last ones read. -/
def pushed (s : State α) : List α := s.arrived.take (s.arrived.length - (pending s).length)

/-- What the array has held, from the bytes that were there at the start. -/
def history (cells : List α) (s : State α) : List α := cells ++ pushed s

/-- The array keeps the newest bytes of the history. -/
structure Keeps (cells : List α) (s : State α) : Prop where
  sound : Sound s
  pending : pushed s ++ pending s = s.arrived
  trail : trail s.ring = (history cells s).rtake s.ring.maxBufferSize

theorem start_keeps (cells : List α) (hcells : cells.length = readRingBufferSize) :
    Keeps cells (start cells hcells) := by
  refine ⟨start_sound cells hcells, rfl, ?_⟩
  have hhistory : history cells (start cells hcells) = cells := List.append_nil cells
  rw [hhistory, start, trail_init]
  exact (rtake_of_length_le cells _ (Nat.le_of_eq hcells)).symm

theorem pushed_of_none {s : State α} (h : s.reading = none) : pushed s = s.arrived := by
  rw [pushed, pending, h, Option.map_none, Option.getD_none, List.length_nil, Nat.sub_zero,
    List.take_length]

theorem keeps_of_push {cells : List α} {s : State α} (hs : Keeps cells s) {readBufs : List α}
    (hpending : ReadRing.pending s = readBufs) (hle : readBufs.length ≤ tmmReadSize)
    {ring : TcRingbuf α} (hring : RingHistory.trail ring = RingHistory.trail (put s.ring readBufs))
    (hsize : ring.maxBufferSize = s.ring.maxBufferSize)
    (hsound : Sound { s with ring := ring, reading := none }) :
    Keeps cells { s with ring := ring, reading := none } := by
  have hpushed : pushed { s with ring := ring, reading := none } = pushed s ++ readBufs := by
    rw [pushed_of_none rfl, ← hpending]
    exact hs.pending.symm
  refine ⟨hsound, ?_, ?_⟩
  · rw [pushed_of_none rfl]
    exact List.append_nil _
  · have hlt := hs.sound.lt_size hle
    show RingHistory.trail ring = (cells ++ pushed _).rtake ring.maxBufferSize
    rw [hring, trail_put _ _ hlt.le, hpushed, hs.trail, hsize, ← List.append_assoc]
    exact rtake_rtake_append _ _ _

/-- Bytes that have been read and not pushed are not in the history yet. -/
theorem keeps_of_read {cells : List α} {s : State α} (hs : Keeps cells s)
    (hnone : s.reading = none) {readBufs : List α} {overwrite : Bool}
    (hsound : Sound { s with
      reading := some (readBufs, overwrite), arrived := s.arrived ++ readBufs }) :
    Keeps cells { s with
      reading := some (readBufs, overwrite), arrived := s.arrived ++ readBufs } := by
  have hpushed : pushed { s with
      reading := some (readBufs, overwrite), arrived := s.arrived ++ readBufs } = pushed s := by
    rw [pushed, pending_eq rfl, pushed_of_none hnone, List.length_append, Nat.add_sub_cancel,
      List.take_left']
    rfl
  refine ⟨hsound, ?_, ?_⟩
  · rw [hpushed, pushed_of_none hnone, pending_eq rfl]
  · rw [history, hpushed]
    exact hs.trail

theorem step_keeps {cells : List α} {s t : State α} (hs : Keeps cells s) {e : Event α}
    (h : step s e = some t) : Keeps cells t := by
  have hsound := step_sound_free hs.sound h
  cases e with
  | read readBufs =>
    rcases step_cases (e := .read readBufs) hs.sound trivial h with ⟨_, -, hnone, -, rfl⟩ |
      ⟨_, _, _, heq, -⟩ | ⟨_, heq, -⟩ | ⟨_, heq, -⟩
    · exact keeps_of_read hs hnone hsound
    · cases heq
    · cases heq
    · cases heq
  | push =>
    obtain ⟨readBufs, hle, ⟨hreading, -, rfl⟩ | ⟨hreading, rfl⟩⟩ := push_cases hs.sound h
    · exact keeps_of_push hs (pending_eq hreading) hle rfl rfl hsound
    · exact keeps_of_push hs (pending_eq hreading) hle rfl rfl hsound
  | look size =>
    rcases step_cases (e := .look size) hs.sound trivial h with ⟨_, heq, -⟩ |
      ⟨_, _, _, heq, -⟩ | ⟨_, -, -, -, rfl⟩ | ⟨_, heq, -⟩
    · cases heq
    · cases heq
    · exact ⟨hsound, hs.pending, hs.trail⟩
    · cases heq
  | pop =>
    rcases step_cases (e := .pop) hs.sound trivial h with ⟨_, heq, -⟩ |
      ⟨_, _, _, heq, -⟩ | ⟨_, heq, -⟩ | ⟨_, -, -, rfl⟩
    · cases heq
    · cases heq
    · cases heq
    · exact ⟨hsound, hs.pending, hs.trail⟩

theorem Keeps.contents_eq {cells : List α} {s : State α} (hs : Keeps cells s) :
    contents s.ring = (history cells s).rtake (count s.ring) := by
  have hlt := count_lt s.ring hs.sound.ring
  rw [contents_eq_trail s.ring hs.sound.ring, hs.trail, rtake_rtake _ hlt.le]

/-- In every run what is readable is the newest part of the history, a pop takes a
piece of it that has no gap, and an overwrite makes all but one of the newest bytes
that fit into the array readable. -/
theorem ring_holds_newest (cells : List α) (hcells : cells.length = readRingBufferSize)
    {s : State α} (h : Reach step Free (start cells hcells) s) :
    pushed s ++ pending s = s.arrived ∧
      contents s.ring = (history cells s).rtake (count s.ring) ∧
      (∀ size t, s.popping = some size → step s .pop = some t →
        size ≤ count s.ring ∧ t.popped = s.popped ++
          slice (history cells s) ((history cells s).length - count s.ring) size) ∧
      ∀ readBufs t, s.reading = some (readBufs, true) → step s .push = some t →
        contents t.ring = (history cells s ++ readBufs).rtake (readRingBufferSize - 1) := by
  have hkeeps : Keeps cells s := h.invariant (Keeps cells) (start_keeps cells hcells)
    fun _ _ _ hs _ hstep => step_keeps hs hstep
  have hv := hkeeps.sound.ring
  refine ⟨hkeeps.pending, hkeeps.contents_eq, ?_, ?_⟩
  · intro size t hpopping hstep
    obtain ⟨hpos, hle⟩ := hkeeps.sound.popping size hpopping
    obtain ⟨-, -, hout, -⟩ := tcPopBuffer_ok s.ring hv size hpos hle
    rw [step, hpopping, Option.map_some, Option.some.injEq] at hstep
    refine ⟨hle, ?_⟩
    rw [← hstep, hout, hkeeps.contents_eq]
    rfl
  · intro readBufs t hreading hstep
    have ht := step_keeps hkeeps hstep
    obtain ⟨bufs, hle, ⟨hfits, -⟩ | ⟨hover, rfl⟩⟩ := push_cases hkeeps.sound hstep
    · rw [hreading] at hfits
      cases hfits
    · rw [hreading, Option.some.injEq, Prod.mk.injEq] at hover
      obtain ⟨rfl, -⟩ := hover
      have hput := put_valid s.ring hv readBufs
      have hcount : count (fill (put s.ring readBufs)) = readRingBufferSize - 1 := by
        rw [count_fill _ hput, put_maxBufferSize, hkeeps.sound.ring_size]
      have hpushed : pushed { s with ring := fill (put s.ring readBufs), reading := none } =
          pushed s ++ readBufs := by
        rw [pushed_of_none rfl, ← pending_eq hreading]
        exact hkeeps.pending.symm
      rw [ht.contents_eq, history, hpushed, hcount, history, List.append_assoc]

/-- A filled ring from which a full read is popped after ReadThread has decided to
overwrite it. -/
theorem ring_holds_newest_overwrite :
    ∃ u v w : State UInt8, Reach step Free
        (start (List.replicate readRingBufferSize 0x00) List.length_replicate) u ∧
      step u .pop = some v ∧ v.popped =
        slice (history (List.replicate readRingBufferSize 0x00) u)
          ((history (List.replicate readRingBufferSize 0x00) u).length - count u.ring) 520 ∧
      step v .push = some w ∧ contents w.ring =
        (history (List.replicate readRingBufferSize 0x00) v ++ fullRead).rtake
          (readRingBufferSize - 1) := by
  obtain ⟨s, hreach, hs⟩ := filled_of_reads (List.replicate readRingBufferSize 0x00)
    List.length_replicate 31 (Nat.le_refl 31)
  have havail := dataAvailable_eq s.ring hs.sound.ring
  have hcount := hs.count
  have hpos : tcBufferDataAvailable s.ring > 0 := by omega
  have hle : ((520 : ℕ) : ℤ) ≤ tcBufferDataAvailable s.ring := by omega
  obtain ⟨hread, -⟩ := filled_overwrites hs
  have hlook : step { s with
      reading := some (fullRead, true), arrived := s.arrived ++ fullRead } (.look 520) =
        some { s with
          reading := some (fullRead, true), popping := some 520
          arrived := s.arrived ++ fullRead } := by
    rw [step, if_pos ⟨hs.popping, hpos, hle⟩]
  have hu := ((hreach.mono fun _ _ _ => trivial).tail (C := Free) trivial hread).tail
    (C := Free) trivial hlook
  obtain ⟨-, -, hpops, -⟩ := ring_holds_newest _ _ hu
  have hpopped := (hpops 520 _ rfl rfl).2
  obtain ⟨-, -, -, hpushes⟩ := ring_holds_newest _ _ (hu.tail (e := .pop) trivial rfl)
  refine ⟨_, _, _, hu, rfl, ?_, rfl, hpushes fullRead _ rfl rfl⟩
  rw [hpopped, hs.popped, List.nil_append]

end TcIpcCtrl.RingHistory
