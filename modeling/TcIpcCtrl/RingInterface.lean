import TcIpcCtrl.RingEffects
import TcIpcCtrl.Runs

/-!
The representation invariant over the whole interface of tc-buffer.h. Every
operation keeps both positions inside the array except the overwriting byte
push, which advances Head without a modulo: called on a full ring whose Head is
at the last index it leaves Head at M. Along a run the invariant holds exactly
as long as that call is not made.
-/
namespace TcIpcCtrl.RingInterface

open CInt Cells RingBuffer RingContents RingEffects Runs

variable {α : Type*}

inductive RingOp (α : Type*)
  | pushOneByte (data : α)
  | pushOneByteOverwrite (data : α)
  | popOneByte
  | flush
  | flushByte (flushSize : ℕ)
  | push (buffer : List α)
  | pushOverwrite (buffer : List α)
  | pop (size : ℕ)

/-- The effect of an operation; `none` for the calls the library never makes. -/
def RingOp.call (r : TcRingbuf α) : RingOp α → Option (Call α)
  | .pushOneByte data => some (tcPushOneByte r data)
  | .pushOneByteOverwrite data => some (tcPushOneByteOverwrite r data)
  | .popOneByte => some (tcPopOneByte r)
  | .flush => some { ring := tcBufferFlush r, ret := tcBufferOk, out := [], spans := [] }
  | .flushByte flushSize =>
    if flushSize < r.maxBufferSize then
      some { ring := tcBufferFlushByte r flushSize, ret := tcBufferOk, out := [], spans := [] }
    else none
  | .push buffer => some (tcPushBuffer r buffer)
  | .pushOverwrite buffer =>
    if buffer.length < r.maxBufferSize ∧ tcBufferFreeSpace r < buffer.length then
      some (tcPushBufferOverwrite r buffer)
    else none
  | .pop size => if size < r.maxBufferSize then some (tcPopBuffer r size) else none

def RingOp.step (r : TcRingbuf α) (op : RingOp α) : Option (TcRingbuf α) :=
  (op.call r).map Call.ring

/-- The invariant, with what it gives the next operation. -/
structure InRange (r : TcRingbuf α) : Prop where
  head_lt : r.head < r.maxBufferSize
  tail_lt : r.tail < r.maxBufferSize
  spans : ∀ (op : RingOp α) c, op.call r = some c → ∀ sp ∈ c.spans, sp.Within r.maxBufferSize
  available_nonneg : 0 ≤ tcBufferDataAvailable r
  available_le : tcBufferDataAvailable r ≤ r.maxBufferSize - 1
  available_add_free :
    tcBufferDataAvailable r + tcBufferFreeSpace r = r.maxBufferSize - 1

/-- The one call that advances Head past the end. -/
def RunsOffEnd (r : TcRingbuf α) (op : RingOp α) : Prop :=
  (∃ data, op = .pushOneByteOverwrite data) ∧
    (r.tail + 1) % r.maxBufferSize = r.head ∧ r.head + 1 = r.maxBufferSize

/-- A size the library supports. -/
def SizeOk (r : TcRingbuf α) : Prop := 2 ≤ r.maxBufferSize ∧ r.maxBufferSize < 2147483648

private theorem some_of_guard {β : Type*} {p : Prop} [Decidable p] {a b : β}
    (h : (if p then some a else none) = some b) : p ∧ a = b := by
  obtain ⟨hp, hab⟩ := Option.ite_none_right_eq_some.mp h
  exact ⟨hp, Option.some.inj hab⟩

theorem tcPushOneByte_spans (r : TcRingbuf α) (hv : Valid r) (data : α) :
    ∀ sp ∈ (tcPushOneByte r data).spans, sp.Within r.maxBufferSize := by
  have htail := hv.tail_lt
  unfold tcPushOneByte
  dsimp only
  split
  · simp
  · exact span_within _ _ _ (by omega)

theorem tcPushOneByteOverwrite_spans (r : TcRingbuf α) (hv : Valid r) (data : α) :
    ∀ sp ∈ (tcPushOneByteOverwrite r data).spans, sp.Within r.maxBufferSize := by
  have htail := hv.tail_lt
  unfold tcPushOneByteOverwrite
  dsimp only
  split
  · exact span_within _ _ _ (by omega)
  · exact span_within _ _ _ (by omega)

theorem tcPopOneByte_spans (r : TcRingbuf α) (hv : Valid r) :
    ∀ sp ∈ (tcPopOneByte r).spans, sp.Within r.maxBufferSize := by
  have hhead := hv.head_lt
  unfold tcPopOneByte
  split
  · simp
  · exact span_within _ _ _ (by omega)

theorem tcPushBuffer_spans (r : TcRingbuf α) (hv : Valid r) (buffer : List α) :
    ∀ sp ∈ (tcPushBuffer r buffer).spans, sp.Within r.maxBufferSize := by
  by_cases hfit : count r + buffer.length < r.maxBufferSize
  · exact (tcPushBuffer_fits r hv buffer hfit).2.2
  · simp [tcPushBuffer_full r hv buffer (by omega)]

theorem tcPopBuffer_spans (r : TcRingbuf α) (hv : Valid r) (n : ℕ) (hn : n < r.maxBufferSize) :
    ∀ sp ∈ (tcPopBuffer r n).spans, sp.Within r.maxBufferSize := by
  have hsize := hv.size_lt
  by_cases hzero : count r = 0
  · simp [tcPopBuffer_empty r hv n hzero]
  · by_cases hle : n ≤ count r
    · exact (tcPopBuffer_ok r hv n (by omega) hle).2.2.2
    · simp [tcPopBuffer_error r hv n (by omega) (by omega) (by omega)]

theorem call_spans (r : TcRingbuf α) (hv : Valid r) (op : RingOp α) (c : Call α)
    (h : op.call r = some c) : ∀ sp ∈ c.spans, sp.Within r.maxBufferSize := by
  cases op with
  | pushOneByte data => exact Option.some.inj h ▸ tcPushOneByte_spans r hv data
  | pushOneByteOverwrite data => exact Option.some.inj h ▸ tcPushOneByteOverwrite_spans r hv data
  | popOneByte => exact Option.some.inj h ▸ tcPopOneByte_spans r hv
  | flush => exact Option.some.inj h ▸ by simp
  | flushByte flushSize =>
    obtain ⟨_, rfl⟩ := some_of_guard h
    simp
  | push buffer => exact Option.some.inj h ▸ tcPushBuffer_spans r hv buffer
  | pushOverwrite buffer =>
    obtain ⟨⟨hlt, _⟩, rfl⟩ := some_of_guard h
    exact (tcPushBufferOverwrite_eq r hv buffer hlt).2.2
  | pop size =>
    obtain ⟨hlt, rfl⟩ := some_of_guard h
    exact tcPopBuffer_spans r hv size hlt

/-- Positions in range are all that the invariant needs. -/
theorem inRange_of_valid (r : TcRingbuf α) (hv : Valid r) : InRange r := by
  have hlt := count_lt r hv
  refine ⟨hv.head_lt, hv.tail_lt, call_spans r hv, ?_, ?_, ?_⟩
  · rw [dataAvailable_eq r hv]
    omega
  · rw [dataAvailable_eq r hv]
    omega
  · rw [dataAvailable_eq r hv, freeSpace_eq r hv]
    omega

theorem InRange.valid {r : TcRingbuf α} (h : InRange r) (hsize : SizeOk r) : Valid r :=
  ⟨hsize.1, hsize.2, h.head_lt, h.tail_lt⟩

/-- No operation changes the size of the ring. -/
theorem step_size (r r' : TcRingbuf α) (op : RingOp α) (h : op.step r = some r') :
    r'.maxBufferSize = r.maxBufferSize := by
  obtain ⟨c, hc, rfl⟩ := Option.map_eq_some_iff.mp h
  cases op with
  | pushOneByte data =>
    obtain rfl := Option.some.inj hc
    unfold tcPushOneByte
    dsimp only
    split <;> rfl
  | pushOneByteOverwrite data =>
    obtain rfl := Option.some.inj hc
    unfold tcPushOneByteOverwrite
    dsimp only
    split <;> rfl
  | popOneByte =>
    obtain rfl := Option.some.inj hc
    unfold tcPopOneByte
    split <;> rfl
  | flush => exact Option.some.inj hc ▸ rfl
  | flushByte flushSize =>
    obtain ⟨_, rfl⟩ := some_of_guard hc
    show (tcBufferFlushByte r flushSize).maxBufferSize = _
    unfold tcBufferFlushByte
    dsimp only
    split_ifs <;> rfl
  | push buffer =>
    obtain rfl := Option.some.inj hc
    unfold tcPushBuffer
    dsimp only
    split_ifs <;> rfl
  | pushOverwrite buffer =>
    obtain ⟨_, rfl⟩ := some_of_guard hc
    unfold tcPushBufferOverwrite
    dsimp only
    split_ifs <;> rfl
  | pop size =>
    obtain ⟨_, rfl⟩ := some_of_guard hc
    unfold tcPopBuffer
    dsimp only
    split_ifs <;> rfl

/-- The overwriting byte push keeps the positions in range except at the end. -/
theorem tcPushOneByteOverwrite_valid (r : TcRingbuf α) (hv : Valid r) (data : α)
    (hoff : ¬ RunsOffEnd r (.pushOneByteOverwrite data)) :
    Valid (tcPushOneByteOverwrite r data).ring := by
  have htwo := hv.two_le
  have hsize := hv.size_lt
  have hhead := hv.head_lt
  have htail := hv.tail_lt
  have hmod : (r.tail + 1) % r.maxBufferSize < r.maxBufferSize := Nat.mod_lt _ (by omega)
  simp only [tcPushOneByteOverwrite, u32_succ r.tail (by omega), u32_succ r.head (by omega)]
  by_cases hfull : (r.tail + 1) % r.maxBufferSize = r.head
  · have hnext : r.head + 1 ≠ r.maxBufferSize := fun h => hoff ⟨⟨data, rfl⟩, hfull, h⟩
    simp only [hfull, if_true]
    exact ⟨htwo, hsize, show r.head + 1 < r.maxBufferSize by omega, hhead⟩
  · simp only [hfull, if_false]
    exact ⟨htwo, hsize, hhead, hmod⟩

theorem tcPushOneByteOverwrite_runsOff (r : TcRingbuf α) (hv : Valid r) (data : α)
    (hoff : RunsOffEnd r (.pushOneByteOverwrite data)) :
    (tcPushOneByteOverwrite r data).ring.head = r.maxBufferSize := by
  have hsize := hv.size_lt
  have hhead := hv.head_lt
  have htail := hv.tail_lt
  obtain ⟨_, hfull, hlast⟩ := hoff
  simp only [tcPushOneByteOverwrite, u32_succ r.tail (by omega), hfull, if_true,
    u32_succ r.head (by omega), hlast]

theorem step_valid (r r' : TcRingbuf α) (hv : Valid r) (op : RingOp α)
    (h : op.step r = some r') (hoff : ¬ RunsOffEnd r op) : Valid r' := by
  obtain ⟨c, hc, rfl⟩ := Option.map_eq_some_iff.mp h
  have hsize := hv.size_lt
  cases op with
  | pushOneByte data =>
    obtain rfl := Option.some.inj hc
    by_cases hfull : count r + 1 < r.maxBufferSize
    · exact (tcPushOneByte_fits r hv data hfull).1 ▸ put_valid r hv [data]
    · have hlt := count_lt r hv
      exact (tcPushOneByte_full r hv data (by omega)).symm ▸ hv
  | pushOneByteOverwrite data =>
    exact Option.some.inj hc ▸ tcPushOneByteOverwrite_valid r hv data hoff
  | popOneByte =>
    obtain rfl := Option.some.inj hc
    by_cases hzero : count r = 0
    · exact (tcPopOneByte_empty r hv hzero).symm ▸ hv
    · exact (tcPopOneByte_ok r hv (by omega)).1 ▸ advance_valid r hv 1
  | flush =>
    obtain rfl := Option.some.inj hc
    have hpos : 0 < r.maxBufferSize := Nat.zero_lt_of_lt hv.head_lt
    exact ⟨hv.two_le, hv.size_lt, hpos, hpos⟩
  | flushByte flushSize =>
    obtain ⟨hlt, rfl⟩ := some_of_guard hc
    have hhead := hv.head_lt
    exact (tcBufferFlushByte_eq r hv flushSize (by omega)).symm ▸ advance_valid r hv _
  | push buffer =>
    obtain rfl := Option.some.inj hc
    by_cases hfit : count r + buffer.length < r.maxBufferSize
    · exact (tcPushBuffer_fits r hv buffer hfit).1 ▸ put_valid r hv buffer
    · exact (tcPushBuffer_full r hv buffer (by omega)).symm ▸ hv
  | pushOverwrite buffer =>
    obtain ⟨⟨hlt, _⟩, rfl⟩ := some_of_guard hc
    exact (tcPushBufferOverwrite_eq r hv buffer hlt).1 ▸ fill_valid _ (put_valid r hv buffer)
  | pop size =>
    obtain ⟨hlt, rfl⟩ := some_of_guard hc
    by_cases hzero : count r = 0
    · exact (tcPopBuffer_empty r hv size hzero).symm ▸ hv
    · by_cases hle : size ≤ count r
      · exact (tcPopBuffer_ok r hv size (by omega) hle).1 ▸ advance_valid r hv size
      · exact (tcPopBuffer_error r hv size (by omega) (by omega) (by omega)).symm ▸ hv

/-- From a ring in range one step stays in range exactly if it does not run off
the end. -/
theorem step_inRange_iff (r r' : TcRingbuf α) (hsize : SizeOk r) (hr : InRange r)
    (op : RingOp α) (h : op.step r = some r') : InRange r' ↔ ¬ RunsOffEnd r op := by
  have hv := hr.valid hsize
  constructor
  · intro hr' hoff
    obtain ⟨data, rfl⟩ := hoff.1
    obtain rfl := Option.some.inj h
    have hhead := hr'.head_lt
    have hsame := step_size r _ (.pushOneByteOverwrite data) h
    rw [hsame, tcPushOneByteOverwrite_runsOff r hv data hoff] at hhead
    omega
  · intro hoff
    exact inRange_of_valid r' (step_valid r r' hv op h hoff)

/-- A run from initialization keeps the invariant in every state it visits exactly
if it never makes an overwriting byte push on a full ring with Head at the last
index. -/
theorem run_inRange_iff (buff : List α) (size : ℕ) (hbuff : buff.length = size)
    (htwo : 2 ≤ size) (hlt : size < 2147483648) (ops : List (RingOp α)) (r : TcRingbuf α)
    (hrun : runFrom RingOp.step (tcBufferInit buff size hbuff) ops = some r) :
    (∀ s, Visits RingOp.step (tcBufferInit buff size hbuff) ops s → InRange s) ↔
      ∀ s op, Takes RingOp.step (tcBufferInit buff size hbuff) ops s op → ¬ RunsOffEnd s op := by
  refine visits_iff_takes SizeOk InRange (fun s op => ¬ RunsOffEnd s op) ⟨htwo, hlt⟩
    (inRange_of_valid _ (init_valid buff size hbuff htwo hlt)) ?_ ?_ ops hrun
  · intro s op s' hs h
    rw [SizeOk, step_size s s' op h]
    exact hs
  · intro s op s' hs hr h
    exact step_inRange_iff s s' hs hr op h

/-- A ring of four cells that is filled, overwritten by a byte and by a string, and
read in between. -/
def fillAndOverwrite : List (RingOp UInt8) :=
  [.push [1, 2, 3], .pushOneByteOverwrite 4, .popOneByte, .pop 2, .push [5, 6],
    .pushOverwrite [7, 8, 9], .pop 1]

theorem fillAndOverwrite_stays : ∀ pre ∈ fillAndOverwrite.inits,
    ∀ s ∈ runFrom RingOp.step (tcBufferInit [0, 0, 0, 0] 4 rfl) pre,
      ¬ ((s.tail + 1) % s.maxBufferSize = s.head ∧ s.head + 1 = s.maxBufferSize) := by
  decide

theorem run_inRange_iff_overwrite :
    (∀ s, Visits RingOp.step (tcBufferInit [0, 0, 0, 0] 4 rfl) fillAndOverwrite s → InRange s) ∧
      ∀ s op, Takes RingOp.step (tcBufferInit [0, 0, 0, 0] 4 rfl) fillAndOverwrite s op →
        ¬ RunsOffEnd s op :=
  have hstays : ∀ s op, Takes RingOp.step (tcBufferInit [0, 0, 0, 0] 4 rfl) fillAndOverwrite s op →
      ¬ RunsOffEnd s op := fun s op ⟨pre, hpre, hs⟩ hoff =>
    fillAndOverwrite_stays pre
      ((List.mem_inits _ _).mpr ((List.prefix_append pre [op]).trans hpre)) s
      (Option.mem_def.mpr hs) hoff.2
  have hrun : (runFrom RingOp.step (tcBufferInit [0, 0, 0, 0] 4 rfl) fillAndOverwrite).isSome =
      true := by
    decide
  have ⟨r, hr⟩ := Option.isSome_iff_exists.mp hrun
  ⟨(run_inRange_iff [0, 0, 0, 0] 4 rfl (by decide) (by decide) fillAndOverwrite r hr).mpr hstays,
    hstays⟩

/-- In a ring of two cells the fourth operation already runs off. -/
theorem head_runs_off_end :
    ¬ ∀ (buff : List UInt8) (size : ℕ) (hbuff : buff.length = size), 2 ≤ size →
      size < 2147483648 → ∀ (ops : List (RingOp UInt8)) (r : TcRingbuf UInt8),
        runFrom RingOp.step (tcBufferInit buff size hbuff) ops = some r → InRange r := by
  intro h
  have hrun : (runFrom RingOp.step (tcBufferInit ([0, 0] : List UInt8) 2 rfl)
      [.pushOneByte 1, .popOneByte, .pushOneByte 2, .pushOneByteOverwrite 3]).map
        (fun r => (r.head, r.maxBufferSize)) = some (2, 2) := by
    decide
  obtain ⟨r, hr, heq⟩ := Option.map_eq_some_iff.mp hrun
  obtain ⟨hhead, hsize⟩ := Prod.mk.inj heq
  have hlt := (h [0, 0] 2 rfl (by decide) (by decide) _ r hr).head_lt
  omega

end TcIpcCtrl.RingInterface
