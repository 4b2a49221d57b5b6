import TcIpcCtrl.BoundedQueue
import TcIpcCtrl.RingEffects

/-!
The bulk operations refine a byte queue. A ring of size M holds at most M - 1
bytes; over every run of the operations the library uses, the ring and the
queue give the same replies and hold the same bytes, and no copy leaves the
array.
-/
namespace TcIpcCtrl.RingRefinement

open RingBuffer RingContents RingEffects BoundedQueue Cells

variable {α : Type*}

inductive BulkOp (α : Type*)
  | writeData (buffer : List α)
  | push (buffer : List α)
  | pop (size : ℕ)
  | flush
  | dataAvailable
  | freeSpace

/-- The `size` argument; the operations without one take any. -/
def BulkOp.size : BulkOp α → ℕ
  | .writeData buffer => buffer.length
  | .push buffer => buffer.length
  | .pop size => size
  | .flush => 0
  | .dataAvailable => 0
  | .freeSpace => 0

def BulkOp.call (r : TcRingbuf α) : BulkOp α → Call α
  | .writeData buffer => tcIpcWriteData r buffer
  | .push buffer => tcPushBuffer r buffer
  | .pop size => tcPopBuffer r size
  | .flush => { ring := tcBufferFlush r, ret := tcBufferOk, out := [], spans := [] }
  | .dataAvailable => { ring := r, ret := tcBufferDataAvailable r, out := [], spans := [] }
  | .freeSpace => { ring := r, ret := tcBufferFreeSpace r, out := [], spans := [] }

/-- What the caller of an operation sees. -/
structure Reply (α : Type*) where
  ret : ℤ
  out : List α

def Reply.ofCall (c : Call α) : Reply α := ⟨c.ret, c.out⟩

/-- The same operations on the queue. -/
def BulkOp.onQueue {cap : ℕ} (q : Queue α cap) : BulkOp α → Queue α cap × Reply α
  | .writeData buffer => (q.pushNewest buffer, ⟨buffer.length, []⟩)
  | .push buffer =>
    (q.push buffer,
      if q.items.length + buffer.length ≤ cap then ⟨buffer.length, []⟩ else ⟨tcBufferFull, []⟩)
  | .pop size =>
    if q.items.length = 0 then (q, ⟨tcBufferEmpty, []⟩)
    else if size ≤ q.items.length then (q.pop size, ⟨tcBufferOk, q.items.take size⟩)
    else (q, ⟨tcBufferError, []⟩)
  | .flush => (Queue.empty α cap, ⟨tcBufferOk, []⟩)
  | .dataAvailable => (q, ⟨q.items.length, []⟩)
  | .freeSpace => (q, ⟨cap - q.items.length, []⟩)

def calls (r : TcRingbuf α) : List (BulkOp α) → List (Call α)
  | [] => []
  | op :: ops => op.call r :: calls (op.call r).ring ops

def ringAfter (r : TcRingbuf α) : List (BulkOp α) → TcRingbuf α
  | [] => r
  | op :: ops => ringAfter (op.call r).ring ops

def replies {cap : ℕ} (q : Queue α cap) : List (BulkOp α) → List (Reply α)
  | [] => []
  | op :: ops => (op.onQueue q).2 :: replies (op.onQueue q).1 ops

def queueAfter {cap : ℕ} (q : Queue α cap) : List (BulkOp α) → Queue α cap
  | [] => q
  | op :: ops => queueAfter (op.onQueue q).1 ops

/-- A valid ring of size `cap + 1` that holds the items of the queue. -/
structure Refines {cap : ℕ} (r : TcRingbuf α) (q : Queue α cap) : Prop where
  valid : Valid r
  size : r.maxBufferSize = cap + 1
  contents : contents r = q.items

theorem Refines.count_eq {cap : ℕ} {r : TcRingbuf α} {q : Queue α cap} (h : Refines r q) :
    count r = q.items.length := by
  rw [← length_contents r h.valid, h.contents]

theorem Refines.pushed {cap : ℕ} {r r' : TcRingbuf α} {q : Queue α cap} {buffer : List α}
    (h : Refines r q) (hpushed : Pushed r r' buffer) : Refines r' (q.pushNewest buffer) where
  valid := hpushed.valid
  size := hpushed.size.trans h.size
  contents := by
    rw [hpushed.contents, h.contents, h.size]
    rfl

/-- What one operation keeps and returns. -/
structure StepRefines {cap : ℕ} (c : Call α) (step : Queue α cap × Reply α) : Prop where
  ring : Refines c.ring step.1
  reply : Reply.ofCall c = step.2
  spans : ∀ sp ∈ c.spans, sp.Within (cap + 1)

section Operations

variable {cap : ℕ} (r : TcRingbuf α) (q : Queue α cap)

theorem push_refines (h : Refines r q) (buffer : List α) :
    StepRefines ((BulkOp.push buffer).call r) ((BulkOp.push buffer).onQueue q) := by
  have hcount := h.count_eq
  have hsize := h.size
  by_cases hfit : q.items.length + buffer.length ≤ cap
  · obtain ⟨-, hret, hspans⟩ := tcPushBuffer_fits r h.valid buffer (by omega)
    have hstep : (BulkOp.push buffer).onQueue q = (q.pushNewest buffer, ⟨buffer.length, []⟩) := by
      simp only [BulkOp.onQueue, hfit, if_true, Queue.push_of_le q buffer hfit]
    rw [hstep]
    refine ⟨h.pushed (tcPushBuffer_pushed r h.valid buffer (by omega)), ?_, ?_⟩
    · simp only [Reply.ofCall, BulkOp.call, hret, tcPushBuffer_out]
    · rw [← hsize]
      exact hspans
  · have hcall : (BulkOp.push buffer).call r =
        { ring := r, ret := tcBufferFull, out := [], spans := [] } :=
      tcPushBuffer_full r h.valid buffer (by omega)
    have hstep : (BulkOp.push buffer).onQueue q = (q, ⟨tcBufferFull, []⟩) := by
      simp only [BulkOp.onQueue, hfit, if_false, Queue.push_of_lt q buffer (by omega)]
    rw [hcall, hstep]
    exact ⟨h, rfl, by simp⟩

theorem writeData_refines (h : Refines r q) (buffer : List α) (hlt : buffer.length < cap + 1) :
    StepRefines ((BulkOp.writeData buffer).call r) ((BulkOp.writeData buffer).onQueue q) := by
  have hsize := h.size
  obtain ⟨hret, hout, hspans⟩ := tcIpcWriteData_reply r h.valid buffer (by omega)
  refine ⟨h.pushed (tcIpcWriteData_pushed r h.valid buffer (by omega)), ?_, ?_⟩
  · simp only [Reply.ofCall, BulkOp.call, BulkOp.onQueue, hret, hout]
  · rw [← hsize]
    exact hspans

theorem pop_refines (h : Refines r q) (size : ℕ) (hlt : size < cap + 1) :
    StepRefines ((BulkOp.pop size).call r) ((BulkOp.pop size).onQueue q) := by
  have hcount := h.count_eq
  have hsize := h.size
  have hbound := h.valid.size_lt
  by_cases hzero : q.items.length = 0
  · have hcall : (BulkOp.pop size).call r =
        { ring := r, ret := tcBufferEmpty, out := [], spans := [] } :=
      tcPopBuffer_empty r h.valid size (by omega)
    simp only [hcall, BulkOp.onQueue, hzero, if_true]
    exact ⟨h, rfl, by simp⟩
  · by_cases hle : size ≤ q.items.length
    · obtain ⟨hring, hret, hout, hspans⟩ :=
        tcPopBuffer_ok r h.valid size (by omega) (by omega)
      have hstep : (BulkOp.pop size).onQueue q =
          (q.pop size, ⟨tcBufferOk, q.items.take size⟩) := by
        simp only [BulkOp.onQueue, hzero, if_false, hle, if_true]
      rw [hstep]
      refine ⟨⟨?_, ?_, ?_⟩, ?_, ?_⟩
      · exact hring ▸ advance_valid r h.valid size
      · show (tcPopBuffer r size).ring.maxBufferSize = _
        rw [hring]
        exact hsize
      · show contents (tcPopBuffer r size).ring = q.items.drop size
        rw [hring, contents_advance r h.valid size (by omega), h.contents]
      · simp only [Reply.ofCall, BulkOp.call, hret, hout, h.contents]
      · rw [← hsize]
        exact hspans
    · have hcall : (BulkOp.pop size).call r =
          { ring := r, ret := tcBufferError, out := [], spans := [] } :=
        tcPopBuffer_error r h.valid size (by omega) (by omega) (by omega)
      simp only [hcall, BulkOp.onQueue, hzero, if_false, hle]
      exact ⟨h, rfl, by simp⟩

theorem flush_refines (h : Refines r q) :
    StepRefines (BulkOp.flush.call r) (BulkOp.flush.onQueue q) := by
  have htwo := h.valid.two_le
  refine ⟨⟨⟨htwo, h.valid.size_lt, ?_, ?_⟩, h.size, ?_⟩, rfl, ?_⟩
  · show 0 < r.maxBufferSize
    omega
  · show 0 < r.maxBufferSize
    omega
  · rfl
  · simp [BulkOp.call]

theorem call_refines (h : Refines r q) (op : BulkOp α) (hop : op.size < cap + 1) :
    StepRefines (op.call r) (op.onQueue q) := by
  have hle := q.length_le
  have hcount := h.count_eq
  have hsize := h.size
  cases op with
  | writeData buffer => exact writeData_refines r q h buffer hop
  | push buffer => exact push_refines r q h buffer
  | pop size => exact pop_refines r q h size hop
  | flush => exact flush_refines r q h
  | dataAvailable =>
    refine ⟨h, ?_, by simp [BulkOp.call]⟩
    simp only [Reply.ofCall, BulkOp.call, BulkOp.onQueue, dataAvailable_eq r h.valid, hcount]
  | freeSpace =>
    refine ⟨h, ?_, by simp [BulkOp.call]⟩
    simp only [Reply.ofCall, BulkOp.call, BulkOp.onQueue, freeSpace_eq r h.valid, hcount, hsize]
    congr 1
    omega

end Operations

theorem run_refines {cap : ℕ} (r : TcRingbuf α) (q : Queue α cap) (h : Refines r q)
    (ops : List (BulkOp α)) (hops : ∀ op ∈ ops, op.size < cap + 1) :
    Refines (ringAfter r ops) (queueAfter q ops) ∧
      (calls r ops).map Reply.ofCall = replies q ops ∧
      ∀ c ∈ calls r ops, ∀ sp ∈ c.spans, sp.Within (cap + 1) := by
  induction ops generalizing r q with
  | nil => exact ⟨h, rfl, by simp [calls]⟩
  | cons op ops ih =>
    have hstep := call_refines r q h op (hops op (List.mem_cons_self ..))
    obtain ⟨hring, hreplies, hspans⟩ := ih (op.call r).ring (op.onQueue q).1 hstep.ring
      (fun op' hop' => hops op' (List.mem_cons_of_mem op hop'))
    refine ⟨hring, ?_, ?_⟩
    · simp only [calls, replies, List.map_cons, hstep.reply, hreplies]
    · intro c hc
      rcases List.mem_cons.mp hc with rfl | hc
      · exact hstep.spans
      · exact hspans c hc

theorem init_refines (buff : List α) (cap : ℕ) (hbuff : buff.length = cap + 1) (hcap : 1 ≤ cap)
    (hlt : cap + 1 < 2147483648) :
    Refines (tcBufferInit buff (cap + 1) hbuff) (Queue.empty α cap) where
  valid := ⟨by simp only [tcBufferInit]; omega, hlt, Nat.succ_pos cap, Nat.succ_pos cap⟩
  size := rfl
  contents := rfl

/-- Over every run from initialization the ring is a queue of M - 1 bytes. -/
theorem ring_refines_queue (buff : List α) (cap : ℕ) (hbuff : buff.length = cap + 1)
    (hcap : 2 ≤ cap + 1) (hlt : cap + 1 < 2147483648)
    (ops : List (BulkOp α)) (hops : ∀ op ∈ ops, op.size < cap + 1) :
    contents (ringAfter (tcBufferInit buff (cap + 1) hbuff) ops) =
        (queueAfter (Queue.empty α cap) ops).items ∧
      (calls (tcBufferInit buff (cap + 1) hbuff) ops).map Reply.ofCall =
        replies (Queue.empty α cap) ops ∧
      (ringAfter (tcBufferInit buff (cap + 1) hbuff) ops).head < cap + 1 ∧
      (ringAfter (tcBufferInit buff (cap + 1) hbuff) ops).tail < cap + 1 ∧
      ∀ c ∈ calls (tcBufferInit buff (cap + 1) hbuff) ops, ∀ sp ∈ c.spans,
        sp.Within (cap + 1) := by
  obtain ⟨hring, hreplies, hspans⟩ := run_refines _ _
    (init_refines buff cap hbuff (by omega) hlt) ops hops
  refine ⟨hring.contents, hreplies, ?_, ?_, hspans⟩
  · exact hring.valid.head_lt.trans_eq hring.size
  · exact hring.valid.tail_lt.trans_eq hring.size

theorem ring_refines_queue_two :
    contents (ringAfter (tcBufferInit [0, 0] 2 rfl) [.writeData [7], .writeData [8], .pop 1]) =
        (queueAfter (Queue.empty ℕ 1) [.writeData [7], .writeData [8], .pop 1]).items :=
  (ring_refines_queue [0, 0] 1 rfl (by decide) (by decide)
    [.writeData [7], .writeData [8], .pop 1] (by simp [BulkOp.size])).1

end TcIpcCtrl.RingRefinement
