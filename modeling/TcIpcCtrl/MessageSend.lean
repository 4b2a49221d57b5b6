import TcIpcCtrl.Package
import TcIpcCtrl.WritePath

/-!
tc_ipc_ctrl_msg_send from the handle down to the write ring. What the call
returns says what it has done to the ring, except for a NULL handle: the branch
for it has the expression statement `-1;` where `ret = -1;` is meant, so the call
returns what the stack happens to hold.
-/
namespace TcIpcCtrl.MessageSend

open Runs BoundedQueue RingBuffer RingContents RingEffects Package
open WritePath (writeRingBufferSize ipcWriteSize start start_sound step_sound)

/-- The write ring after the call and what tc_ipc_write_data returns; that a frame was
not taken as a whole is only logged. -/
def tcPackageSend (writeRingCtrl : TcRingbuf UInt8) (sendBuf : List UInt8) (cmd1 cmd2 : UInt16)
    (buf : Option (List UInt8)) (length : UInt16) : Call UInt8 :=
  tcIpcWriteData writeRingCtrl (packageFrame sendBuf cmd1 cmd2 buf length)

variable {ι : Type*} [DecidableEq ι]

/-- What is returned, and the write rings of all handles. -/
structure Sent (ι : Type*) where
  ret : ℤ
  rings : ι → TcRingbuf UInt8

/-- A call has gone to the write ring of handle `i`. -/
def Sent.ofCall (rings : ι → TcRingbuf UInt8) (i : ι) (call : Call UInt8) : Sent ι :=
  { ret := call.ret, rings := Function.update rings i call.ring }

/-- `none` is the NULL handle. `sendBuf` and `ret` are what the stack holds in place of
the two variables of these names. -/
def tcIpcCtrlMsgSend (rings : ι → TcRingbuf UInt8) (handle : Option ι) (sendBuf : List UInt8)
    (ret : ℤ) (cmd1 cmd2 : UInt16) (buf : Option (List UInt8)) (length : UInt16) : Sent ι :=
  match handle with
  | some ctrlHandle =>
    Sent.ofCall rings ctrlHandle
      (tcPackageSend (rings ctrlHandle) sendBuf cmd1 cmd2 buf length)
  -- The value -1 is computed and not assigned.
  | none => { ret := ret, rings := rings }

/-- A write ring as calls and WriteThread leave it, in whatever order they come. -/
def Reachable (ring : TcRingbuf UInt8) : Prop :=
  ∃ fd cells hcells writeBufs s, -1 < fd ∧ writeBufs.length = ipcWriteSize ∧
    Reach WritePath.step Free (start fd cells hcells writeBufs) s ∧ s.ring = ring

/-- The frame is in the ring: its size is returned, and in front of it stands the
longest end of the previous contents for which there is room. -/
structure Queued (before after : TcRingbuf UInt8) (cmd1 cmd2 length : UInt16)
    (bytes : List UInt8) (ret : ℤ) : Prop where
  ret_eq : ret = (max length.toNat 1 + 11 : ℕ)
  contents_eq : contents after =
    (contents before).rtake (writeRingBufferSize - 1 - (max length.toNat 1 + 11)) ++
      frame cmd1 cmd2 length bytes

/-- What the number returned promises. -/
structure Contract (rings : ι → TcRingbuf UInt8) (handle : Option ι) (cmd1 cmd2 : UInt16)
    (buf : Option (List UInt8)) (length : UInt16) (sent : Sent ι) : Prop where
  result : (∃ i, handle = some i ∧
      Queued (rings i) (sent.rings i) cmd1 cmd2 length (buf.getD []) sent.ret) ∨
    (sent.ret < 0 ∧ sent.rings = rings)
  null : handle = none → sent.ret < 0

theorem Reachable.valid {ring : TcRingbuf UInt8} (h : Reachable ring) :
    Valid ring ∧ ring.maxBufferSize = writeRingBufferSize := by
  obtain ⟨fd, cells, hcells, writeBufs, s, hfd, hbufs, hreach, rfl⟩ := h
  have hs := hreach.invariant WritePath.Sound
    (start_sound fd hfd cells hcells writeBufs hbufs)
    (fun _ _ _ hs _ hstep => step_sound hs hstep)
  exact ⟨hs.ring, hs.ring_size⟩

/-- On the way to the device a frame always gets into the ring as a whole. -/
theorem tcPackageSend_queued {ring : TcRingbuf UInt8} (hring : Reachable ring)
    (sendBuf : List UInt8) (hsend : sendBuf.length = ipcMaximumPacketSize) (cmd1 cmd2 : UInt16)
    (buf : Option (List UInt8)) (length : UInt16) (hbuf : PayloadOk buf length)
    (hle : length.toNat ≤ 509) :
    Queued ring (tcPackageSend ring sendBuf cmd1 cmd2 buf length).ring cmd1 cmd2 length
      (buf.getD []) (tcPackageSend ring sendBuf cmd1 cmd2 buf length).ret := by
  obtain ⟨hv, hsize⟩ := hring.valid
  have hbytes := packageFrame_eq sendBuf hsend cmd1 cmd2 buf length hbuf hle
  have hlen : (frame cmd1 cmd2 length (buf.getD [])).length = max length.toNat 1 + 11 := by
    rw [length_frame, hbuf.length_eq]
  have hlt : (frame cmd1 cmd2 length (buf.getD [])).length < ring.maxBufferSize := by
    rw [hlen, hsize, writeRingBufferSize]
    omega
  obtain ⟨hret, -, -⟩ := tcIpcWriteData_reply ring hv _ hlt
  have hpushed := tcIpcWriteData_pushed ring hv _ hlt
  rw [tcPackageSend, hbytes]
  refine ⟨by rw [hret, hlen], ?_⟩
  rw [hpushed.contents, rtake_append_of_le _ _ _ (Nat.le_sub_one_of_lt hlt), hlen, hsize]

theorem contract_of_queued (rings : ι → TcRingbuf UInt8) (i : ι) (call : Call UInt8)
    (cmd1 cmd2 : UInt16) (buf : Option (List UInt8)) (length : UInt16)
    (h : Queued (rings i) call.ring cmd1 cmd2 length (buf.getD []) call.ret) :
    Contract rings (some i) cmd1 cmd2 buf length (Sent.ofCall rings i call) := by
  refine ⟨Or.inl ⟨i, rfl, ?_⟩, fun hnone => absurd hnone (Option.some_ne_none i)⟩
  have hring : (Sent.ofCall rings i call).rings i = call.ring := Function.update_self _ _ _
  rw [hring]
  exact h

section Send

variable (rings : ι → TcRingbuf UInt8) (hrings : ∀ i, Reachable (rings i)) (sendBuf : List UInt8)
  (hsend : sendBuf.length = ipcMaximumPacketSize) (cmd1 cmd2 : UInt16) (buf : Option (List UInt8))
  (length : UInt16) (hbuf : PayloadOk buf length) (hle : length.toNat ≤ 509)

include hrings hsend hbuf hle

/-- With a given number in the place of `ret` the call keeps its contract if and only
if the handle is not NULL or that number is negative. -/
theorem contract_of_ret_iff (handle : Option ι) (ret : ℤ) :
    Contract rings handle cmd1 cmd2 buf length
        (tcIpcCtrlMsgSend rings handle sendBuf ret cmd1 cmd2 buf length) ↔
      handle ≠ none ∨ ret < 0 := by
  cases handle with
  | none =>
    refine ⟨fun h => Or.inr (h.null rfl), fun hwhen => ?_⟩
    have hneg : ret < 0 := hwhen.resolve_left fun hne => hne rfl
    exact ⟨Or.inr ⟨hneg, rfl⟩, fun _ => hneg⟩
  | some i =>
    have hqueued := tcPackageSend_queued (hrings i) sendBuf hsend cmd1 cmd2 buf length hbuf hle
    exact iff_of_true (contract_of_queued rings i _ cmd1 cmd2 buf length hqueued)
      (Or.inl (Option.some_ne_none i))

/-- Whatever the stack holds where `ret` is, the call keeps its contract, if and only
if the handle is not NULL. -/
theorem contract_iff (handle : Option ι) :
    (∀ ret : ℤ, Contract rings handle cmd1 cmd2 buf length
        (tcIpcCtrlMsgSend rings handle sendBuf ret cmd1 cmd2 buf length)) ↔
      handle ≠ none := by
  simp only [contract_of_ret_iff rings hrings sendBuf hsend cmd1 cmd2 buf length hbuf hle]
  constructor
  · intro hall
    exact (hall 0).resolve_right (Int.lt_irrefl 0)
  · intro hne ret
    exact Or.inl hne

end Send

/-- The write ring of a handle just opened. -/
def openedRing : TcRingbuf UInt8 :=
  tcBufferInit (List.replicate writeRingBufferSize 0) writeRingBufferSize List.length_replicate

theorem openedRing_reachable : Reachable openedRing :=
  ⟨3, _, _, List.replicate ipcWriteSize 0, _, by decide, List.length_replicate, .refl, rfl⟩

/-- A NULL handle is reported as success of size 0 when the stack holds zeros. -/
theorem null_handle_not_negative :
    ¬ ∀ (rings : Unit → TcRingbuf UInt8) (handle : Option Unit) (sendBuf : List UInt8) (ret : ℤ)
      (cmd1 cmd2 : UInt16) (buf : Option (List UInt8)) (length : UInt16),
      (∀ i, Reachable (rings i)) → sendBuf.length = ipcMaximumPacketSize → PayloadOk buf length →
      length.toNat ≤ 509 →
      Contract rings handle cmd1 cmd2 buf length
        (tcIpcCtrlMsgSend rings handle sendBuf ret cmd1 cmd2 buf length) := by
  intro hclaim
  have hcontract := hclaim (fun _ => openedRing) none (List.replicate ipcMaximumPacketSize 0) 0 1 2
    none 0 (fun _ => openedRing_reachable) List.length_replicate ⟨rfl⟩ (by decide)
  exact absurd (hcontract.null rfl) (by decide)

/-- The contract of a call with one payload byte, with a handle just opened and with
a NULL handle. -/
theorem contract_iff_opened :
    (∀ ret : ℤ, Contract (fun _ => openedRing) (some ()) 1 2 (some [7]) 1
      (tcIpcCtrlMsgSend (fun _ => openedRing) (some ()) (List.replicate ipcMaximumPacketSize 0) ret
        1 2 (some [7]) 1)) ∧
    ¬ ∀ ret : ℤ, Contract (fun _ : Unit => openedRing) none 1 2 (some [7]) 1
      (tcIpcCtrlMsgSend (fun _ => openedRing) none (List.replicate ipcMaximumPacketSize 0) ret
        1 2 (some [7]) 1) :=
  have hiff := contract_iff (fun _ : Unit => openedRing) (fun _ => openedRing_reachable)
    (List.replicate ipcMaximumPacketSize 0) List.length_replicate 1 2 (some [7]) 1 ⟨rfl⟩ (by decide)
  ⟨(hiff (some ())).mpr (Option.some_ne_none ()), fun h => (hiff none).mp h rfl⟩

end TcIpcCtrl.MessageSend
