import TcIpcCtrl.Package

/-!
Where tc_package_send reaches in its stack buffer. The payload limit, the size
of the buffer and the bytes that a frame adds to its payload are three
constants; with the largest payloads they do not fit together.
-/
namespace TcIpcCtrl.FrameBounds

open Cells Crc Package

def storeSpan (st : Store) : Span := ⟨st.pos, st.bytes.length⟩

/-- The payload store: memcpy is given `length`, whatever the buffer behind the
pointer holds. -/
def payloadSpan (buf : Option (List UInt8)) (length : UInt16) : Span :=
  if length > 0 ∧ buf ≠ none then ⟨ipcProtocolDataOffset, length.toNat⟩
  else ⟨ipcProtocolDataOffset, 1⟩

/-- The checksum that the call stores. -/
def frameCrc (sendBuf : List UInt8) (cmd1 cmd2 : UInt16) (buf : Option (List UInt8))
    (length : UInt16) : UInt16 :=
  tcCrc16 ((applyStores sendBuf
    (headerStores cmd1 cmd2 length ++ [payloadStore buf length])).take (dataEnd buf length)) 0

/-- All ranges of sendBuf that a call stores to or hands on, in program order: the
header, the payload, what tc_CRC16 reads, its two bytes, and what
tc_ipc_write_data reads. -/
def packageSpans (sendBuf : List UInt8) (cmd1 cmd2 : UInt16) (buf : Option (List UInt8))
    (length : UInt16) : List Span :=
  (headerStores cmd1 cmd2 length).map storeSpan ++
    [payloadSpan buf length, ⟨0, dataEnd buf length⟩] ++
    (crcStores (dataEnd buf length) (frameCrc sendBuf cmd1 cmd2 buf length)).map storeSpan ++
    [⟨0, dataEnd buf length + 2⟩]

/-- With the bytes there, the payload range is that of the modelled store. -/
theorem payloadSpan_eq (buf : Option (List UInt8)) (length : UInt16)
    (hbuf : ∀ bytes, buf = some bytes → length.toNat ≤ bytes.length) :
    payloadSpan buf length = storeSpan (payloadStore buf length) := by
  cases buf with
  | none => simp [payloadSpan, payloadStore, storeSpan]
  | some bytes =>
    have hle := hbuf bytes rfl
    by_cases hpos : length > 0
    · simp [payloadSpan, payloadStore, storeSpan, hpos, Nat.min_eq_left hle]
    · simp [payloadSpan, payloadStore, storeSpan, hpos]

theorem dataEnd_bounds (buf : Option (List UInt8)) (length : UInt16) :
    10 ≤ dataEnd buf length ∧
      (payloadSpan buf length).start + (payloadSpan buf length).len = dataEnd buf length := by
  by_cases hpayload : length > 0 ∧ buf ≠ none
  · have hpos : 0 < length.toNat := UInt16.lt_iff_toNat_lt.mp hpayload.1
    simp only [dataEnd, payloadSpan, if_pos hpayload, ipcProtocolDataOffset]
    exact ⟨by omega, trivial⟩
  · simp only [dataEnd, payloadSpan, if_neg hpayload, ipcProtocolDataOffset]
    exact ⟨Nat.le_refl _, trivial⟩

theorem headerSpans_le (cmd1 cmd2 length : UInt16) :
    ∀ sp ∈ (headerStores cmd1 cmd2 length).map storeSpan, sp.start + sp.len ≤ 9 := by
  intro sp hsp
  simp only [headerStores, List.map_cons, List.map_nil, storeSpan, List.mem_cons,
    List.not_mem_nil, or_false, List.length_singleton] at hsp
  rcases hsp with rfl | rfl | rfl | rfl | rfl | rfl | rfl | rfl | rfl <;> decide

/-- No range goes beyond what is handed to tc_ipc_write_data. -/
theorem packageSpans_le (sendBuf : List UInt8) (cmd1 cmd2 : UInt16)
    (buf : Option (List UInt8)) (length : UInt16) :
    ∀ sp ∈ packageSpans sendBuf cmd1 cmd2 buf length, sp.Within (dataEnd buf length + 2) := by
  obtain ⟨hend, hpayload⟩ := dataEnd_bounds buf length
  intro sp hsp
  rw [Span.Within]
  simp only [packageSpans, List.mem_append, List.mem_cons, List.not_mem_nil, or_false] at hsp
  rcases hsp with ((hheader | rfl | rfl) | hcrc) | rfl
  · have hnine := headerSpans_le cmd1 cmd2 length sp hheader
    omega
  · omega
  · show 0 + dataEnd buf length ≤ _
    omega
  · simp only [crcStores, List.map_cons, List.map_nil, storeSpan, List.mem_cons, List.not_mem_nil,
      or_false, List.length_singleton] at hcrc
    rcases hcrc with rfl | rfl
    · show dataEnd buf length + 1 ≤ _
      omega
    · show dataEnd buf length + 1 + 1 ≤ _
      omega
  · show 0 + (dataEnd buf length + 2) ≤ _
    omega

/-- All ranges lie in the buffer exactly if the payload is NULL or has at most 509
bytes: header and checksum take eleven. -/
theorem packageSpans_within_iff (sendBuf : List UInt8) (cmd1 cmd2 : UInt16)
    (buf : Option (List UInt8)) (length : UInt16) :
    (∀ sp ∈ packageSpans sendBuf cmd1 cmd2 buf length, sp.Within ipcMaximumPacketSize) ↔
      buf = none ∨ length.toNat ≤ 509 := by
  have hlast : (⟨0, dataEnd buf length + 2⟩ : Span) ∈
      packageSpans sendBuf cmd1 cmd2 buf length :=
    List.mem_append_right _ (List.mem_singleton_self _)
  have hfits : (∀ sp ∈ packageSpans sendBuf cmd1 cmd2 buf length,
      sp.Within ipcMaximumPacketSize) ↔ dataEnd buf length + 2 ≤ 520 := by
    constructor
    · intro hwithin
      have hsent : 0 + (dataEnd buf length + 2) ≤ 520 := hwithin _ hlast
      omega
    · intro hle sp hsp
      exact Nat.le_trans (packageSpans_le sendBuf cmd1 cmd2 buf length sp hsp) hle
  rw [hfits]
  by_cases hpayload : length > 0 ∧ buf ≠ none
  · rw [dataEnd, if_pos hpayload, ipcProtocolDataOffset]
    constructor
    · intro hle
      exact Or.inr (by omega)
    · rintro (hnone | hle)
      · exact absurd hnone hpayload.2
      · omega
  · rw [dataEnd, if_neg hpayload, ipcProtocolDataOffset]
    refine ⟨fun _ => ?_, fun _ => by decide⟩
    by_cases hnone : buf = none
    · exact Or.inl hnone
    · have hzero : ¬ 0 < length.toNat := fun hpos =>
        hpayload ⟨UInt16.lt_iff_toNat_lt.mpr hpos, hnone⟩
      exact Or.inr (by omega)

/-- The low byte of the checksum of 510 bytes is stored behind the buffer. -/
theorem checksum_overruns : ¬ ∀ (sendBuf : List UInt8) (cmd1 cmd2 : UInt16)
    (buf : Option (List UInt8)) (length : UInt16), sendBuf.length = ipcMaximumPacketSize →
    length.toNat ≤ ipcMaximumDataSize →
    ∀ sp ∈ packageSpans sendBuf cmd1 cmd2 buf length, sp.Within ipcMaximumPacketSize := by
  intro hclaim
  have hwithin := hclaim (List.replicate 520 0x00) 0x0102 0x0304 (some (List.replicate 510 0x00))
    510 List.length_replicate (by decide) ⟨520, 1⟩ ?_
  · exact absurd hwithin (by decide)
  · apply List.mem_append_left
    apply List.mem_append_right
    exact List.mem_cons_of_mem _ (List.mem_singleton_self _)

end TcIpcCtrl.FrameBounds
