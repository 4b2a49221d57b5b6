import TcIpcCtrl.Cells
import TcIpcCtrl.Crc

/-!
The frame that tc_package_send lays out in its stack buffer, store by store,
with the constants of tc-ipc-protocol.h. Within the buffer the stores give sync
bytes, header, payload or dummy byte, and checksum one after the other.
-/
namespace TcIpcCtrl.Package

open Cells Crc

def ipcMinimumPacketSize : ℕ := 12
def ipcMaximumPacketSize : ℕ := 520
def ipcMaximumDataSize : ℕ := 512
def ipcSyncCode : UInt8 := 0xff
def ipcFirstStartCode : UInt8 := 0x55
def ipcSecondStartCode : UInt8 := 0xaa

def ipcProtocolSyncOffset : ℕ := 0
def ipcProtocolFirstStartOffset : ℕ := 1
def ipcProtocolSecondStartOffset : ℕ := 2
def ipcProtocolCommand1HighOffset : ℕ := 3
def ipcProtocolCommand1LowOffset : ℕ := 4
def ipcProtocolCommand2HighOffset : ℕ := 5
def ipcProtocolCommand2LowOffset : ℕ := 6
def ipcProtocolLengthHighOffset : ℕ := 7
def ipcProtocolLengthLowOffset : ℕ := 8
def ipcProtocolDataOffset : ℕ := 9

/-- `(uint8_t)((x & 0xff00) >> 8)` -/
def highByte (x : UInt16) : UInt8 := ((x &&& 0xff00) >>> 8).toUInt8

/-- `(uint8_t)(x & 0x00ff)` -/
def lowByte (x : UInt16) : UInt8 := (x &&& 0x00ff).toUInt8

/-- `((uint16_t)high << 8) | low` -/
def joinBytes (high low : UInt8) : UInt16 := (high.toUInt16 <<< 8) ||| low.toUInt16

/-- The bytes stored in one assignment or memcpy, and where. -/
structure Store where
  pos : ℕ
  bytes : List UInt8

def applyStores (cells : List UInt8) (stores : List Store) : List UInt8 :=
  stores.foldl (fun cells st => memcpy cells st.pos st.bytes) cells

def headerStores (cmd1 cmd2 length : UInt16) : List Store :=
  [⟨0, [0xff]⟩, ⟨1, [0x55]⟩, ⟨2, [0xaa]⟩,
    ⟨ipcProtocolCommand1HighOffset, [highByte cmd1]⟩,
    ⟨ipcProtocolCommand1LowOffset, [lowByte cmd1]⟩,
    ⟨ipcProtocolCommand2HighOffset, [highByte cmd2]⟩,
    ⟨ipcProtocolCommand2LowOffset, [lowByte cmd2]⟩,
    ⟨ipcProtocolLengthHighOffset, [highByte length]⟩,
    ⟨ipcProtocolLengthLowOffset, [lowByte length]⟩]

/-- The payload store; `buf` is `none` for NULL. -/
def payloadStore (buf : Option (List UInt8)) (length : UInt16) : Store :=
  match buf with
  | some bytes =>
    if length > 0 then ⟨ipcProtocolDataOffset, bytes.take length.toNat⟩
    else ⟨ipcProtocolDataOffset, [0x00]⟩
  | none => ⟨ipcProtocolDataOffset, [0x00]⟩

/-- `totalsize` before the checksum is added. -/
def dataEnd (buf : Option (List UInt8)) (length : UInt16) : ℕ :=
  if length > 0 ∧ buf ≠ none then ipcProtocolDataOffset + length.toNat
  else ipcProtocolDataOffset + 1

def crcStores (totalsize : ℕ) (crc : UInt16) : List Store :=
  [⟨totalsize, [highByte crc]⟩, ⟨totalsize + 1, [lowByte crc]⟩]

/-- The bytes handed to tc_ipc_write_data; `sendBuf` is the buffer as the stack
left it. -/
def packageFrame (sendBuf : List UInt8) (cmd1 cmd2 : UInt16) (buf : Option (List UInt8))
    (length : UInt16) : List UInt8 :=
  let totalsize := dataEnd buf length
  let filled := applyStores sendBuf (headerStores cmd1 cmd2 length ++ [payloadStore buf length])
  let crc := tcCrc16 (filled.take totalsize) 0
  (applyStores filled (crcStores totalsize crc)).take (totalsize + 2)

def header (cmd1 cmd2 length : UInt16) : List UInt8 :=
  [0xff, 0x55, 0xaa, highByte cmd1, lowByte cmd1, highByte cmd2, lowByte cmd2,
    highByte length, lowByte length]

theorem length_header (cmd1 cmd2 length : UInt16) : (header cmd1 cmd2 length).length = 9 := rfl

theorem applyStores_header (cells : List UInt8) (cmd1 cmd2 length : UInt16) (rest : List Store) :
    applyStores cells (headerStores cmd1 cmd2 length ++ rest) =
      applyStores (memcpy cells 0 (header cmd1 cmd2 length)) rest := rfl

theorem applyStores_crc (cells : List UInt8) (totalsize : ℕ) (crc : UInt16) :
    applyStores cells (crcStores totalsize crc) =
      memcpy cells totalsize [highByte crc, lowByte crc] := rfl

/-- The bytes between header and checksum. -/
def payloadBytes (bytes : List UInt8) : List UInt8 := if bytes = [] then [0x00] else bytes

/-- Header, payload or dummy byte, and checksum. -/
def frame (cmd1 cmd2 length : UInt16) (bytes : List UInt8) : List UInt8 :=
  let body := header cmd1 cmd2 length ++ payloadBytes bytes
  body ++ [highByte (tcCrc16 body 0), lowByte (tcCrc16 body 0)]

theorem length_payloadBytes (bytes : List UInt8) :
    (payloadBytes bytes).length = max bytes.length 1 := by
  unfold payloadBytes
  split
  · next h => simp [h]
  · next h =>
    have hpos : 0 < bytes.length := List.length_pos_iff.mpr h
    omega

theorem length_frame (cmd1 cmd2 length : UInt16) (bytes : List UInt8) :
    (frame cmd1 cmd2 length bytes).length = max bytes.length 1 + 11 := by
  simp only [frame, List.length_append, length_header, length_payloadBytes, List.length_cons,
    List.length_nil]
  omega

/-- A payload that the caller may pass: the bytes are there, and NULL only without
any. -/
structure PayloadOk (buf : Option (List UInt8)) (length : UInt16) : Prop where
  length_eq : (buf.getD []).length = length.toNat

theorem payloadStore_eq (buf : Option (List UInt8)) (length : UInt16) (h : PayloadOk buf length) :
    payloadStore buf length = ⟨9, payloadBytes (buf.getD [])⟩ ∧
      dataEnd buf length = 9 + (payloadBytes (buf.getD [])).length := by
  have hlen := h.length_eq
  cases buf with
  | none => simp [payloadStore, dataEnd, payloadBytes, ipcProtocolDataOffset]
  | some bytes =>
    simp only [Option.getD_some] at hlen
    by_cases hpos : length > 0
    · have hne : bytes ≠ [] := by
        rintro rfl
        have hzero : 0 < length.toNat := UInt16.lt_iff_toNat_lt.mp hpos
        simp only [List.length_nil] at hlen
        omega
      simp [payloadStore, dataEnd, payloadBytes, ipcProtocolDataOffset, hpos, hne, ← hlen]
    · have hnil : bytes = [] := by
        have hzero : ¬ 0 < length.toNat := fun h => hpos (UInt16.lt_iff_toNat_lt.mpr h)
        exact List.length_eq_zero_iff.mp (by omega)
      simp [payloadStore, dataEnd, payloadBytes, ipcProtocolDataOffset, hpos, hnil]

/-- Within the buffer the stores give header, what is stored as payload, and
checksum, whatever the stack held. -/
theorem packageFrame_of_store (sendBuf : List UInt8) (hsend : sendBuf.length = ipcMaximumPacketSize)
    (cmd1 cmd2 : UInt16) (buf : Option (List UInt8)) (length : UInt16) (payload : List UInt8)
    (hstore : payloadStore buf length = ⟨9, payload⟩)
    (hend : dataEnd buf length = 9 + payload.length) (hle : payload.length ≤ 509) :
    packageFrame sendBuf cmd1 cmd2 buf length = header cmd1 cmd2 length ++ payload ++
      [highByte (tcCrc16 (header cmd1 cmd2 length ++ payload) 0),
        lowByte (tcCrc16 (header cmd1 cmd2 length ++ payload) 0)] := by
  have hhead := length_header cmd1 cmd2 length
  simp only [ipcMaximumPacketSize] at hsend
  have hfilled : applyStores sendBuf
      (headerStores cmd1 cmd2 length ++ [payloadStore buf length]) =
        memcpy sendBuf 0 (header cmd1 cmd2 length ++ payload) := by
    rw [applyStores_header, hstore, memcpy_append]
    rfl
  have htake : (memcpy sendBuf 0 (header cmd1 cmd2 length ++ payload)).take (9 + payload.length) =
      header cmd1 cmd2 length ++ payload := by
    rw [memcpy_eq _ _ _ (by rw [List.length_append]; omega), List.take_zero, List.nil_append,
      List.take_left' (by rw [List.length_append, hhead])]
  simp only [packageFrame, hend, hfilled, htake, applyStores_crc]
  have hjoin : ∀ crc : List UInt8, crc.length = 2 →
      (memcpy (memcpy sendBuf 0 (header cmd1 cmd2 length ++ payload)) (9 + payload.length) crc).take
          (9 + payload.length + 2) =
        header cmd1 cmd2 length ++ payload ++ crc := by
    intro crc hcrc
    have hpos : 9 + payload.length = 0 + (header cmd1 cmd2 length ++ payload).length := by
      rw [List.length_append, hhead]
      omega
    rw [hpos, ← memcpy_append, memcpy_eq _ _ _ (by simp only [List.length_append]; omega),
      List.take_zero, List.nil_append, List.take_left' (by simp only [List.length_append]; omega)]
  exact hjoin _ rfl

/-- With up to 509 payload bytes they give the frame. -/
theorem packageFrame_eq (sendBuf : List UInt8) (hsend : sendBuf.length = ipcMaximumPacketSize)
    (cmd1 cmd2 : UInt16) (buf : Option (List UInt8)) (length : UInt16)
    (h : PayloadOk buf length) (hle : length.toNat ≤ 509) :
    packageFrame sendBuf cmd1 cmd2 buf length = frame cmd1 cmd2 length (buf.getD []) := by
  obtain ⟨hstore, hend⟩ := payloadStore_eq buf length h
  have hpay := length_payloadBytes (buf.getD [])
  have hlen := h.length_eq
  exact packageFrame_of_store sendBuf hsend cmd1 cmd2 buf length _ hstore hend (by omega)

/-! The two bytes of a 16-bit field -/

theorem toNat_highByte (x : UInt16) : (highByte x).toNat = x.toNat / 256 := by
  have hlt := x.toNat_lt
  have hand : x.toNat / 256 &&& 255 = x.toNat / 256 % 256 := Nat.and_two_pow_sub_one_eq_mod _ 8
  have hshift : (x.toNat &&& 65280) >>> 8 = x.toNat / 256 % 256 := by
    rw [Nat.shiftRight_and_distrib, Nat.shiftRight_eq_div_pow]
    exact hand
  simp [highByte, hshift]
  omega

theorem toNat_lowByte (x : UInt16) : (lowByte x).toNat = x.toNat % 256 := by
  have hand : x.toNat &&& 255 = x.toNat % 256 := Nat.and_two_pow_sub_one_eq_mod _ 8
  have hmask : UInt16.toNat 255 = 255 := rfl
  simp only [lowByte, UInt16.toNat_toUInt8, UInt16.toNat_and, hmask, hand]
  exact Nat.mod_mod _ _

theorem toNat_joinBytes (high low : UInt8) :
    (joinBytes high low).toNat = high.toNat * 256 + low.toNat := by
  have hhigh := high.toNat_lt
  have hlow := low.toNat_lt
  have hmod : high.toNat * 256 % 65536 = high.toNat * 256 := by
    apply Nat.mod_eq_of_lt
    omega
  have hor := Nat.shiftLeft_add_eq_or_of_lt (i := 8) hlow high.toNat
  simp only [Nat.shiftLeft_eq, show 2 ^ 8 = 256 from rfl] at hor
  simp [joinBytes, Nat.shiftLeft_eq, hmod, hor]

theorem joinBytes_split (x : UInt16) : joinBytes (highByte x) (lowByte x) = x := by
  apply UInt16.toNat_inj.mp
  rw [toNat_joinBytes, toNat_highByte, toNat_lowByte]
  omega

theorem highByte_joinBytes (high low : UInt8) : highByte (joinBytes high low) = high := by
  have hlow := low.toNat_lt
  apply UInt8.toNat_inj.mp
  rw [toNat_highByte, toNat_joinBytes]
  omega

theorem lowByte_joinBytes (high low : UInt8) : lowByte (joinBytes high low) = low := by
  have hlow := low.toNat_lt
  apply UInt8.toNat_inj.mp
  rw [toNat_lowByte, toNat_joinBytes]
  omega

end TcIpcCtrl.Package
