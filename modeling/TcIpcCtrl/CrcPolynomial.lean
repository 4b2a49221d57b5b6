import TcIpcCtrl.BinaryPoly
import TcIpcCtrl.Crc

/-!
The table-driven checksum computes a remainder modulo x^16 + x^12 + x^5 + 1.
Each entry of the table is what eight shifts make of its index; one pass of the
loop adds the entry for the high byte to the low byte moved up, which is what
eight shifts make of the whole register.
-/
namespace TcIpcCtrl.CrcPolynomial

open Polynomial BinaryPoly Crc

/-- The bits of a message, most significant bit of each byte first. -/
def messageBits (bytes : List UInt8) : List Bool := bytes.flatMap fun b => wordBits b.toBitVec

theorem messageBits_cons (b : UInt8) (bytes : List UInt8) :
    messageBits (b :: bytes) = wordBits b.toBitVec ++ messageBits bytes := rfl

theorem length_messageBits (bytes : List UInt8) :
    (messageBits bytes).length = 8 * bytes.length := by
  induction bytes with
  | nil => rfl
  | cons b bytes ih =>
    rw [messageBits_cons, List.length_append, length_wordBits, ih, List.length_cons]
    omega

theorem messageBits_append (xs ys : List UInt8) :
    messageBits (xs ++ ys) = messageBits xs ++ messageBits ys := List.flatMap_append

theorem generator_eq : generator 0x1021#16 = X ^ 16 + X ^ 12 + X ^ 5 + 1 := by
  have hbits : wordBits 0x1021#16 = [false, false, false, true, false, false, false, false,
      false, false, true, false, false, false, false, true] := by decide
  rw [generator, ← bitsPoly_wordBits, hbits]
  simp only [bitsPoly, List.foldl_cons, List.foldl_nil, coefficient, if_true, Bool.false_eq_true,
    if_false, C_0, C_1]
  ring

theorem crc16Table_entry : ∀ i : Fin 256,
    (crc16Table.getD i 0).toBitVec =
      (wordBits (BitVec.ofFin i : BitVec 8)).foldl (crcBit 0x1021#16) 0#16 := by
  decide +kernel

/-- Eight shifts of a register that holds only the high byte `i`. -/
theorem crc16Table_poly (i : UInt8) : wordPoly (crc16Table.getD i.toNat 0).toBitVec =
    (wordPoly i.toBitVec * X ^ 16) %ₘ generator 0x1021#16 := by
  have hentry := crc16Table_entry ⟨i.toNat, i.toNat_lt⟩
  have hmod := crcBits_eq_mod 0x1021#16 (wordBits i.toBitVec) 0#16
  rw [wordPoly_zero, zero_mul, add_zero, bitsPoly_wordBits] at hmod
  rw [← hmod]
  exact congrArg wordPoly hentry

/-! The register as a high byte above a low byte -/

theorem toBitVec_split (c : UInt16) :
    c.toBitVec = (c >>> 8).toUInt8.toBitVec ++ c.toUInt8.toBitVec := by
  apply BitVec.eq_of_getLsbD_eq
  intro i hi
  rw [BitVec.getLsbD_append]
  by_cases h8 : i < 8
  · rw [if_pos h8]
    simp [h8]
  · rw [if_neg h8]
    have hindex : 8 + (i - 8) = i := by omega
    simp [hindex, show i - 8 < 8 by omega]

theorem toBitVec_moved (c : UInt16) : (c <<< 8).toBitVec = c.toUInt8.toBitVec ++ 0#8 := by
  apply BitVec.eq_of_getLsbD_eq
  intro i hi
  rw [BitVec.getLsbD_append]
  by_cases h8 : i < 8
  · simp [h8]
  · have hlow : i - 8 < 8 := by omega
    have hword : i - 8 < 16 := by omega
    rw [if_neg h8]
    simp [h8, hi, hlow, BitVec.getLsbD_eq_getElem hword]

theorem register_split (c : UInt16) : wordPoly c.toBitVec * X ^ 8 =
    wordPoly (c >>> 8).toUInt8.toBitVec * X ^ 16 + wordPoly (c <<< 8).toBitVec := by
  rw [toBitVec_moved, toBitVec_split, wordPoly_append, wordPoly_append, wordPoly_zero]
  ring

/-- One pass of the loop over the buffer is eight shifts. -/
theorem crcByte_eq_bits (c : UInt16) (b : UInt8) :
    (crcByte c b).toBitVec = (wordBits b.toBitVec).foldl (crcBit 0x1021#16) c.toBitVec := by
  apply wordPoly_injective
  have hsmall : wordPoly (c <<< 8).toBitVec %ₘ generator 0x1021#16 =
      wordPoly (c <<< 8).toBitVec := by
    rw [modByMonic_eq_self_iff (generator_monic _), degree_generator]
    exact degree_wordPoly_lt _
  have hindex : wordPoly ((c >>> 8).toUInt8 ^^^ b).toBitVec =
      wordPoly (c >>> 8).toUInt8.toBitVec + wordPoly b.toBitVec := by
    rw [UInt8.toBitVec_xor, wordPoly_xor]
  have hsum : wordPoly b.toBitVec * X ^ 16 + wordPoly c.toBitVec * X ^ 8 =
      wordPoly ((c >>> 8).toUInt8 ^^^ b).toBitVec * X ^ 16 + wordPoly (c <<< 8).toBitVec := by
    rw [register_split, hindex]
    ring
  rw [crcBits_eq_mod, bitsPoly_wordBits, length_wordBits, hsum, add_modByMonic, hsmall,
    ← crc16Table_poly, crcByte, UInt16.toBitVec_xor, wordPoly_xor]

theorem tcCrc16_eq_bits (bytes : List UInt8) (init : UInt16) :
    (tcCrc16 bytes init).toBitVec =
      (messageBits bytes).foldl (crcBit 0x1021#16) init.toBitVec := by
  induction bytes generalizing init with
  | nil => rfl
  | cons b bytes ih =>
    have hpass : tcCrc16 (b :: bytes) init = tcCrc16 bytes (crcByte init b) := rfl
    rw [hpass, ih, crcByte_eq_bits, messageBits_cons, List.foldl_append]

theorem tcCrc16_eq_mod (bytes : List UInt8) (init : UInt16) :
    wordPoly (tcCrc16 bytes init).toBitVec =
      (bitsPoly (messageBits bytes) * X ^ 16 + wordPoly init.toBitVec * X ^ (8 * bytes.length)) %ₘ
        generator 0x1021#16 := by
  rw [tcCrc16_eq_bits, crcBits_eq_mod, length_messageBits]

/-- The table-driven loop is the bit-by-bit one, and its result the remainder of
the message moved up by 16 bits and the initial value by the length of the
message. -/
theorem tcCrc16_eq_remainder (bytes : List UInt8) (init : UInt16) :
    (tcCrc16 bytes init).toBitVec =
        (messageBits bytes).foldl (crcBit 0x1021#16) init.toBitVec ∧
      wordPoly (tcCrc16 bytes init).toBitVec =
        (bitsPoly (messageBits bytes) * X ^ 16 + wordPoly init.toBitVec * X ^ (8 * bytes.length)) %ₘ
          (X ^ 16 + X ^ 12 + X ^ 5 + 1) := by
  refine ⟨tcCrc16_eq_bits bytes init, ?_⟩
  rw [tcCrc16_eq_mod, generator_eq]

end TcIpcCtrl.CrcPolynomial
