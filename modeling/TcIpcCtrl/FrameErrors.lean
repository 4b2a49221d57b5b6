import TcIpcCtrl.CrcPolynomial
import TcIpcCtrl.Resynchronization

/-!
Damaged frames. A frame has a correct checksum exactly if the polynomial of its
bits is a multiple of the generator, so that an error pattern goes unnoticed
exactly if it is a multiple itself, which no short burst is. As the error
leaves the start pattern and the length alone, the decoder consumes the damaged
frame and no more.
-/
namespace TcIpcCtrl.FrameErrors

open Polynomial Crc Package WhileLoop Tokens FrameGrammar TcIpcCtrl.Parser DecoderPasses
  DecoderRefinement RoundTrip BinaryPoly CrcPolynomial ReferenceScan Resynchronization

/-! Checksums as divisibility -/

theorem toBitVec_joinBytes (high low : UInt8) :
    (joinBytes high low).toBitVec = high.toBitVec ++ low.toBitVec := by
  apply BitVec.eq_of_toNat_eq
  rw [BitVec.toNat_append]
  show (joinBytes high low).toNat = high.toNat <<< 8 ||| low.toNat
  rw [toNat_joinBytes, ← Nat.shiftLeft_add_eq_or_of_lt low.toNat_lt, Nat.shiftLeft_eq]

theorem bitsPoly_pair (high low : UInt8) :
    bitsPoly (messageBits [high, low]) = wordPoly (joinBytes high low).toBitVec := by
  rw [messageBits_cons, messageBits_cons, bitsPoly_append, bitsPoly_append, bitsPoly_wordBits,
    bitsPoly_wordBits, toBitVec_joinBytes, wordPoly_append, List.length_append, length_wordBits]
  simp [messageBits, bitsPoly]

/-- A frame is accepted exactly if the generator divides it. -/
theorem crcOk_iff_dvd (seg : List UInt8) (h : 2 ≤ seg.length) :
    CrcOk seg seg.length ↔ generator 0x1021#16 ∣ bitsPoly (messageBits seg) := by
  obtain ⟨body, hbody⟩ : ∃ body, seg.take (seg.length - 2) = body := ⟨_, rfl⟩
  obtain ⟨crc, hcrc⟩ : ∃ crc, field seg (seg.length - 2) = crc := ⟨_, rfl⟩
  have hmonic := generator_monic 0x1021#16
  have hseg : bitsPoly (messageBits seg) =
      bitsPoly (messageBits body) * X ^ 16 + wordPoly crc.toBitVec := by
    have hsplit := congrArg messageBits (split_checksum seg h)
    rw [hbody, messageBits_append] at hsplit
    rw [hsplit, bitsPoly_append, bitsPoly_pair, length_messageBits, ← hcrc]
    rfl
  have hremainder : wordPoly (tcCrc16 body 0).toBitVec =
      (bitsPoly (messageBits body) * X ^ 16) %ₘ generator 0x1021#16 := by
    rw [tcCrc16_eq_mod, UInt16.toBitVec_zero, wordPoly_zero, zero_mul, add_zero]
  have hsmall : wordPoly crc.toBitVec %ₘ generator 0x1021#16 = wordPoly crc.toBitVec := by
    rw [modByMonic_eq_self_iff hmonic, degree_generator]
    exact degree_wordPoly_lt _
  rw [← modByMonic_eq_zero_iff_dvd hmonic, hseg, add_modByMonic, hsmall, ← hremainder, CrcOk, hbody,
    hcrc]
  constructor
  · rintro rfl
    exact add_self _
  · intro hzero
    have heq : wordPoly (tcCrc16 body 0).toBitVec = wordPoly crc.toBitVec := by
      rw [← add_zero (wordPoly (tcCrc16 body 0).toBitVec), ← add_self (wordPoly crc.toBitVec),
        ← add_assoc, hzero, zero_add]
    exact (UInt16.toBitVec_inj.mp (wordPoly_injective heq)).symm

/-! Damage -/

/-- The frame after the error pattern `e` has been added to it. -/
def damaged (F e : List UInt8) : List UInt8 := List.zipWith (fun x y => x ^^^ y) F e

theorem length_damaged {F e : List UInt8} (hlen : e.length = F.length) :
    (damaged F e).length = F.length := by
  rw [damaged, List.length_zipWith, hlen, Nat.min_self]

theorem messageBits_damaged (F e : List UInt8) :
    messageBits (damaged F e) = List.zipWith xor (messageBits F) (messageBits e) := by
  induction F generalizing e with
  | nil => rfl
  | cons x F ih =>
    cases e with
    | nil => simp [damaged, messageBits]
    | cons y e =>
      have hcons : damaged (x :: F) (y :: e) = (x ^^^ y) :: damaged F e := rfl
      rw [hcons, messageBits_cons, messageBits_cons, messageBits_cons, ih, UInt8.toBitVec_xor,
        wordBits_xor, List.zipWith_append (by rw [length_wordBits, length_wordBits])]

/-- A byte that the error does not touch. -/
theorem getD_damaged {F e : List UInt8} (hlen : e.length = F.length) (i : ℕ)
    (hclean : e.getD i 0 = 0) : (damaged F e).getD i 0 = F.getD i 0 := by
  rw [List.getD_eq_getElem?_getD] at hclean
  rw [damaged, List.getD_eq_getElem?_getD, List.getD_eq_getElem?_getD, List.getElem?_zipWith]
  by_cases hi : i < F.length
  · rw [List.getElem?_eq_getElem (hlen ▸ hi), Option.getD_some] at hclean
    rw [List.getElem?_eq_getElem hi, List.getElem?_eq_getElem (hlen ▸ hi), hclean]
    exact UInt8.xor_zero
  · rw [List.getElem?_eq_none (by omega)]

/-- An error in one run of at most 16 bits is not a multiple of the generator. -/
theorem not_crcOk_damaged {F e : List UInt8} (hlen : e.length = F.length) (hlong : 2 ≤ F.length)
    (hcrc : CrcOk F F.length) (hne : true ∈ messageBits e) (hwithin : Within 16 (messageBits e)) :
    ¬ CrcOk (damaged F e) (damaged F e).length := by
  rw [crcOk_iff_dvd F hlong] at hcrc
  rw [crcOk_iff_dvd _ (by rw [length_damaged hlen]; exact hlong), messageBits_damaged,
    bitsPoly_zipWith_xor _ _ (by rw [length_messageBits, length_messageBits, hlen]),
    dvd_add_right hcrc]
  exact not_dvd_burst (by decide) (by decide) hwithin hne

/-- A frame whose checksum is wrong, with start pattern and length as they were, is
consumed without a word. -/
theorem rejected_frame_costs_itself {F e ys : List UInt8} {m : ReceivedData} {h h' : ParserHandle}
    (hF : Carries F m) (hlen : e.length = F.length)
    (hbad : ¬ CrcOk (damaged F e) (damaged F e).length)
    (hclean : ∀ i ∈ [0, 1, 2, 7, 8], e.getD i 0 = 0) (hh : Holds h (damaged F e ++ ys))
    (hh' : Holds h' ys) :
    ∃ u t t' outs,
      Leads decodeGuard decodeBody h [] u ∧ u.offset = F.length ∧ u.parserState = stateIdle ∧
      tcParserDecoder h = some (t, outs) ∧ tcParserDecoder h' = some (t', outs) ∧
      SameRest t t' := by
  have hsize := hh.dataSize
  have hdamaged := length_damaged hlen
  have hbyte : ∀ i ∈ [0, 1, 2, 7, 8], (damaged F e).getD i 0 = F.getD i 0 :=
    fun i hi => getD_damaged hlen i (hclean i hi)
  have hstart : StartsFrame (damaged F e) := by
    rw [StartsFrame, hbyte 0 (by decide), hbyte 1 (by decide), hbyte 2 (by decide)]
    exact hF.start
  have hlength : lengthField (damaged F e) = m.length := by
    rw [hF.length, lengthField, field, hbyte ipcProtocolLengthHighOffset (by decide),
      hbyte (ipcProtocolLengthHighOffset + 1) (by decide)]
    rfl
  have hnext := nextToken_complete (damaged F e) ys hstart
    (by rw [hdamaged, hlength]; exact hF.size)
  rw [if_neg hbad] at hnext
  have hreads : Reads frames (damaged F e ++ ys) [] ys := by
    have hsingle := Reads.single (T := frames) hnext
    rwa [List.drop_left] at hsingle
  obtain ⟨u, hleads, hu, hoffset⟩ := leads_to hh.placed hh.idle hh.callback hh.window hreads
  obtain ⟨t, t', outs, hdecode, hdecode', hsame⟩ := decoder_of_reads hh hh' hreads
  rw [List.length_append] at hsize
  exact ⟨u, t, t', outs, hleads, by omega, hu.idle, hdecode, hdecode', hsame⟩

/-- The damaged frame is consumed without a word, and nothing else. -/
theorem damaged_frame_costs_itself (F e ys : List UInt8) (m : ReceivedData) (h h' : ParserHandle)
    (hF : Carries F m) (hlen : e.length = F.length) (hne : true ∈ messageBits e)
    (hwithin : Within 16 (messageBits e)) (hclean : ∀ i ∈ [0, 1, 2, 7, 8], e.getD i 0 = 0)
    (hh : Holds h (damaged F e ++ ys)) (hh' : Holds h' ys) :
    ∃ u t t' outs,
      Leads decodeGuard decodeBody h [] u ∧ u.offset = F.length ∧ u.parserState = stateIdle ∧
      tcParserDecoder h = some (t, outs) ∧ tcParserDecoder h' = some (t', outs) ∧
      SameRest t t' := by
  have hlong := length_of_carries hF
  exact rejected_frame_costs_itself hF hlen
    (not_crcOk_damaged hlen (by omega) hF.crc hne hwithin) hclean hh hh'

/-- Nine wrong bits across the border between the dummy byte and the checksum. -/
def borderBurst : List UInt8 :=
  [0x00, 0x00, 0x00, 0x00, 0x00, 0x00, 0x00, 0x00, 0x00, 0x0f, 0xf8, 0x00]

theorem borderBurst_within : Within 16 (messageBits borderBurst) := by
  have hall : ∀ i < 96, (messageBits borderBurst).getD i false = true → 76 ≤ i ∧ i < 76 + 16 := by
    decide +kernel
  refine ⟨76, fun i hbit => ?_⟩
  by_cases hi : i < 96
  · exact hall i hi hbit
  · have hlen : (messageBits borderBurst).length ≤ i := by
      rw [length_messageBits]
      exact Nat.le_of_not_lt hi
    rw [List.getD_eq_getElem?_getD, List.getElem?_eq_none hlen] at hbit
    cases hbit

theorem damaged_frame_costs_itself_border :
    ∃ t, tcParserDecoder (holding (damaged sendEmpty.frame borderBurst ++ sendEmpty.frame)
      (by decide +kernel)) = some (t, [sendEmpty.delivered]) := by
  have hburst : true ∈ messageBits borderBurst := by decide +kernel
  obtain ⟨-, t, t', outs, -, -, -, hdecode, hdecode', -⟩ :=
    damaged_frame_costs_itself sendEmpty.frame borderBurst sendEmpty.frame sendEmpty.delivered _
      (holding sendEmpty.frame (by decide +kernel)) sendEmpty.carries_frame (by decide +kernel)
      hburst borderBurst_within (by decide) (holds_holding _ (by decide +kernel))
      (holds_holding _ _)
  have hscan : Scans frames sendEmpty.frame [sendEmpty.delivered] [] := by
    have hstream := scans_stream [sendEmpty]
    rwa [show stream [sendEmpty] = sendEmpty.frame from List.append_nil _] at hstream
  obtain ⟨t'', hdecode'', -⟩ := (holds_holding sendEmpty.frame (by decide +kernel)).decoder hscan
  rw [hdecode', Option.some.injEq, Prod.mk.injEq] at hdecode''
  rw [hdecode''.2] at hdecode
  exact ⟨t, hdecode⟩

end TcIpcCtrl.FrameErrors
