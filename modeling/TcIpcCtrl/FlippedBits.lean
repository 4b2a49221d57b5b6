import TcIpcCtrl.FrameErrors

/-!
Single wrong bits anywhere in a frame. The generator has the factor x + 1 and
divides x^k + 1 for no k below the number of bits that the decoder can hold, so
two frames that are both accepted differ in at least four bits, and in an even
number of them.
-/
namespace TcIpcCtrl.FlippedBits

open Polynomial Crc Package WhileLoop Tokens FrameGrammar TcIpcCtrl.Parser DecoderPasses
  DecoderRefinement RoundTrip BinaryPoly CrcPolynomial ReferenceScan Resynchronization FrameErrors

/-- As many shifts as the buffer of the decoder has bits. -/
theorem generator_neverOne : neverOne 0x1021#16 8191 (1#16) = true := by decide +kernel

/-- How many bits are wrong. -/
def flips (e : List UInt8) : ℕ := (messageBits e).count true

theorem even_flips {e : List UInt8} (hdvd : generator 0x1021#16 ∣ bitsPoly (messageBits e)) :
    Even (flips e) := by
  rw [← Nat.not_odd_iff_even]
  intro hodd
  exact not_dvd_odd (by decide) hodd hdvd

theorem flips_ne_two {e : List UInt8} (hlen : e.length ≤ 1024)
    (hdvd : generator 0x1021#16 ∣ bitsPoly (messageBits e)) : flips e ≠ 2 := by
  intro htwo
  refine not_dvd_pair (by decide) (by decide) generator_neverOne htwo ?_ hdvd
  rw [length_messageBits]
  omega

/-- Two accepted strings of one length differ in an even number of bits, at least
four. -/
theorem accepted_distance {F e : List UInt8} (hlen : e.length = F.length) (hlong : 2 ≤ F.length)
    (hshort : F.length ≤ 1024) (hne : true ∈ messageBits e) (hF : CrcOk F F.length)
    (hdamaged : CrcOk (damaged F e) (damaged F e).length) : 4 ≤ flips e ∧ Even (flips e) := by
  rw [crcOk_iff_dvd F hlong] at hF
  rw [crcOk_iff_dvd _ (by rw [length_damaged hlen]; exact hlong), messageBits_damaged,
    bitsPoly_zipWith_xor _ _ (by rw [length_messageBits, length_messageBits, hlen]),
    dvd_add_right hF] at hdamaged
  have heven := even_flips hdamaged
  have htwo := flips_ne_two (hlen ▸ hshort) hdamaged
  have hpos : 0 < flips e := List.count_pos_iff.mpr hne
  refine ⟨?_, heven⟩
  obtain ⟨k, hk⟩ := heven
  omega

/-- One, two or three wrong bits, or any odd number of them, outside the start pattern
and the length cost the frame that they are in and nothing else. -/
theorem flipped_bits_cost_one_frame (F e ys : List UInt8) (m : ReceivedData)
    (h h' : ParserHandle) (hF : Carries F m) (hlen : e.length = F.length)
    (hne : true ∈ messageBits e) (hfew : flips e < 4 ∨ Odd (flips e))
    (hclean : ∀ i ∈ [0, 1, 2, 7, 8], e.getD i 0 = 0) (hh : Holds h (damaged F e ++ ys))
    (hh' : Holds h' ys) :
    ∃ u t t' outs,
      Leads decodeGuard decodeBody h [] u ∧ u.offset = F.length ∧ u.parserState = stateIdle ∧
      tcParserDecoder h = some (t, outs) ∧ tcParserDecoder h' = some (t', outs) ∧
      SameRest t t' := by
  have hlong := length_of_carries hF
  have hsize := hh.dataSize
  have hmax := hh.placed.dataSize_le
  simp only [tmmParserBufSize, ipcMaximumDataSize] at hmax
  rw [List.length_append, length_damaged hlen] at hsize
  refine rejected_frame_costs_itself hF hlen (fun hok => ?_) hclean hh hh'
  obtain ⟨hfour, heven⟩ := accepted_distance hlen (by omega) (by omega) hne hF.crc hok
  rcases hfew with hlt | hodd
  · omega
  · exact Nat.not_even_iff_odd.mpr hodd heven

/-- A wrong bit in the first command and one in the checksum. -/
def scatteredFlips : List UInt8 :=
  [0x00, 0x00, 0x00, 0x10, 0x00, 0x00, 0x00, 0x00, 0x00, 0x00, 0x00, 0x01]

theorem length_scattered :
    (damaged sendEmpty.frame scatteredFlips ++ sendStartPattern.frame).length ≤ 1024 ∧
      sendStartPattern.frame.length ≤ 1024 ∧ scatteredFlips.length = sendEmpty.frame.length := by
  decide +kernel

theorem flips_scattered : true ∈ messageBits scatteredFlips ∧ flips scatteredFlips < 4 := by
  decide +kernel

theorem flipped_bits_cost_one_frame_two :
    ∃ t t' outs,
      tcParserDecoder (holding (damaged sendEmpty.frame scatteredFlips ++ sendStartPattern.frame)
        length_scattered.1) = some (t, outs) ∧
      tcParserDecoder (holding sendStartPattern.frame length_scattered.2.1) = some (t', outs) :=
  have ⟨_, t, t', outs, _, _, _, hdecode, hdecode', _⟩ :=
    flipped_bits_cost_one_frame sendEmpty.frame scatteredFlips sendStartPattern.frame
      sendEmpty.delivered _ _ sendEmpty.carries_frame length_scattered.2.2 flips_scattered.1
      (Or.inl flips_scattered.2) (by decide) (holds_holding _ length_scattered.1)
      (holds_holding _ length_scattered.2.1)
  ⟨t, t', outs, hdecode, hdecode'⟩

/-- Four wrong bits can cancel: the generator itself has four terms. -/
example : CrcOk (damaged sendEmpty.frame
    [0x00, 0x00, 0x00, 0x01, 0x10, 0x21, 0x00, 0x00, 0x00, 0x00, 0x00, 0x00]) 12 := by
  decide +kernel

end TcIpcCtrl.FlippedBits
