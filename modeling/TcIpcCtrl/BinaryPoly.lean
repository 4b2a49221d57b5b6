import Mathlib.Algebra.Field.ZMod
import Mathlib.Algebra.Polynomial.Div
import Mathlib.Algebra.Polynomial.FieldDivision
import Mathlib.Algebra.Polynomial.Monic
import Mathlib.Tactic.Ring

/-!
Words and bit strings as polynomials over the field of two elements, where
exclusive or is addition. A shift register fed most significant bit first then
computes a remainder of long division, and a burst of errors no longer than the
register is never a multiple of the divisor.
-/
namespace TcIpcCtrl.BinaryPoly

open Polynomial

/-- The field element that a bit stands for. -/
def coefficient (b : Bool) : ZMod 2 := if b then 1 else 0

theorem coefficient_xor (a b : Bool) : coefficient (a ^^ b) = coefficient a + coefficient b := by
  cases a <;> cases b <;> decide

theorem coefficient_inj {a b : Bool} (h : coefficient a = coefficient b) : a = b := by
  cases a <;> cases b <;> first | rfl | exact absurd h (by decide)

theorem add_self (p : (ZMod 2)[X]) : p + p = 0 := CharTwo.add_self_eq_zero p

/-! Words -/

variable {w : ℕ}

/-- Bit `i` of the word is the coefficient of `X ^ i`. -/
noncomputable def wordPoly (x : BitVec w) : (ZMod 2)[X] :=
  ∑ i ∈ Finset.range w, C (coefficient (x.getLsbD i)) * X ^ i

theorem coeff_wordPoly (x : BitVec w) (i : ℕ) :
    (wordPoly x).coeff i = coefficient (x.getLsbD i) := by
  rw [wordPoly, finsetSum_coeff]
  simp only [coeff_C_mul_X_pow]
  by_cases hi : i < w
  · rw [Finset.sum_ite_eq (Finset.range w) i, if_pos (Finset.mem_range.mpr hi)]
  · rw [Finset.sum_ite_eq (Finset.range w) i, if_neg (fun hmem => hi (Finset.mem_range.mp hmem)),
      BitVec.getLsbD_of_ge x i (Nat.le_of_not_lt hi)]
    rfl

theorem wordPoly_injective {x y : BitVec w} (h : wordPoly x = wordPoly y) : x = y := by
  apply BitVec.eq_of_getLsbD_eq
  intro i _
  apply coefficient_inj
  rw [← coeff_wordPoly, ← coeff_wordPoly, h]

theorem wordPoly_zero : wordPoly (0#w) = 0 := by
  ext i
  rw [coeff_wordPoly, BitVec.getLsbD_zero, coeff_zero]
  rfl

theorem wordPoly_xor (x y : BitVec w) : wordPoly (x ^^^ y) = wordPoly x + wordPoly y := by
  ext i
  rw [coeff_add, coeff_wordPoly, coeff_wordPoly, coeff_wordPoly, BitVec.getLsbD_xor,
    coefficient_xor]

theorem degree_wordPoly_lt (x : BitVec w) : (wordPoly x).degree < w := by
  rw [degree_lt_iff_coeff_zero]
  intro i hi
  rw [coeff_wordPoly, BitVec.getLsbD_of_ge x i hi]
  rfl

/-- One word above another. -/
theorem wordPoly_append {v : ℕ} (x : BitVec w) (y : BitVec v) :
    wordPoly (x ++ y) = wordPoly x * X ^ v + wordPoly y := by
  ext i
  rw [coeff_add, coeff_mul_X_pow', coeff_wordPoly, coeff_wordPoly, coeff_wordPoly,
    BitVec.getLsbD_append]
  by_cases hi : i < v
  · rw [if_pos hi, if_neg (by omega), zero_add]
  · rw [if_neg hi, if_pos (by omega), BitVec.getLsbD_of_ge y i (by omega)]
    exact (add_zero _).symm

/-- The bit that a shift pushes out is the coefficient of `X ^ w`. -/
theorem wordPoly_shiftLeft_one (x : BitVec w) :
    X * wordPoly x = wordPoly (x <<< 1) + C (coefficient x.msb) * X ^ w := by
  ext i
  rw [coeff_add, coeff_wordPoly, BitVec.getLsbD_shiftLeft, coeff_C_mul, coeff_X_pow]
  have hmsb : w = 0 → x.msb = false := by
    rintro rfl
    rfl
  cases i with
  | zero =>
    rw [coeff_X_mul_zero]
    by_cases hw : w = 0
    · rw [hmsb hw]
      simp [coefficient]
    · rw [if_neg (by omega)]
      simp [coefficient]
  | succ i =>
    rw [coeff_X_mul, coeff_wordPoly, Nat.add_sub_cancel]
    by_cases hlt : i + 1 < w
    · rw [if_neg (by omega)]
      simp [hlt]
    · by_cases heq : i + 1 = w
      · have hlast : w - 1 = i := by omega
        rw [if_pos heq, BitVec.msb_eq_getLsbD_last, hlast]
        simp [coefficient, hlt]
      · rw [if_neg heq, BitVec.getLsbD_of_ge x i (by omega)]
        simp [coefficient, hlt]

/-! Bit strings -/

/-- The first bit is the leading coefficient. -/
noncomputable def bitsPoly (bits : List Bool) : (ZMod 2)[X] :=
  bits.foldl (fun p b => p * X + C (coefficient b)) 0

theorem foldl_bitsPoly (bits : List Bool) (p : (ZMod 2)[X]) :
    bits.foldl (fun p b => p * X + C (coefficient b)) p =
      p * X ^ bits.length + bitsPoly bits := by
  induction bits generalizing p with
  | nil => simp [bitsPoly]
  | cons b bits ih =>
    rw [bitsPoly, List.foldl_cons, List.foldl_cons, ih, ih (0 * X + C (coefficient b)),
      List.length_cons, pow_succ]
    ring

theorem bitsPoly_cons (b : Bool) (bits : List Bool) :
    bitsPoly (b :: bits) = C (coefficient b) * X ^ bits.length + bitsPoly bits := by
  rw [bitsPoly, List.foldl_cons, foldl_bitsPoly, zero_mul, zero_add]

theorem bitsPoly_append (xs ys : List Bool) :
    bitsPoly (xs ++ ys) = bitsPoly xs * X ^ ys.length + bitsPoly ys := by
  rw [bitsPoly, List.foldl_append, foldl_bitsPoly]
  rfl

theorem coeff_bitsPoly (bits : List Bool) (i : ℕ) :
    (bitsPoly bits).coeff i = coefficient (bits.reverse.getD i false) := by
  induction bits with
  | nil => simp [bitsPoly, coefficient]
  | cons b bits ih =>
    rw [bitsPoly_cons, coeff_add, coeff_C_mul, coeff_X_pow, ih, List.reverse_cons]
    simp only [List.getD_eq_getElem?_getD]
    by_cases hlt : i < bits.length
    · rw [if_neg (by omega), mul_zero, zero_add,
        List.getElem?_append_left (by rw [List.length_reverse]; exact hlt)]
    · rw [List.getElem?_append_right (by rw [List.length_reverse]; omega), List.length_reverse,
        List.getElem?_eq_none (by rw [List.length_reverse]; omega)]
      by_cases heq : i = bits.length
      · simp [heq, coefficient]
      · rw [if_neg heq, List.getElem?_eq_none (by rw [List.length_singleton]; omega)]
        simp [coefficient]

theorem degree_bitsPoly_lt (bits : List Bool) : (bitsPoly bits).degree < bits.length := by
  rw [degree_lt_iff_coeff_zero]
  intro i hi
  rw [coeff_bitsPoly, List.getD_eq_getElem?_getD,
    List.getElem?_eq_none (by rw [List.length_reverse]; exact hi)]
  rfl

theorem bitsPoly_ne_zero {bits : List Bool} (h : true ∈ bits) : bitsPoly bits ≠ 0 := by
  intro hzero
  obtain ⟨i, hi, hbit⟩ := List.getElem_of_mem (List.mem_reverse.mpr h)
  have hcoeff := coeff_bitsPoly bits i
  rw [hzero, coeff_zero, List.getD_eq_getElem?_getD, List.getElem?_eq_getElem hi, hbit] at hcoeff
  exact absurd hcoeff (by decide)

theorem bitsPoly_eq_zero {bits : List Bool} (h : true ∉ bits) : bitsPoly bits = 0 := by
  induction bits with
  | nil => rfl
  | cons b bits ih =>
    rw [List.mem_cons, not_or] at h
    have hb : b = false := Bool.eq_false_of_not_eq_true fun heq => h.1 heq.symm
    rw [bitsPoly_cons, ih h.2, hb, add_zero, coefficient, if_neg Bool.false_ne_true, C_0, zero_mul]

theorem bitsPoly_zipWith_xor (xs ys : List Bool) (h : xs.length = ys.length) :
    bitsPoly (List.zipWith xor xs ys) = bitsPoly xs + bitsPoly ys := by
  induction xs generalizing ys with
  | nil =>
    cases ys with
    | nil => simp [bitsPoly]
    | cons y ys => cases h
  | cons x xs ih =>
    cases ys with
    | nil => cases h
    | cons y ys =>
      have hlen : xs.length = ys.length := Nat.succ.inj h
      rw [List.zipWith_cons_cons, bitsPoly_cons, bitsPoly_cons, bitsPoly_cons, ih ys hlen,
        List.length_zipWith, hlen, Nat.min_self, coefficient_xor, C_add]
      ring

/-- The bits of a word, most significant first. -/
def wordBits (x : BitVec w) : List Bool := (List.range w).map x.getMsbD

@[simp] theorem length_wordBits (x : BitVec w) : (wordBits x).length = w := by
  rw [wordBits, List.length_map, List.length_range]

theorem bitsPoly_wordBits (x : BitVec w) : bitsPoly (wordBits x) = wordPoly x := by
  ext i
  rw [coeff_bitsPoly, coeff_wordPoly, List.getD_eq_getElem?_getD]
  by_cases hi : i < w
  · rw [List.getElem?_reverse (by rw [length_wordBits]; exact hi), length_wordBits, wordBits,
      List.getElem?_map, List.getElem?_range (by omega), Option.map_some, Option.getD_some,
      BitVec.getMsbD_eq_getLsbD]
    have hflip : w - 1 - (w - 1 - i) = i := by omega
    have hlt : w - 1 - i < w := by omega
    rw [hflip, decide_eq_true hlt, Bool.true_and]
  · rw [List.getElem?_eq_none (by rw [List.length_reverse, length_wordBits]; omega),
      BitVec.getLsbD_of_ge x i (by omega)]
    rfl

theorem wordBits_xor (x y : BitVec w) :
    wordBits (x ^^^ y) = List.zipWith xor (wordBits x) (wordBits y) := by
  rw [wordBits, wordBits, wordBits, List.zipWith_map, List.zipWith_self]
  exact List.map_congr_left fun i _ => BitVec.getMsbD_xor

/-! The shift register -/

/-- One bit shifted in; the bit shifted out decides whether `tap` is added. -/
def crcBit (tap c : BitVec w) (b : Bool) : BitVec w :=
  if c.msb ^^ b then (c <<< 1) ^^^ tap else c <<< 1

/-- The divisor; `tap` is what it has below its leading term. -/
noncomputable def generator (tap : BitVec w) : (ZMod 2)[X] := X ^ w + wordPoly tap

theorem generator_monic (tap : BitVec w) : (generator tap).Monic :=
  monic_X_pow_add (degree_wordPoly_lt tap)

theorem degree_generator (tap : BitVec w) : (generator tap).degree = w := by
  rw [generator, degree_add_eq_left_of_degree_lt, degree_X_pow]
  rw [degree_X_pow]
  exact degree_wordPoly_lt tap

/-- One step multiplies by `X`, adds the bit at `X ^ w` and subtracts a multiple of
the divisor. -/
theorem crcBit_poly (tap c : BitVec w) (b : Bool) :
    X * wordPoly c + C (coefficient b) * X ^ w =
      wordPoly (crcBit tap c b) + generator tap * C (coefficient (c.msb ^^ b)) := by
  have hxor : C (coefficient (c.msb ^^ b)) = C (coefficient c.msb) + C (coefficient b) := by
    rw [coefficient_xor, C_add]
  rw [wordPoly_shiftLeft_one, add_assoc, ← add_mul, ← hxor, crcBit]
  cases c.msb ^^ b with
  | false => simp [coefficient]
  | true =>
    have hcancel := add_self (wordPoly tap)
    simp only [coefficient, if_true, wordPoly_xor, generator, C_1, one_mul, mul_one]
    calc wordPoly (c <<< 1) + X ^ w
        = wordPoly (c <<< 1) + X ^ w + (wordPoly tap + wordPoly tap) := by rw [hcancel, add_zero]
      _ = wordPoly (c <<< 1) + wordPoly tap + (X ^ w + wordPoly tap) := by ring

theorem crcBits_poly (tap : BitVec w) (bits : List Bool) (c : BitVec w) :
    ∃ q, bitsPoly bits * X ^ w + wordPoly c * X ^ bits.length =
      wordPoly (bits.foldl (crcBit tap) c) + generator tap * q := by
  induction bits generalizing c with
  | nil => exact ⟨0, by simp [bitsPoly]⟩
  | cons b bits ih =>
    obtain ⟨q, hq⟩ := ih (crcBit tap c b)
    refine ⟨q + C (coefficient (c.msb ^^ b)) * X ^ bits.length, ?_⟩
    have hbit := crcBit_poly tap c b
    calc bitsPoly (b :: bits) * X ^ w + wordPoly c * X ^ (b :: bits).length
        = bitsPoly bits * X ^ w +
          (X * wordPoly c + C (coefficient b) * X ^ w) * X ^ bits.length := by
          rw [bitsPoly_cons, List.length_cons, pow_succ]
          ring
      _ = (bitsPoly bits * X ^ w + wordPoly (crcBit tap c b) * X ^ bits.length) +
          generator tap * (C (coefficient (c.msb ^^ b)) * X ^ bits.length) := by
          rw [hbit]
          ring
      _ = wordPoly (bits.foldl (crcBit tap) (crcBit tap c b)) +
          generator tap * (q + C (coefficient (c.msb ^^ b)) * X ^ bits.length) := by
          rw [hq]
          ring

/-- The register holds the remainder of long division. -/
theorem crcBits_eq_mod (tap : BitVec w) (bits : List Bool) (c : BitVec w) :
    wordPoly (bits.foldl (crcBit tap) c) =
      (bitsPoly bits * X ^ w + wordPoly c * X ^ bits.length) %ₘ generator tap := by
  obtain ⟨q, hq⟩ := crcBits_poly tap bits c
  have hdegree : (wordPoly (bits.foldl (crcBit tap) c)).degree < (generator tap).degree := by
    rw [degree_generator]
    exact degree_wordPoly_lt _
  exact (div_modByMonic_unique q _ (generator_monic tap) ⟨hq.symm, hdegree⟩).2.symm

/-! Errors -/

theorem generator_coprime_X {tap : BitVec w} (hw : 0 < w) (htap : tap.getLsbD 0 = true) :
    IsCoprime (generator tap) X := by
  have hzero : (generator tap).coeff 0 = 1 := by
    rw [generator, coeff_add, coeff_X_pow, if_neg (by omega), coeff_wordPoly, htap, zero_add]
    rfl
  refine ⟨1, -divX (generator tap), ?_⟩
  have hsplit := divX_mul_X_add (generator tap)
  rw [hzero, C_1] at hsplit
  calc 1 * generator tap + -divX (generator tap) * X
      = generator tap - divX (generator tap) * X := by ring
    _ = 1 := sub_eq_of_eq_add' hsplit.symm

/-- The set bits lie within `n` consecutive places. -/
def Within (n : ℕ) (bits : List Bool) : Prop :=
  ∃ first, ∀ i, bits.getD i false = true → first ≤ i ∧ i < first + n

theorem bitsPoly_of_within {n : ℕ} {bits : List Bool} (h : Within n bits) (hne : true ∈ bits) :
    ∃ burst k, burst.length ≤ n ∧ true ∈ burst ∧ bitsPoly bits = bitsPoly burst * X ^ k := by
  obtain ⟨first, hfirst⟩ := h
  have hindex : ∀ i (hi : i < bits.length), bits[i] = true → first ≤ i ∧ i < first + n := by
    intro i hi hbit
    apply hfirst
    rw [List.getD_eq_getElem?_getD, List.getElem?_eq_getElem hi, hbit]
    rfl
  have hbefore : true ∉ bits.take first := by
    intro hmem
    obtain ⟨i, hi, hbit⟩ := List.getElem_of_mem hmem
    rw [List.length_take] at hi
    rw [List.getElem_take] at hbit
    have hle := (hindex i (by omega) hbit).1
    omega
  have hafter : true ∉ bits.drop (first + n) := by
    intro hmem
    obtain ⟨i, hi, hbit⟩ := List.getElem_of_mem hmem
    rw [List.length_drop] at hi
    rw [List.getElem_drop] at hbit
    have hlt := (hindex (first + n + i) (by omega) hbit).2
    omega
  have hsplit : bits = bits.take first ++ ((bits.drop first).take n ++ bits.drop (first + n)) := by
    rw [← List.drop_drop, List.take_append_drop, List.take_append_drop]
  refine ⟨(bits.drop first).take n, (bits.drop (first + n)).length, List.length_take_le _ _, ?_, ?_⟩
  · rw [hsplit, List.mem_append, List.mem_append] at hne
    exact (hne.resolve_left hbefore).resolve_right hafter
  · rw [hsplit, bitsPoly_append, bitsPoly_eq_zero hbefore, zero_mul, zero_add, bitsPoly_append,
      bitsPoly_eq_zero hafter, add_zero, ← hsplit]

/-- A divisor with a constant term divides no nonzero burst of up to `w` bits. -/
theorem not_dvd_burst {tap : BitVec w} (hw : 0 < w) (htap : tap.getLsbD 0 = true)
    {bits : List Bool} (hwithin : Within w bits) (hne : true ∈ bits) :
    ¬ generator tap ∣ bitsPoly bits := by
  obtain ⟨burst, k, hlen, hburst, heq⟩ := bitsPoly_of_within hwithin hne
  intro hdvd
  rw [heq] at hdvd
  have hcoprime : IsCoprime (generator tap) (X ^ k) := (generator_coprime_X hw htap).pow_right
  have hdvd' : generator tap ∣ bitsPoly burst := hcoprime.dvd_of_dvd_mul_right hdvd
  refine (generator_monic tap).not_dvd_of_degree_lt (bitsPoly_ne_zero hburst) ?_ hdvd'
  rw [degree_generator]
  exact (degree_bitsPoly_lt burst).trans_le (by exact_mod_cast hlen)

/-! Few errors -/

theorem eval_one_bitsPoly (bits : List Bool) :
    (bitsPoly bits).eval 1 = (bits.count true : ZMod 2) := by
  induction bits with
  | nil => simp [bitsPoly]
  | cons b bits ih =>
    rw [bitsPoly_cons, eval_add, ih, eval_mul, eval_C, eval_pow, eval_X, one_pow, mul_one]
    cases b with
    | false => simp [coefficient]
    | true => simp [coefficient, add_comm]

/-- A divisor with an even number of terms has the factor `X + 1`, and divides no
pattern with an odd number of errors. -/
theorem not_dvd_odd {tap : BitVec w} (htap : Odd ((wordBits tap).count true)) {bits : List Bool}
    (hodd : Odd (bits.count true)) : ¬ generator tap ∣ bitsPoly bits := by
  have hone : ∀ n : ℕ, Odd n → (n : ZMod 2) = 1 := fun n hn => (ZMod.natCast_eq_one_iff_odd).mpr hn
  rintro ⟨q, hq⟩
  have heval := congrArg (eval 1) hq
  rw [eval_one_bitsPoly, hone _ hodd, eval_mul, generator, eval_add, eval_pow, eval_X, one_pow,
    ← bitsPoly_wordBits, eval_one_bitsPoly, hone _ htap, CharTwo.add_self_eq_zero, zero_mul]
    at heval
  exact absurd heval (by decide)

theorem bitsPoly_replicate_false (n : ℕ) : bitsPoly (List.replicate n false) = 0 :=
  bitsPoly_eq_zero fun h => absurd (List.eq_of_mem_replicate h) Bool.noConfusion

/-- Zeros shifted into a register that holds 1 make the powers of `X`. -/
theorem shifts_one {tap : BitVec w} (hw : 0 < w) (n : ℕ) :
    wordPoly ((List.replicate n false).foldl (crcBit tap) (1#w)) = X ^ n %ₘ generator tap := by
  have hone : wordPoly (1#w) = 1 := by
    ext i
    rw [coeff_wordPoly, BitVec.getLsbD_one, coeff_one]
    by_cases hi : i = 0
    · simp [hi, hw, coefficient]
    · simp [hi, coefficient]
  rw [crcBits_eq_mod, bitsPoly_replicate_false, zero_mul, zero_add, hone, one_mul,
    List.length_replicate]

/-- The register comes back to 1 in none of the next `n` shifts. -/
def neverOne (tap : BitVec w) : ℕ → BitVec w → Bool
  | 0, _ => true
  | n + 1, c => crcBit tap c false != 1#w && neverOne tap n (crcBit tap c false)

theorem neverOne_iff (tap : BitVec w) (n : ℕ) (c : BitVec w) : neverOne tap n c = true ↔
    ∀ k, 0 < k → k ≤ n → (List.replicate k false).foldl (crcBit tap) c ≠ 1#w := by
  induction n generalizing c with
  | zero =>
    refine iff_of_true rfl fun k hpos hle => ?_
    omega
  | succ n ih =>
    rw [neverOne, Bool.and_eq_true, bne_iff_ne, ih]
    constructor
    · rintro ⟨hfirst, hrest⟩ k hpos hle
      obtain ⟨k, rfl⟩ := Nat.exists_eq_succ_of_ne_zero hpos.ne'
      by_cases hk : k = 0
      · rw [hk]
        exact hfirst
      · exact hrest k (by omega) (by omega)
    · intro h
      exact ⟨h 1 (by omega) (by omega), fun k hpos hle => h (k + 1) (by omega) (by omega)⟩

theorem split_count {n : ℕ} {bits : List Bool} (h : bits.count true = n + 1) :
    ∃ xs ys, bits = xs ++ true :: ys ∧ true ∉ xs ∧ ys.count true = n := by
  have hmem : true ∈ bits := List.count_pos_iff.mp (by omega)
  obtain ⟨xs, ys, rfl, hxs⟩ := List.eq_append_cons_of_mem hmem
  refine ⟨xs, ys, rfl, hxs, ?_⟩
  rw [List.count_append, List.count_eq_zero.mpr hxs, List.count_cons_self] at h
  omega

/-- Two errors are a multiple of the divisor only if they are as far apart as a run
of the register from 1 to 1. -/
theorem not_dvd_pair {tap : BitVec w} (hw : 0 < w) (htap : tap.getLsbD 0 = true) {n : ℕ}
    (hnever : neverOne tap n (1#w) = true) {bits : List Bool} (htwo : bits.count true = 2)
    (hlen : bits.length ≤ n + 1) : ¬ generator tap ∣ bitsPoly bits := by
  obtain ⟨xs, rest, rfl, hxs, hone⟩ := split_count htwo
  obtain ⟨ys, zs, rfl, hys, hzero⟩ := split_count hone
  have hzs : true ∉ zs := List.count_eq_zero.mp hzero
  have hpoly : bitsPoly (xs ++ true :: (ys ++ true :: zs)) =
      (X ^ (ys.length + 1) + 1) * X ^ zs.length := by
    rw [bitsPoly_append, bitsPoly_eq_zero hxs, bitsPoly_cons, bitsPoly_append,
      bitsPoly_eq_zero hys, bitsPoly_cons, bitsPoly_eq_zero hzs]
    simp only [List.length_append, List.length_cons, coefficient, if_true, C_1]
    ring
  simp only [List.length_append, List.length_cons] at hlen
  intro hdvd
  have hcoprime : IsCoprime (generator tap) (X ^ zs.length) :=
    (generator_coprime_X hw htap).pow_right
  rw [hpoly] at hdvd
  have hdvd' : generator tap ∣ X ^ (ys.length + 1) + 1 := hcoprime.dvd_of_dvd_mul_right hdvd
  have hsmall : (1 : (ZMod 2)[X]) %ₘ generator tap = 1 := by
    rw [modByMonic_eq_self_iff (generator_monic tap), degree_generator, degree_one]
    exact_mod_cast hw
  have hmod : X ^ (ys.length + 1) %ₘ generator tap = 1 := by
    rw [← modByMonic_eq_zero_iff_dvd (generator_monic tap), add_modByMonic, hsmall] at hdvd'
    exact CharTwo.add_eq_zero.mp hdvd'
  have hone : wordPoly (1#w) = 1 := by
    have hstart : wordPoly (1#w) = X ^ 0 %ₘ generator tap := shifts_one hw 0
    rw [hstart, pow_zero, hsmall]
  rw [← shifts_one hw, ← hone] at hmod
  exact (neverOne_iff tap n _).mp hnever (ys.length + 1) (by omega) (by omega)
    (wordPoly_injective hmod)

end TcIpcCtrl.BinaryPoly
