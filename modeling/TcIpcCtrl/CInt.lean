import Mathlib.Data.Int.Basic
import Mathlib.Tactic.TypeStar

/-!
C integer conversions. Sizes and positions are kept as natural numbers or
integers; a conversion marks each place where the source stores, adds or
compares them in a fixed-width type.
-/
namespace TcIpcCtrl.CInt

/-- Conversion to uint16_t. -/
def u16 (z : ℤ) : ℕ := (z % 65536).toNat

/-- Conversion to uint32_t. -/
def u32 (z : ℤ) : ℕ := (z % 4294967296).toNat

/-- Conversion to int32_t, two's complement. -/
def i32 (z : ℤ) : ℤ :=
  if z % 4294967296 < 2147483648 then z % 4294967296 else z % 4294967296 - 4294967296

theorem u16_of_lt (n : ℕ) (h : n < 65536) : u16 n = n := by
  unfold u16
  omega

theorem u32_of_lt (n : ℕ) (h : n < 4294967296) : u32 n = n := by
  unfold u32
  omega

theorem u32_add (a b : ℕ) (h : a + b < 4294967296) : u32 (a + b) = a + b := by
  unfold u32
  omega

theorem u32_succ (a : ℕ) (h : a + 1 < 4294967296) : u32 (a + 1) = a + 1 :=
  u32_add a 1 h

theorem u32_sub (a b : ℕ) (hba : b ≤ a) (h : a < 4294967296) : u32 (a - b) = a - b := by
  unfold u32
  omega

theorem i32_of_lt (n : ℕ) (h : n < 2147483648) : i32 n = n := by
  unfold i32
  split <;> omega

end TcIpcCtrl.CInt
