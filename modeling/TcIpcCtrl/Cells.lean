import Mathlib.Data.List.Basic
import Mathlib.Data.Nat.ModEq
import Mathlib.Tactic.TypeStar

/-!
Fixed blocks of memory cells. Linear access is `memcpy` and `slice`; circular
access reads and writes at positions that are never reduced, each taken modulo
the size of the block, so that the wrap point does not show in the laws.
-/
namespace TcIpcCtrl.Cells

variable {α : Type*}

/-- A range of cells that an operation touches. -/
structure Span where
  start : ℕ
  len : ℕ
deriving DecidableEq, Repr

def Span.Within (sp : Span) (size : ℕ) : Prop := sp.start + sp.len ≤ size

instance (sp : Span) (size : ℕ) : Decidable (sp.Within size) :=
  inferInstanceAs (Decidable (_ ≤ _))

/-- Store the bytes of `src` from index `pos` on. -/
def memcpy (cells : List α) (pos : ℕ) : List α → List α
  | [] => cells
  | x :: xs => memcpy (cells.set pos x) (pos + 1) xs

/-- The `n` cells from index `pos` on. -/
def slice (cells : List α) (pos n : ℕ) : List α := (cells.drop pos).take n

@[simp] theorem length_memcpy (cells src : List α) (pos : ℕ) :
    (memcpy cells pos src).length = cells.length := by
  induction src generalizing cells pos with
  | nil => rfl
  | cons x xs ih => simp [memcpy, ih]

theorem memcpy_append (cells xs ys : List α) (pos : ℕ) :
    memcpy cells pos (xs ++ ys) = memcpy (memcpy cells pos xs) (pos + xs.length) ys := by
  induction xs generalizing cells pos with
  | nil => rfl
  | cons x xs ih =>
    simp only [List.cons_append, memcpy, ih, List.length_cons]
    congr 1
    omega

theorem length_slice (cells : List α) (pos n : ℕ) (h : pos + n ≤ cells.length) :
    (slice cells pos n).length = n := by
  simp only [slice, List.length_take, List.length_drop]
  omega

/-- A store inside the block replaces exactly the cells it covers. -/
theorem memcpy_eq (cells src : List α) (pos : ℕ) (h : pos + src.length ≤ cells.length) :
    memcpy cells pos src = cells.take pos ++ src ++ cells.drop (pos + src.length) := by
  induction src generalizing cells pos with
  | nil => simp [memcpy]
  | cons x xs ih =>
    simp only [List.length_cons] at h
    rw [memcpy, ih _ _ (by simp only [List.length_set]; omega)]
    have htake : (cells.set pos x).take (pos + 1) = cells.take pos ++ [x] := by
      rw [List.take_set, List.take_succ_eq_append_getElem (by omega),
        List.set_append_right _ _ (by rw [List.length_take]; omega), List.length_take,
        Nat.min_eq_left (by omega)]
      simp
    have hdrop : (cells.set pos x).drop (pos + 1 + xs.length) =
        cells.drop (pos + (xs.length + 1)) := by
      rw [List.drop_set_of_lt (by omega)]
      congr 1
      omega
    rw [htake, hdrop]
    simp

/-! Circular access -/

def readRound (cells : List α) (pos : ℕ) : ℕ → List α
  | 0 => []
  | n + 1 => (cells[pos % cells.length]?).toList ++ readRound cells (pos + 1) n

def writeRound (cells : List α) (pos : ℕ) : List α → List α
  | [] => cells
  | x :: xs => writeRound (cells.set (pos % cells.length) x) (pos + 1) xs

@[simp] theorem length_writeRound (cells src : List α) (pos : ℕ) :
    (writeRound cells pos src).length = cells.length := by
  induction src generalizing cells pos with
  | nil => rfl
  | cons x xs ih => simp [writeRound, ih]

theorem length_readRound (cells : List α) (pos n : ℕ) (h : 0 < cells.length) :
    (readRound cells pos n).length = n := by
  induction n generalizing pos with
  | zero => rfl
  | succ n ih =>
    have hlt : pos % cells.length < cells.length := Nat.mod_lt _ h
    simp [readRound, List.getElem?_eq_getElem hlt, ih]

theorem readRound_add (cells : List α) (pos m n : ℕ) :
    readRound cells pos (m + n) = readRound cells pos m ++ readRound cells (pos + m) n := by
  induction m generalizing pos with
  | zero => simp [readRound]
  | succ m ih =>
    have hpos : pos + 1 + m = pos + (m + 1) := by omega
    rw [show m + 1 + n = (m + n) + 1 by omega]
    simp only [readRound, ih, hpos, List.append_assoc]

/-- Only the position modulo the size of the block matters. -/
theorem readRound_congr (cells : List α) {pos pos' : ℕ} (n : ℕ)
    (h : pos % cells.length = pos' % cells.length) :
    readRound cells pos n = readRound cells pos' n := by
  induction n generalizing pos pos' with
  | zero => rfl
  | succ n ih =>
    have hsucc : (pos + 1) % cells.length = (pos' + 1) % cells.length := by
      rw [Nat.add_mod, h, ← Nat.add_mod]
    simp only [readRound, h, ih hsucc]

theorem writeRound_congr (cells src : List α) {pos pos' : ℕ}
    (h : pos % cells.length = pos' % cells.length) :
    writeRound cells pos src = writeRound cells pos' src := by
  induction src generalizing cells pos pos' with
  | nil => rfl
  | cons x xs ih =>
    simp only [writeRound, h]
    apply ih
    rw [List.length_set, Nat.add_mod, h, ← Nat.add_mod]

theorem writeRound_append (cells xs ys : List α) (pos : ℕ) :
    writeRound cells pos (xs ++ ys) =
      writeRound (writeRound cells pos xs) (pos + xs.length) ys := by
  induction xs generalizing cells pos with
  | nil => simp [writeRound]
  | cons x xs ih =>
    simp only [List.cons_append, writeRound, ih, List.length_cons]
    congr 1
    omega

private theorem mod_ne_of_lt {a b size : ℕ} (hab : a < b) (hb : b < a + size) :
    a % size ≠ b % size := by
  intro h
  have hzero : (b - a) % size = 0 := Nat.sub_mod_eq_zero_of_mod_eq h.symm
  rw [Nat.mod_eq_of_lt (by omega)] at hzero
  omega

theorem readRound_set (cells : List α) (pos n q : ℕ) (x : α) (hq : pos + n ≤ q)
    (hsize : q < pos + cells.length) :
    readRound (cells.set (q % cells.length) x) pos n = readRound cells pos n := by
  induction n generalizing pos with
  | zero => rfl
  | succ n ih =>
    have hne : q % cells.length ≠ pos % cells.length :=
      (mod_ne_of_lt (by omega) hsize).symm
    simp only [readRound, List.length_set, List.getElem?_set_ne hne]
    rw [ih (pos + 1) (by omega) (by omega)]

/-- Writing further on, up to a full turn, leaves what is read before it. -/
theorem readRound_writeRound_of_le (cells src : List α) (pos n q : ℕ) (hq : pos + n ≤ q)
    (hsize : q + src.length ≤ pos + cells.length) :
    readRound (writeRound cells q src) pos n = readRound cells pos n := by
  induction src generalizing cells q with
  | nil => rfl
  | cons x xs ih =>
    simp only [List.length_cons] at hsize
    rw [writeRound, ih _ (q + 1) (by omega) (by simp only [List.length_set]; omega)]
    exact readRound_set cells pos n q x hq (by omega)

theorem readRound_writeRound (cells src : List α) (pos : ℕ) (hsize : src.length ≤ cells.length) :
    readRound (writeRound cells pos src) pos src.length = src := by
  induction src generalizing cells pos with
  | nil => rfl
  | cons x xs ih =>
    simp only [List.length_cons] at hsize
    have hfirst : readRound (writeRound (cells.set (pos % cells.length) x) (pos + 1) xs) pos 1 =
        [x] := by
      rw [readRound_writeRound_of_le _ _ _ _ _ (by omega) (by simp only [List.length_set]; omega)]
      have hlt : pos % cells.length < cells.length := Nat.mod_lt _ (by omega)
      simp [readRound, hlt]
    rw [writeRound, List.length_cons, show xs.length + 1 = 1 + xs.length from Nat.add_comm _ _,
      readRound_add, hfirst, ih _ _ (by simp only [List.length_set]; omega)]
    rfl

theorem readRound_eq_slice (cells : List α) (pos n : ℕ) (h : pos + n ≤ cells.length) :
    readRound cells pos n = slice cells pos n := by
  induction n generalizing pos with
  | zero => simp [readRound, slice]
  | succ n ih =>
    have hlt : pos < cells.length := by omega
    rw [readRound, ih _ (by omega), Nat.mod_eq_of_lt hlt, List.getElem?_eq_getElem hlt]
    simp only [slice, List.drop_eq_getElem_cons hlt, List.take_succ_cons, Option.toList_some,
      List.singleton_append]

theorem writeRound_eq_memcpy (cells src : List α) (pos : ℕ)
    (h : pos + src.length ≤ cells.length) :
    writeRound cells pos src = memcpy cells pos src := by
  induction src generalizing cells pos with
  | nil => rfl
  | cons x xs ih =>
    simp only [List.length_cons] at h
    rw [writeRound, memcpy, Nat.mod_eq_of_lt (by omega),
      ih _ _ (by simp only [List.length_set]; omega)]

/-! Single cells -/

theorem add_mod_inj {pos i j size : ℕ} (hi : i < size) (hj : j < size)
    (h : (pos + i) % size = (pos + j) % size) : i = j :=
  Nat.ModEq.eq_of_lt_of_lt (Nat.ModEq.add_left_cancel' pos h) hi hj

theorem getElem?_readRound (cells : List α) (pos : ℕ) {n i : ℕ} (hpos : 0 < cells.length)
    (hi : i < n) : (readRound cells pos n)[i]? = cells[(pos + i) % cells.length]? := by
  induction n generalizing pos i with
  | zero => omega
  | succ n ih =>
    have hlt : pos % cells.length < cells.length := Nat.mod_lt _ hpos
    rw [readRound, List.getElem?_eq_getElem hlt, Option.toList_some, List.singleton_append]
    cases i with
    | zero => rw [List.getElem?_cons_zero, Nat.add_zero, List.getElem?_eq_getElem hlt]
    | succ i =>
      rw [List.getElem?_cons_succ, ih (pos + 1) (by omega)]
      congr 2
      omega

/-- A circular write leaves the cells alone that it does not come to. -/
theorem getElem?_writeRound_of_ne (cells src : List α) (pos p : ℕ)
    (h : ∀ i < src.length, p ≠ (pos + i) % cells.length) :
    (writeRound cells pos src)[p]? = cells[p]? := by
  induction src generalizing cells pos with
  | nil => rfl
  | cons x xs ih =>
    have hfirst : p ≠ pos % cells.length := h 0 (by rw [List.length_cons]; omega)
    rw [writeRound, ih, List.getElem?_set_ne hfirst.symm]
    intro i hi
    rw [List.length_set, show pos + 1 + i = pos + (i + 1) by omega]
    exact h (i + 1) (by rw [List.length_cons]; omega)

theorem getElem?_writeRound (cells src : List α) (pos : ℕ) {i : ℕ} (hi : i < src.length)
    (hle : src.length ≤ cells.length) :
    (writeRound cells pos src)[(pos + i) % cells.length]? = src[i]? := by
  have hread : readRound (writeRound cells pos src) pos src.length = src :=
    readRound_writeRound cells src pos hle
  have hlen := length_writeRound cells src pos
  have hcell := getElem?_readRound (writeRound cells pos src) pos (by omega) hi
  rw [hread, hlen] at hcell
  exact hcell.symm

end TcIpcCtrl.Cells
