import Mathlib.Data.List.DropRight
import Mathlib.Tactic.TypeStar

/-!
First-in first-out queues of bounded capacity, in two disciplines: a `push`
that is refused when it does not fit, and a `pushNewest` for which the oldest
items make room.
-/
namespace TcIpcCtrl.BoundedQueue

variable {α : Type*}

/-- Only a block of the oldest items goes when newer ones need its room. -/
theorem rtake_append (items xs : List α) (cap : ℕ) (h : xs.length ≤ cap) :
    (items ++ xs).rtake cap = items.drop (items.length + xs.length - cap) ++ xs := by
  rw [List.rtake, List.length_append, List.drop_append]
  have hzero : items.length + xs.length - cap - items.length = 0 := by omega
  rw [hzero, List.drop_zero]

/-- The older items keep the room that the newer ones leave. -/
theorem rtake_append_of_le (items xs : List α) (cap : ℕ) (h : xs.length ≤ cap) :
    (items ++ xs).rtake cap = items.rtake (cap - xs.length) ++ xs := by
  have hdrop : items.length + xs.length - cap = items.length - (cap - xs.length) := by omega
  rw [rtake_append items xs cap h, List.rtake, hdrop]

theorem rtake_append_length (items : List α) {xs : List α} {n : ℕ} (h : xs.length = n) :
    (items ++ xs).rtake n = xs := by
  rw [rtake_append_of_le items xs _ (Nat.le_of_eq h), h, Nat.sub_self, List.rtake_zero,
    List.nil_append]

theorem rtake_rtake (items : List α) {m n : ℕ} (h : m ≤ n) :
    (items.rtake n).rtake m = items.rtake m := by
  simp only [List.rtake, List.drop_drop, List.length_drop]
  congr 1
  omega

/-- Newer items may be appended before or after the oldest have gone. -/
theorem rtake_rtake_append (items xs : List α) (cap : ℕ) :
    (items.rtake cap ++ xs).rtake cap = (items ++ xs).rtake cap := by
  have hdrop : items.rtake cap ++ xs = (items ++ xs).drop (items.length - cap) := by
    rw [List.rtake, List.drop_append_of_le_length (Nat.sub_le _ _)]
  rw [hdrop, List.rtake, List.rtake, List.drop_drop, List.length_drop, List.length_append]
  congr 1
  omega

theorem rtake_of_length_le (items : List α) (cap : ℕ) (h : items.length ≤ cap) :
    items.rtake cap = items := by
  rw [List.rtake, Nat.sub_eq_zero_of_le h, List.drop_zero]

theorem length_rtake (items : List α) (cap : ℕ) :
    (items.rtake cap).length = min cap items.length := by
  rw [List.rtake, List.length_drop]
  omega

/-- At most `cap` items. -/
structure Queue (α : Type*) (cap : ℕ) where
  items : List α
  length_le : items.length ≤ cap

namespace Queue

variable {cap : ℕ}

def empty (α : Type*) (cap : ℕ) : Queue α cap := ⟨[], Nat.zero_le cap⟩

/-- Append all of `xs`, or nothing when they do not fit. -/
def push (q : Queue α cap) (xs : List α) : Queue α cap :=
  if h : q.items.length + xs.length ≤ cap then
    ⟨q.items ++ xs, by rw [List.length_append]; exact h⟩
  else q

/-- Append `xs` and keep the newest `cap` items. -/
def pushNewest (q : Queue α cap) (xs : List α) : Queue α cap :=
  ⟨(q.items ++ xs).rtake cap, by rw [length_rtake]; exact Nat.min_le_left _ _⟩

/-- Remove the `n` oldest items. -/
def pop (q : Queue α cap) (n : ℕ) : Queue α cap :=
  ⟨q.items.drop n, by rw [List.length_drop]; exact (Nat.sub_le _ _).trans q.length_le⟩

theorem push_of_lt (q : Queue α cap) (xs : List α) (h : cap < q.items.length + xs.length) :
    q.push xs = q := by
  rw [push, dif_neg (by omega)]

/-- The two disciplines agree on what fits. -/
theorem push_of_le (q : Queue α cap) (xs : List α) (h : q.items.length + xs.length ≤ cap) :
    q.push xs = q.pushNewest xs := by
  have hall : (q.items ++ xs).rtake cap = q.items ++ xs := by
    apply rtake_of_length_le
    rw [List.length_append]
    exact h
  simp only [push, dif_pos h, pushNewest, hall]

end Queue

end TcIpcCtrl.BoundedQueue
