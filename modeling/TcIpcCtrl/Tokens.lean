import Mathlib.Data.List.Basic
import Mathlib.Tactic.TypeStar

/-!
Splitting a stream into tokens. A tokenizer looks at the items at hand and
either waits for more or takes a nonempty prefix, which it would take as well
if more items followed. Scanning can then be cut anywhere in the stream: what
is left over after one part is scanned again in front of the next.
-/
namespace TcIpcCtrl.Tokens

variable {α ω : Type*}

inductive Verdict (ω : Type*)
  | wait
  | take (n : ℕ) (out : List ω)

structure Tokenizer (α ω : Type*) where
  next : List α → Verdict ω
  take_bounds : ∀ xs n out, next xs = .take n out → 0 < n ∧ n ≤ xs.length
  stable : ∀ xs n out ys, next xs = .take n out → next (xs ++ ys) = .take n out

/-- Part of a token is no token: it waits. -/
theorem Tokenizer.wait_of_short (T : Tokenizer α ω) {xs bs : List α} {n : ℕ} {out : List ω}
    (h : T.next xs = .take n out) (hbs : bs <+: xs) (hlt : bs.length < n) :
    T.next bs = .wait := by
  obtain ⟨ys, rfl⟩ := hbs
  cases hnext : T.next bs with
  | wait => rfl
  | take n' out' =>
    have htake := T.stable bs n' out' ys hnext
    rw [h, Verdict.take.injEq] at htake
    have hbounds := T.take_bounds bs n' out' hnext
    omega

/-- Scanning `xs` emits `outs` and leaves `rest`, on which the tokenizer waits. -/
inductive Scans (T : Tokenizer α ω) : List α → List ω → List α → Prop
  | wait {xs : List α} : T.next xs = .wait → Scans T xs [] xs
  | take {xs rest : List α} {n : ℕ} {out outs : List ω} : T.next xs = .take n out →
      Scans T (xs.drop n) outs rest → Scans T xs (out ++ outs) rest

namespace Scans

variable {T : Tokenizer α ω}

theorem det {xs rest rest' : List α} {outs outs' : List ω} (h : Scans T xs outs rest)
    (h' : Scans T xs outs' rest') : outs = outs' ∧ rest = rest' := by
  induction h generalizing outs' rest' with
  | wait hw =>
    cases h' with
    | wait => exact ⟨rfl, rfl⟩
    | take ht => simp [hw] at ht
  | take ht _ ih =>
    cases h' with
    | wait hw => simp [hw] at ht
    | take ht' hrest =>
      rw [ht, Verdict.take.injEq] at ht'
      obtain ⟨rfl, rfl⟩ := ht'
      obtain ⟨rfl, rfl⟩ := ih hrest
      exact ⟨rfl, rfl⟩

theorem total (T : Tokenizer α ω) (xs : List α) : ∃ outs rest, Scans T xs outs rest := by
  induction hlen : xs.length using Nat.strongRecOn generalizing xs with
  | ind len ih =>
    cases hnext : T.next xs with
    | wait => exact ⟨[], xs, .wait hnext⟩
    | take n out =>
      obtain ⟨hpos, hle⟩ := T.take_bounds xs n out hnext
      have hshort : (xs.drop n).length < len := by
        rw [List.length_drop]
        omega
      obtain ⟨outs, rest, hrest⟩ := ih _ hshort (xs.drop n) rfl
      exact ⟨out ++ outs, rest, .take hnext hrest⟩

/-- The leftover of one part is scanned in front of the next part. -/
theorem append {xs ys rest rest' : List α} {outs outs' : List ω} (h : Scans T xs outs rest)
    (h' : Scans T (rest ++ ys) outs' rest') : Scans T (xs ++ ys) (outs ++ outs') rest' := by
  induction h with
  | wait => exact h'
  | @take xs rest n out outs ht _ ih =>
    obtain ⟨_, hle⟩ := T.take_bounds xs n out ht
    rw [List.append_assoc]
    refine .take (T.stable xs n out ys ht) ?_
    rw [List.drop_append_of_le_length hle]
    exact ih h'

/-- More input only adds outputs at the end. -/
theorem outs_prefix {xs ys rest rest' : List α} {outs outs' : List ω}
    (h : Scans T xs outs rest) (h' : Scans T (xs ++ ys) outs' rest') : outs <+: outs' := by
  obtain ⟨more, rest'', hmore⟩ := total T (rest ++ ys)
  obtain ⟨rfl, _⟩ := (h.append hmore).det h'
  exact List.prefix_append outs more

end Scans

/-- A scan of `xs` comes to `ys`, having emitted `outs`. -/
inductive Reads (T : Tokenizer α ω) : List α → List ω → List α → Prop
  | refl {xs : List α} : Reads T xs [] xs
  | take {xs ys : List α} {n : ℕ} {out outs : List ω} : T.next xs = .take n out →
      Reads T (xs.drop n) outs ys → Reads T xs (out ++ outs) ys

namespace Reads

variable {T : Tokenizer α ω}

theorem single {xs : List α} {n : ℕ} {out : List ω} (h : T.next xs = .take n out) :
    Reads T xs out (xs.drop n) := by
  have htake := Reads.take h (.refl (T := T))
  rwa [List.append_nil] at htake

theorem trans {xs ys zs : List α} {outs more : List ω} (h : Reads T xs outs ys)
    (h' : Reads T ys more zs) : Reads T xs (outs ++ more) zs := by
  induction h with
  | refl => exact h'
  | take ht _ ih =>
    rw [List.append_assoc]
    exact .take ht (ih h')

theorem scans {xs ys rest : List α} {outs more : List ω} (h : Reads T xs outs ys)
    (h' : Scans T ys more rest) : Scans T xs (outs ++ more) rest := by
  induction h with
  | refl => exact h'
  | take ht _ ih =>
    rw [List.append_assoc]
    exact .take ht (ih h')

end Reads

theorem Scans.reads {T : Tokenizer α ω} {xs rest : List α} {outs : List ω}
    (h : Scans T xs outs rest) : Reads T xs outs rest ∧ T.next rest = .wait := by
  induction h with
  | wait hw => exact ⟨.refl, hw⟩
  | take ht _ ih => exact ⟨.take ht ih.1, ih.2⟩

/-- A scan of `xs` comes to a place from which `Q` holds. -/
inductive Meets (T : Tokenizer α ω) (Q : List α → Prop) : List α → Prop
  | here {xs : List α} : Q xs → Meets T Q xs
  | later {xs : List α} {n : ℕ} {out : List ω} : T.next xs = .take n out →
      Meets T Q (xs.drop n) → Meets T Q xs

/-- A place at which the tokenizer waits can only be met at the end. -/
theorem Scans.meets_iff {T : Tokenizer α ω} {Q : List α → Prop} {xs rest : List α}
    {outs : List ω} (h : Scans T xs outs rest)
    (hQ : ∀ ys, ys.length ≤ xs.length → Q ys → T.next ys = .wait) : Meets T Q xs ↔ Q rest := by
  induction h with
  | wait hw =>
    constructor
    · intro hmeets
      cases hmeets with
      | here hQx => exact hQx
      | later ht => simp [hw] at ht
    · exact Meets.here
  | @take xs rest n out outs ht _ ih =>
    have hshort : (xs.drop n).length ≤ xs.length := by
      rw [List.length_drop]
      exact Nat.sub_le _ _
    have hrest := ih fun ys hys => hQ ys (Nat.le_trans hys hshort)
    constructor
    · intro hmeets
      cases hmeets with
      | here hQx =>
        have hw := hQ xs (Nat.le_refl _) hQx
        simp [hw] at ht
      | later ht' hmeets' =>
        rw [ht, Verdict.take.injEq] at ht'
        obtain ⟨rfl, -⟩ := ht'
        exact hrest.mp hmeets'
    · intro hQrest
      exact .later ht (hrest.mpr hQrest)

/-- Disjoint segments of `xs`, in order, that satisfy `P` with the successive
outputs. -/
inductive Found (P : List α → ω → Prop) : List α → List ω → Prop
  | nil {xs : List α} : Found P xs []
  | cons {gap seg rest : List α} {m : ω} {ms : List ω} : P seg m → Found P rest ms →
      Found P (gap ++ seg ++ rest) (m :: ms)

theorem Found.skip {P : List α → ω → Prop} {xs : List α} {ms : List ω} (gap : List α)
    (h : Found P xs ms) : Found P (gap ++ xs) ms := by
  cases h with
  | nil => exact .nil
  | @cons gap' seg rest m ms hP hrest =>
    rw [show gap ++ (gap' ++ seg ++ rest) = (gap ++ gap') ++ seg ++ rest by
      simp only [List.append_assoc]]
    exact .cons hP hrest

theorem Found.exists_segment {P : List α → ω → Prop} {xs : List α} {ms : List ω}
    (h : Found P xs ms) {m : ω} (hm : m ∈ ms) : ∃ seg, seg <:+: xs ∧ P seg m := by
  induction h with
  | nil => cases hm
  | @cons gap seg rest m' ms hP _ ih =>
    rcases List.mem_cons.mp hm with rfl | hm
    · exact ⟨seg, List.infix_append gap seg rest, hP⟩
    · obtain ⟨seg', hpart, hseg'⟩ := ih hm
      exact ⟨seg', hpart.trans (List.suffix_append _ rest).isInfix, hseg'⟩

/-- Each output of a scan comes from the token that emitted it. -/
theorem Scans.found {T : Tokenizer α ω} {P : List α → ω → Prop}
    (hP : ∀ xs n out, T.next xs = .take n out → out = [] ∨ ∃ m, out = [m] ∧ P (xs.take n) m)
    {xs rest : List α} {outs : List ω} (h : Scans T xs outs rest) : Found P xs outs := by
  induction h with
  | wait => exact .nil
  | @take xs rest n out outs ht _ ih =>
    rcases hP xs n out ht with rfl | ⟨m, rfl, hm⟩
    · rw [← List.take_append_drop n xs]
      exact ih.skip _
    · have hcons : Found P ([] ++ xs.take n ++ xs.drop n) (m :: outs) := .cons hm ih
      rw [List.nil_append, List.take_append_drop] at hcons
      exact hcons

end TcIpcCtrl.Tokens
