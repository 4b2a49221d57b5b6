import Mathlib.Algebra.GroupWithZero.Nat
import Mathlib.Data.List.Basic
import Mathlib.Tactic.TypeStar

/-!
While loops whose body may stop the loop and emits outputs. `loop` runs a
number of passes and is `none` when they do not suffice; `Ends` is the loop
without a bound, and a variant gives a number of passes that suffices.
-/
namespace TcIpcCtrl.WhileLoop

variable {σ ω τ : Type*}

/-- What one pass through the loop body leaves. -/
structure Pass (σ ω : Type*) where
  state : σ
  stop : Bool
  out : List ω

def loop (guard : σ → Bool) (body : σ → Pass σ ω) : ℕ → σ → Option (σ × List ω)
  | 0, _ => none
  | n + 1, s =>
    if guard s then
      if (body s).stop then some ((body s).state, (body s).out)
      else (loop guard body n (body s).state).map fun r => (r.1, (body s).out ++ r.2)
    else some (s, [])

/-- The loop started in `s` emits `out` and is left in `t`. -/
inductive Ends (guard : σ → Bool) (body : σ → Pass σ ω) : σ → List ω → σ → Prop
  | exit {s : σ} : guard s = false → Ends guard body s [] s
  | stop {s : σ} : guard s = true → (body s).stop = true →
      Ends guard body s (body s).out (body s).state
  | again {s t : σ} {out : List ω} : guard s = true → (body s).stop = false →
      Ends guard body (body s).state out t → Ends guard body s ((body s).out ++ out) t

/-- The loop started in `s` comes back to its head in `t`. -/
inductive Passes (guard : σ → Bool) (body : σ → Pass σ ω) (s : σ) : σ → Prop
  | refl : Passes guard body s s
  | tail {t : σ} : Passes guard body s t → guard t = true → (body t).stop = false →
      Passes guard body s (body t).state

/-- The loop started in `s` comes back to its head in `t`, having emitted `out`. -/
inductive Leads (guard : σ → Bool) (body : σ → Pass σ ω) : σ → List ω → σ → Prop
  | refl {s : σ} : Leads guard body s [] s
  | head {s t : σ} {out : List ω} : guard s = true → (body s).stop = false →
      Leads guard body (body s).state out t → Leads guard body s ((body s).out ++ out) t

variable {guard : σ → Bool} {body : σ → Pass σ ω}

theorem loop_sound {n : ℕ} {s t : σ} {out : List ω} (h : loop guard body n s = some (t, out)) :
    Ends guard body s out t := by
  induction n generalizing s t out with
  | zero => simp [loop] at h
  | succ n ih =>
    cases hg : guard s with
    | false =>
      obtain ⟨rfl, rfl⟩ : s = t ∧ out = [] := by simpa [loop, hg, eq_comm] using h
      exact .exit hg
    | true =>
      cases hs : (body s).stop with
      | true =>
        obtain ⟨rfl, rfl⟩ : (body s).state = t ∧ (body s).out = out := by
          simpa [loop, hg, hs] using h
        exact .stop hg hs
      | false =>
        simp only [loop, hg, hs, if_true, Bool.false_eq_true, if_false,
          Option.map_eq_some_iff, Prod.mk.injEq] at h
        obtain ⟨⟨u, rest⟩, hrest, rfl, rfl⟩ := h
        exact .again hg hs (ih hrest)

theorem Ends.det {s t t' : σ} {out out' : List ω} (h : Ends guard body s out t)
    (h' : Ends guard body s out' t') : out = out' ∧ t = t' := by
  induction h generalizing out' t' with
  | exit hg =>
    cases h' with
    | exit => exact ⟨rfl, rfl⟩
    | stop hg' => simp [hg] at hg'
    | again hg' => simp [hg] at hg'
  | stop hg hs =>
    cases h' with
    | exit hg' => simp [hg] at hg'
    | stop => exact ⟨rfl, rfl⟩
    | again _ hs' => simp [hs] at hs'
  | again hg hs _ ih =>
    cases h' with
    | exit hg' => simp [hg] at hg'
    | stop _ hs' => simp [hs] at hs'
    | again _ _ hrest =>
      obtain ⟨rfl, rfl⟩ := ih hrest
      exact ⟨rfl, rfl⟩

/-- A state that a pass leaves as it is keeps the loop from ending. -/
theorem not_ends_of_fixed {s t : σ} {out : List ω} (hg : guard s = true)
    (hstop : (body s).stop = false) (hfix : (body s).state = s) : ¬ Ends guard body s out t := by
  intro h
  induction h with
  | exit hexit =>
    rw [hg] at hexit
    cases hexit
  | stop _ hstopped =>
    rw [hstop] at hstopped
    cases hstopped
  | again _ _ _ ih =>
    rw [hfix] at ih
    exact ih hg hstop hfix

section Variant

variable {I : σ → Prop} {μ : σ → ℕ}

/-- A variant that decreases in every pass that does not stop bounds the number
of passes. -/
theorem loop_terminates
    (hpass : ∀ s, I s → guard s = true → (body s).stop = false →
      I (body s).state ∧ μ (body s).state < μ s)
    {n : ℕ} {s : σ} (hs : I s) (hn : μ s < n) : ∃ r, loop guard body n s = some r := by
  induction n generalizing s with
  | zero => omega
  | succ n ih =>
    cases hg : guard s with
    | false => exact ⟨(s, []), by simp [loop, hg]⟩
    | true =>
      cases hstop : (body s).stop with
      | true => exact ⟨((body s).state, (body s).out), by simp [loop, hg, hstop]⟩
      | false =>
        obtain ⟨hI, hμ⟩ := hpass s hs hg hstop
        obtain ⟨r, hr⟩ := ih hI (by omega)
        exact ⟨(r.1, (body s).out ++ r.2), by simp [loop, hg, hstop, hr]⟩

theorem Ends.loop_eq
    (hpass : ∀ s, I s → guard s = true → (body s).stop = false →
      I (body s).state ∧ μ (body s).state < μ s)
    {n : ℕ} {s t : σ} {out : List ω} (h : Ends guard body s out t) (hs : I s) (hn : μ s < n) :
    loop guard body n s = some (t, out) := by
  obtain ⟨⟨t', out'⟩, hr⟩ := loop_terminates hpass hs hn
  obtain ⟨rfl, rfl⟩ := h.det (loop_sound hr)
  exact hr

end Variant

theorem Passes.invariant {I : σ → Prop} {s t : σ} (hs : I s)
    (hpass : ∀ s, I s → guard s = true → (body s).stop = false → I (body s).state)
    (h : Passes guard body s t) : I t := by
  induction h with
  | refl => exact hs
  | tail _ hg hstop ih => exact hpass _ ih hg hstop

theorem Passes.head {s t : σ} (hg : guard s = true) (hstop : (body s).stop = false)
    (h : Passes guard body (body s).state t) : Passes guard body s t := by
  induction h with
  | refl => exact .tail .refl hg hstop
  | tail _ hg' hstop' ih => exact .tail ih hg' hstop'

/-! Stretches of a loop -/

theorem Leads.trans {s t u : σ} {out more : List ω} (h : Leads guard body s out t)
    (h' : Leads guard body t more u) : Leads guard body s (out ++ more) u := by
  induction h with
  | refl => exact h'
  | head hg hstop _ ih =>
    rw [List.append_assoc]
    exact .head hg hstop (ih h')

theorem Leads.ends {s t u : σ} {out more : List ω} (h : Leads guard body s out t)
    (h' : Ends guard body t more u) : Ends guard body s (out ++ more) u := by
  induction h with
  | refl => exact h'
  | head hg hstop _ ih =>
    rw [List.append_assoc]
    exact .again hg hstop (ih h')

theorem Leads.passes {s t : σ} {out : List ω} (h : Leads guard body s out t) :
    Passes guard body s t := by
  induction h with
  | refl => exact .refl
  | head hg hstop _ ih => exact ih.head hg hstop

/-- A loop is left either because its guard fails or because a pass stops it. -/
theorem Ends.last {s t : σ} {out : List ω} (h : Ends guard body s out t) :
    ∃ u, Passes guard body s u ∧
      ((guard u = false ∧ t = u) ∨
        (guard u = true ∧ (body u).stop = true ∧ t = (body u).state)) := by
  induction h with
  | exit hg => exact ⟨_, .refl, Or.inl ⟨hg, rfl⟩⟩
  | stop hg hs => exact ⟨_, .refl, Or.inr ⟨hg, hs, rfl⟩⟩
  | again hg hs _ ih =>
    obtain ⟨u, hu, hlast⟩ := ih
    exact ⟨u, hu.head hg hs, hlast⟩

/-- When each pass can be taken from a related state as well, save one that stops
the loop, the related state follows to where the loop was left. -/
theorem Ends.follow {R : σ → σ → Prop}
    (hpass : ∀ s u, R s u → guard s = true → (body s).stop = false →
      guard u = true ∧ (body u).stop = false ∧ (body u).out = (body s).out ∧
        R (body s).state (body u).state)
    (hlast : ∀ s u, R s u → guard s = true → (body s).stop = true →
      (body s).out = [] ∧ R (body s).state u)
    {s t u : σ} {out : List ω} (h : Ends guard body s out t) (hR : R s u) :
    ∃ v, Leads guard body u out v ∧ R t v := by
  induction h generalizing u with
  | exit => exact ⟨u, .refl, hR⟩
  | stop hg hs =>
    obtain ⟨hout, hnext⟩ := hlast _ u hR hg hs
    rw [hout]
    exact ⟨u, .refl, hnext⟩
  | again hg hs _ ih =>
    obtain ⟨hgu, hsu, hout, hnext⟩ := hpass _ u hR hg hs
    obtain ⟨v, hleads, hv⟩ := ih hnext
    rw [← hout]
    exact ⟨v, .head hgu hsu hleads, hv⟩

/-- Each output was emitted by one of the passes. -/
theorem Ends.mem_out {s t : σ} {out : List ω} {m : ω} (h : Ends guard body s out t)
    (hm : m ∈ out) : ∃ u, Passes guard body s u ∧ guard u = true ∧ m ∈ (body u).out := by
  induction h with
  | exit => cases hm
  | stop hg _ => exact ⟨_, .refl, hg, hm⟩
  | again hg hs _ ih =>
    rcases List.mem_append.mp hm with hm | hm
    · exact ⟨_, .refl, hg, hm⟩
    · obtain ⟨u, hu, hgu, hmu⟩ := ih hm
      exact ⟨u, hu.head hg hs, hgu, hmu⟩

/-- The loop that emits something else in each pass. -/
def retag (body : σ → Pass σ ω) (emit : σ → List τ) (s : σ) : Pass σ τ :=
  { state := (body s).state, stop := (body s).stop, out := emit s }

theorem Ends.retag {s t : σ} {out : List ω} (h : Ends guard body s out t) (emit : σ → List τ) :
    ∃ out', Ends guard (retag body emit) s out' t := by
  induction h with
  | exit hg => exact ⟨[], .exit hg⟩
  | stop hg hs => exact ⟨_, .stop hg hs⟩
  | again hg hs _ ih =>
    obtain ⟨out', hout'⟩ := ih
    exact ⟨_, .again hg hs hout'⟩

/-- What a loop emits is paid from a balance when each pass can pay for its own part;
the pass that stops the loop may owe `last`. -/
theorem Ends.paid {I : σ → Prop} {balance : σ → ℕ} {price : ω → ℕ} {last : ℕ}
    (hpass : ∀ s, I s → guard s = true → (body s).stop = false →
      I (body s).state ∧ ((body s).out.map price).sum + balance (body s).state ≤ balance s)
    (hlast : ∀ s, I s → guard s = true → (body s).stop = true →
      ((body s).out.map price).sum + balance (body s).state ≤ balance s + last)
    {s t : σ} {out : List ω} (h : Ends guard body s out t) (hs : I s) :
    (out.map price).sum + balance t ≤ balance s + last := by
  induction h with
  | exit =>
    rw [List.map_nil, List.sum_nil]
    omega
  | stop hg hstop => exact hlast _ hs hg hstop
  | again hg hstop _ ih =>
    obtain ⟨hI, hpaid⟩ := hpass _ hs hg hstop
    have hrest := ih hI
    rw [List.map_append, List.sum_append]
    omega

end TcIpcCtrl.WhileLoop
