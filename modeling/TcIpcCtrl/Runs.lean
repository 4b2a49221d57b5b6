import Mathlib.Algebra.GroupWithZero.Nat
import Mathlib.Data.List.Infix
import Mathlib.Tactic.TypeStar

/-!
Runs of a partial step function. `step s e` is `none` when event `e` cannot
happen in state `s`. A property of every run is proved from one step lemma; a
property that holds only when every step meets a condition is stated on
`Reach`, and `visits_iff_takes` says when that condition is exact.
-/
namespace TcIpcCtrl.Runs

variable {σ ε : Type*}

/-- Play the events in order; `none` when one of them is not enabled. -/
def runFrom (step : σ → ε → Option σ) (s : σ) : List ε → Option σ
  | [] => some s
  | e :: es => (step s e).bind fun t => runFrom step t es

theorem runFrom_append (step : σ → ε → Option σ) (s : σ) (es fs : List ε) :
    runFrom step s (es ++ fs) = (runFrom step s es).bind fun t => runFrom step t fs := by
  induction es generalizing s with
  | nil => rfl
  | cons e es ih =>
    cases h : step s e with
    | none => simp [runFrom, h]
    | some t => simp [runFrom, h, ih]

theorem runFrom_singleton (step : σ → ε → Option σ) (s : σ) (e : ε) :
    runFrom step s [e] = step s e := by
  simp [runFrom]

/-- States reached from `s` by steps that all meet `C`. -/
inductive Reach (step : σ → ε → Option σ) (C : σ → ε → Prop) (s : σ) : σ → Prop
  | refl : Reach step C s s
  | tail {t u : σ} {e : ε} : Reach step C s t → C t e → step t e = some u → Reach step C s u

/-- No condition on the steps. -/
abbrev Free : σ → ε → Prop := fun _ _ => True

theorem Reach.invariant {step : σ → ε → Option σ} {C : σ → ε → Prop} {s : σ}
    (I : σ → Prop) (h₀ : I s)
    (hstep : ∀ t e u, I t → C t e → step t e = some u → I u)
    {t : σ} (h : Reach step C s t) : I t := by
  induction h with
  | refl => exact h₀
  | tail _ hC hs ih => exact hstep _ _ _ ih hC hs

theorem Reach.trans {step : σ → ε → Option σ} {C : σ → ε → Prop} {s t u : σ}
    (h : Reach step C s t) (h' : Reach step C t u) : Reach step C s u := by
  induction h' with
  | refl => exact h
  | tail _ hC hs ih => exact .tail ih hC hs

theorem Reach.mono {step : σ → ε → Option σ} {C D : σ → ε → Prop} {s t : σ}
    (hCD : ∀ t e, C t e → D t e) (h : Reach step C s t) : Reach step D s t := by
  induction h with
  | refl => exact .refl
  | tail _ hC hs ih => exact .tail ih (hCD _ _ hC) hs

/-- When each step that meets `C` is a step that meets `D` of a related system, or
none at all, every state reached has a related one. -/
theorem Reach.simulates {τ δ : Type*} {step : σ → ε → Option σ} {C : σ → ε → Prop}
    {step' : τ → δ → Option τ} {D : τ → δ → Prop} (R : σ → τ → Prop) {s t : σ} {a : τ}
    (h₀ : R s a)
    (hstep : ∀ t e u b, R t b → C t e → step t e = some u →
      R u b ∨ ∃ d c, D b d ∧ step' b d = some c ∧ R u c)
    (h : Reach step C s t) : ∃ b, Reach step' D a b ∧ R t b := by
  induction h with
  | refl => exact ⟨a, .refl, h₀⟩
  | tail _ hC hs ih =>
    obtain ⟨b, hreach, hb⟩ := ih
    rcases hstep _ _ _ b hb hC hs with hstutter | ⟨d, c, hD, hstep', hc⟩
    · exact ⟨b, hreach, hstutter⟩
    · exact ⟨c, .tail hreach hD hstep', hc⟩

/-- When only calls give something out, what a run has given out is what its calls have,
each after what the ones before it have. -/
theorem Reach.calls {ω κ : Type*} {step : σ → ε → Option σ} {C : σ → ε → Prop} {s t : σ}
    {f : σ → List ω} {g : κ → List ω} {Q : σ → σ → κ → Prop} (h₀ : f s = [])
    (hstep : ∀ u e v, Reach step C s u → C u e → step u e = some v →
      f v = f u ∨ ∃ c, Q u v c ∧ f v = f u ++ g c)
    (h : Reach step C s t) :
    ∃ cs : List κ, f t = cs.flatMap g ∧ ∀ front c back, cs = front ++ c :: back →
      ∃ u v, Reach step C s u ∧ f u = front.flatMap g ∧ Q u v c ∧ Reach step C v t := by
  induction h with
  | refl =>
    refine ⟨[], h₀, fun front c back hcs => ?_⟩
    exact absurd hcs.symm (by simp)
  | @tail t u e hreach hC hs ih =>
    obtain ⟨cs, hcs, hmade⟩ := ih
    have hearlier : ∀ front c back, cs = front ++ c :: back →
        ∃ x y, Reach step C s x ∧ f x = front.flatMap g ∧ Q x y c ∧ Reach step C y u := by
      intro front c back hsplit
      obtain ⟨x, y, hx, hfx, hQ, hy⟩ := hmade front c back hsplit
      exact ⟨x, y, hx, hfx, hQ, .tail hy hC hs⟩
    rcases hstep t e u hreach hC hs with hsame | ⟨c, hQ, hmore⟩
    · exact ⟨cs, hsame.trans hcs, hearlier⟩
    · refine ⟨cs ++ [c], ?_, fun front d back hsplit => ?_⟩
      · rw [hmore, hcs, List.flatMap_append, List.flatMap_singleton]
      · rcases List.eq_nil_or_concat back with rfl | ⟨back, d', rfl⟩
        · obtain ⟨rfl, hlast⟩ := List.append_inj' hsplit rfl
          obtain ⟨rfl, -⟩ := List.cons.inj hlast
          exact ⟨t, u, hreach, hcs, hQ, .refl⟩
        · rw [List.concat_eq_append, ← List.cons_append, ← List.append_assoc] at hsplit
          exact hearlier front d back (List.append_inj' hsplit rfl).1

theorem reach_of_runFrom {step : σ → ε → Option σ} {s t : σ} (es : List ε)
    (h : runFrom step s es = some t) : Reach step Free s t := by
  induction es generalizing s with
  | nil =>
    obtain rfl : s = t := Option.some.inj h
    exact .refl
  | cons e es ih =>
    obtain ⟨u, hu, hrest⟩ := Option.bind_eq_some_iff.mp h
    exact Reach.trans (.tail .refl trivial hu) (ih hrest)

/-- The step function cut down to the steps that meet `C`. -/
def guarded (step : σ → ε → Option σ) (C : σ → ε → Prop) [∀ s e, Decidable (C s e)] (s : σ)
    (e : ε) : Option σ :=
  if C s e then step s e else none

theorem reach_of_guarded {step : σ → ε → Option σ} {C : σ → ε → Prop}
    [∀ s e, Decidable (C s e)] {s t : σ} (es : List ε)
    (h : runFrom (guarded step C) s es = some t) : Reach step C s t := by
  induction es generalizing s with
  | nil =>
    obtain rfl : s = t := Option.some.inj h
    exact .refl
  | cons e es ih =>
    obtain ⟨u, hu, hrest⟩ := Option.bind_eq_some_iff.mp h
    by_cases hC : C s e
    · rw [guarded, if_pos hC] at hu
      exact Reach.trans (.tail .refl hC hu) (ih hrest)
    · rw [guarded, if_neg hC] at hu
      cases hu

/-- When each step that meets `C` lowers a variant by one, what it is at the end tells
how long the run was. -/
theorem length_add_variant {step : σ → ε → Option σ} {C : σ → ε → Prop}
    [∀ s e, Decidable (C s e)] (I : σ → Prop) (variant : σ → ℕ)
    (hstep : ∀ s e t, I s → C s e → step s e = some t → I t ∧ variant t + 1 = variant s)
    {s t : σ} (hI : I s) (es : List ε) (h : runFrom (guarded step C) s es = some t) :
    I t ∧ es.length + variant t = variant s := by
  induction es generalizing s with
  | nil =>
    obtain rfl : s = t := Option.some.inj h
    exact ⟨hI, Nat.zero_add _⟩
  | cons e es ih =>
    obtain ⟨u, hu, hrest⟩ := Option.bind_eq_some_iff.mp h
    by_cases hC : C s e
    · rw [guarded, if_pos hC] at hu
      obtain ⟨hIu, hone⟩ := hstep s e u hI hC hu
      obtain ⟨hIt, hlen⟩ := ih hIu hrest
      refine ⟨hIt, ?_⟩
      rw [List.length_cons]
      omega
    · rw [guarded, if_neg hC] at hu
      cases hu

/-- When each step that meets `C` lowers a variant, a run of such steps is no longer
than the variant at its start. -/
theorem length_le_of_variant {step : σ → ε → Option σ} {C : σ → ε → Prop}
    [∀ s e, Decidable (C s e)] (I : σ → Prop) (variant : σ → ℕ)
    (hstep : ∀ s e t, I s → C s e → step s e = some t → I t ∧ variant t < variant s)
    {s t : σ} (hI : I s) (es : List ε) (h : runFrom (guarded step C) s es = some t) :
    I t ∧ es.length + variant t ≤ variant s := by
  induction es generalizing s with
  | nil =>
    obtain rfl : s = t := Option.some.inj h
    exact ⟨hI, Nat.le_of_eq (Nat.zero_add _)⟩
  | cons e es ih =>
    obtain ⟨u, hu, hrest⟩ := Option.bind_eq_some_iff.mp h
    by_cases hC : C s e
    · rw [guarded, if_pos hC] at hu
      obtain ⟨hIu, hlt⟩ := hstep s e u hI hC hu
      obtain ⟨hIt, hle⟩ := ih hIu hrest
      refine ⟨hIt, ?_⟩
      rw [List.length_cons]
      omega
    · rw [guarded, if_neg hC] at hu
      cases hu

/-- What the events of a run give out, in order. -/
def emitted {ω : Type*} (step : σ → ε → Option σ) (out : σ → ε → List ω) (s : σ) :
    List ε → List ω
  | [] => []
  | e :: es => out s e ++ ((step s e).map fun t => emitted step out t es).getD []

theorem emitted_cons {ω : Type*} {step : σ → ε → Option σ} {out : σ → ε → List ω} {s t : σ}
    {e : ε} (h : step s e = some t) (es : List ε) :
    emitted step out s (e :: es) = out s e ++ emitted step out t es := by
  rw [emitted, h, Option.map_some, Option.getD_some]

/-- What the events of a run cost together. -/
def total (step : σ → ε → Option σ) (cost : σ → ε → ℕ) (s : σ) : List ε → ℕ
  | [] => 0
  | e :: es => cost s e + ((step s e).map fun t => total step cost t es).getD 0

/-- When each step pays its cost from a balance, from what it earns and from a grant
for its event, so does a whole run. -/
theorem total_paid {step : σ → ε → Option σ} {cost : σ → ε → ℕ} {balance earned : σ → ℕ}
    {grant : ε → ℕ} (I : σ → Prop)
    (hstep : ∀ s e t, I s → step s e = some t →
      I t ∧ cost s e + balance t + earned s ≤ balance s + earned t + grant e)
    {s t : σ} (hs : I s) (es : List ε) (h : runFrom step s es = some t) :
    total step cost s es + balance t + earned s ≤
      balance s + earned t + (es.map grant).sum := by
  induction es generalizing s with
  | nil =>
    obtain rfl : s = t := Option.some.inj h
    simp only [total, List.map_nil, List.sum_nil]
    omega
  | cons e es ih =>
    obtain ⟨u, hu, hrest⟩ := Option.bind_eq_some_iff.mp h
    obtain ⟨hIu, hpaid⟩ := hstep s e u hs hu
    have htail := ih hIu hrest
    rw [total, hu, Option.map_some, Option.getD_some, List.map_cons, List.sum_cons]
    omega

/-- The run `es` from `s` passes through `t`. -/
def Visits (step : σ → ε → Option σ) (s : σ) (es : List ε) (t : σ) : Prop :=
  ∃ pre, pre <+: es ∧ runFrom step s pre = some t

/-- The run `es` from `s` does event `e` in state `t`. -/
def Takes (step : σ → ε → Option σ) (s : σ) (es : List ε) (t : σ) (e : ε) : Prop :=
  ∃ pre, pre ++ [e] <+: es ∧ runFrom step s pre = some t

/-- A run that can be played to its end can be played up to each event. -/
theorem runFrom_prefix {step : σ → ε → Option σ} {s t : σ} {pre es : List ε}
    (hpre : pre <+: es) (h : runFrom step s es = some t) :
    ∃ u, runFrom step s pre = some u := by
  obtain ⟨rest, rfl⟩ := hpre
  rw [runFrom_append] at h
  obtain ⟨u, hu, _⟩ := Option.bind_eq_some_iff.mp h
  exact ⟨u, hu⟩

/-- When a step from a good state leads to a good state exactly if it meets `C`,
a whole run stays good exactly if all of its steps meet `C`. `I` is what every
step keeps, good or not. -/
theorem visits_iff_takes {step : σ → ε → Option σ} {s t : σ} (I P : σ → Prop)
    (C : σ → ε → Prop) (hI₀ : I s) (hP₀ : P s)
    (hI : ∀ t e u, I t → step t e = some u → I u)
    (hstep : ∀ t e u, I t → P t → step t e = some u → (P u ↔ C t e))
    (es : List ε) (hrun : runFrom step s es = some t) :
    (∀ u, Visits step s es u → P u) ↔ ∀ u e, Takes step s es u e → C u e := by
  have hinv : ∀ pre u, runFrom step s pre = some u → I u := fun pre u hu =>
    Reach.invariant I hI₀ (fun _ _ _ h _ hs => hI _ _ _ h hs) (reach_of_runFrom pre hu)
  constructor
  · rintro hgood u e ⟨pre, hpre, hu⟩
    obtain ⟨v, hv⟩ := runFrom_prefix hpre hrun
    have hs : step u e = some v := by
      simpa [runFrom_append, hu, runFrom_singleton] using hv
    have hPu : P u := hgood u ⟨pre, (List.prefix_append pre [e]).trans hpre, hu⟩
    exact (hstep u e v (hinv pre u hu) hPu hs).mp (hgood v ⟨_, hpre, hv⟩)
  · rintro hmeets u ⟨pre, hpre, hu⟩
    -- The prefix is read from its end, so that its last event is the last step.
    induction pre using List.reverseRecOn generalizing u with
    | nil =>
      obtain rfl : s = u := Option.some.inj hu
      exact hP₀
    | append_singleton pre e ih =>
      have hpre' : pre <+: es := (List.prefix_append pre [e]).trans hpre
      obtain ⟨v, hv⟩ := runFrom_prefix hpre' hrun
      have hs : step v e = some u := by
        simpa [runFrom_append, hv, runFrom_singleton] using hu
      exact (hstep v e u (hinv pre v hv) (ih v hpre' hv) hs).mpr
        (hmeets v e ⟨pre, hpre, hv⟩)

end TcIpcCtrl.Runs
