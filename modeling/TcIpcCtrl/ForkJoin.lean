import TcIpcCtrl.Runs

/-!
A main program that forks threads, clears their run flags and joins them, and the
resources that all of them use. A thread tests its flag before each pass through
its loop, and may be anywhere in it while the main program goes on. `Guarded` is a
check of the program text alone: what a thread needs is held when it is forked and
is released only behind its join. `Completes` is another: each join waits for a
thread whose flag has been cleared.
-/
namespace TcIpcCtrl.ForkJoin

open Runs

variable {ι ρ : Type*}

/-- The resources that the points of a thread touch: on entry, at the test of the run
flag, and in a pass through the loop. -/
structure Code (ι ρ : Type*) where
  entry : ι → List ρ
  test : ι → List ρ
  body : ι → List (List ρ)

def Code.needs (code : Code ι ρ) (i : ι) : List ρ :=
  code.entry i ++ code.test i ++ (code.body i).flatten

/-- An instruction of the main program. -/
inductive Instr (ι ρ : Type*)
  | acquire (r : ρ)
  | release (r : ρ)
  | touch (rs : List ρ)
  /-- the run flag is set before the thread is created -/
  | fork (i : ι)
  | clear (i : ι)
  | join (i : ι)
deriving DecidableEq

inductive Place
  | absent
  | entering
  | testing
  | inBody (n : ℕ)
  | done
deriving DecidableEq

def Place.runs : Place → Bool
  | .absent => false
  | .entering => true
  | .testing => true
  | .inBody _ => true
  | .done => false

structure State (ι ρ : Type*) where
  main : List (Instr ι ρ)
  held : List ρ
  flag : ι → Bool
  place : ι → Place

/-- A thread may leave its pass at any point. -/
inductive Event (ι : Type*)
  | main
  | thread (i : ι) (goOn : Bool)

def Code.touched (code : Code ι ρ) (i : ι) : Place → List ρ
  | .absent => []
  | .entering => code.entry i
  | .testing => code.test i
  | .inBody n => (code.body i).getD n []
  | .done => []

def Code.next (code : Code ι ρ) (i : ι) (flag goOn : Bool) : Place → Option Place
  | .absent => none
  | .entering => some .testing
  | .testing => some (if flag then .inBody 0 else .done)
  | .inBody n => some (if goOn ∧ n + 1 < (code.body i).length then .inBody (n + 1) else .testing)
  | .done => none

/-- What a step touches. -/
def touches (code : Code ι ρ) (s : State ι ρ) : Event ι → List ρ
  | .main =>
    match s.main with
    | .touch rs :: _ => rs
    | _ => []
  | .thread i _ => code.touched i (s.place i)

theorem next_runs {code : Code ι ρ} {i : ι} {flag goOn : Bool} {place place' : Place}
    (h : code.next i flag goOn place = some place') : place.runs = true := by
  cases place with
  | absent => cases h
  | done => cases h
  | entering => rfl
  | testing => rfl
  | inBody n => rfl

/-- All that a thread touches, wherever it is, is among its needs. -/
theorem touched_needs (code : Code ι ρ) (i : ι) (place : Place) {r : ρ}
    (hr : r ∈ code.touched i place) : place.runs = true ∧ r ∈ code.needs i := by
  cases place with
  | absent => cases hr
  | done => cases hr
  | entering => exact ⟨rfl, List.mem_append_left _ (List.mem_append_left _ hr)⟩
  | testing => exact ⟨rfl, List.mem_append_left _ (List.mem_append_right _ hr)⟩
  | inBody n =>
    refine ⟨rfl, List.mem_append_right _ ?_⟩
    rw [Code.touched, List.getD_eq_getElem?_getD] at hr
    cases hget : (code.body i)[n]? with
    | none =>
      rw [hget] at hr
      cases hr
    | some rs =>
      rw [hget] at hr
      exact List.mem_flatten.mpr ⟨rs, List.mem_of_getElem? hget, hr⟩

variable [DecidableEq ι] [DecidableEq ρ]

def State.at (s : State ι ρ) (i : ι) (place : Place) : State ι ρ :=
  { s with place := Function.update s.place i place }

def mainStep (s : State ι ρ) : Instr ι ρ → List (Instr ι ρ) → Option (State ι ρ)
  | .acquire r, rest => some { s with main := rest, held := r :: s.held }
  | .release r, rest => some { s with main := rest, held := s.held.filter (· ≠ r) }
  | .touch _, rest => some { s with main := rest }
  | .fork i, rest =>
    some { s with
      main := rest
      flag := Function.update s.flag i true
      place := Function.update s.place i .entering }
  | .clear i, rest => some { s with main := rest, flag := Function.update s.flag i false }
  | .join i, rest => if s.place i = .done then some { s with main := rest } else none

def step (code : Code ι ρ) (s : State ι ρ) : Event ι → Option (State ι ρ)
  | .main =>
    match s.main with
    | [] => none
    | instr :: rest => mainStep s instr rest
  | .thread i goOn => (code.next i (s.flag i) goOn (s.place i)).map fun place => s.at i place

def start (main : List (Instr ι ρ)) : State ι ρ :=
  { main := main, held := [], flag := fun _ => false, place := fun _ => .absent }

/-- Every step touches only what is held. -/
def TouchesHeld (code : Code ι ρ) (s : State ι ρ) : Prop :=
  ∀ e t, step code s e = some t → ∀ r ∈ touches code s e, r ∈ s.held

/-! Nothing is released under a running thread -/

/-- The program `main` keeps what the threads `live` and those it forks need. -/
def Guarded (code : Code ι ρ) : List ρ → List ι → List (Instr ι ρ) → Prop
  | _, _, [] => True
  | held, live, .acquire r :: main => Guarded code (r :: held) live main
  | held, live, .release r :: main =>
    (∀ i ∈ live, r ∉ code.needs i) ∧ Guarded code (held.filter (· ≠ r)) live main
  | held, live, .touch rs :: main => (∀ r ∈ rs, r ∈ held) ∧ Guarded code held live main
  | held, live, .fork i :: main =>
    (∀ r ∈ code.needs i, r ∈ held) ∧ Guarded code held (i :: live) main
  | held, live, .clear _ :: main => Guarded code held live main
  | held, live, .join i :: main => Guarded code held (live.filter (· ≠ i)) main

instance decidableGuarded (code : Code ι ρ) : (held : List ρ) → (live : List ι) →
    (main : List (Instr ι ρ)) → Decidable (Guarded code held live main)
  | _, _, [] => inferInstanceAs (Decidable True)
  | held, live, .acquire r :: main => decidableGuarded code (r :: held) live main
  | held, live, .release r :: main =>
    have := decidableGuarded code (held.filter (· ≠ r)) live main
    inferInstanceAs (Decidable (_ ∧ _))
  | held, live, .touch _ :: main =>
    have := decidableGuarded code held live main
    inferInstanceAs (Decidable (_ ∧ _))
  | held, live, .fork i :: main =>
    have := decidableGuarded code held (i :: live) main
    inferInstanceAs (Decidable (_ ∧ _))
  | held, live, .clear _ :: main => decidableGuarded code held live main
  | held, live, .join i :: main => decidableGuarded code held (live.filter (· ≠ i)) main

theorem guarded_touches {code : Code ι ρ} {held : List ρ} {live : List ι}
    {main : List (Instr ι ρ)} (rs : List ρ) (hrs : ∀ r ∈ rs, r ∈ held)
    (h : Guarded code held live main) (n : ℕ) :
    Guarded code held live (List.replicate n (.touch rs) ++ main) := by
  induction n with
  | zero => exact h
  | succ n ih => exact ⟨hrs, ih⟩

/-- The check has been passed as far as the main program has come. -/
structure Covered (code : Code ι ρ) (live : List ι) (s : State ι ρ) : Prop where
  guarded : Guarded code s.held live s.main
  lives : ∀ i, (s.place i).runs = true → i ∈ live
  needed : ∀ i ∈ live, ∀ r ∈ code.needs i, r ∈ s.held

theorem thread_covered {code : Code ι ρ} {live : List ι} {s t : State ι ρ}
    (hs : Covered code live s) {i : ι} {goOn : Bool}
    (h : step code s (.thread i goOn) = some t) : Covered code live t := by
  obtain ⟨place, hnext, rfl⟩ := Option.map_eq_some_iff.mp h
  refine ⟨hs.guarded, ?_, hs.needed⟩
  intro j hj
  by_cases hji : j = i
  · rw [hji]
    exact hs.lives i (next_runs hnext)
  · change (Function.update s.place i place j).runs = true at hj
    rw [Function.update_of_ne hji] at hj
    exact hs.lives j hj

theorem main_covered {code : Code ι ρ} {live : List ι} {s t : State ι ρ}
    (hs : Covered code live s) (h : step code s .main = some t) :
    ∃ live', Covered code live' t := by
  have hguarded := hs.guarded
  cases hmain : s.main with
  | nil =>
    rw [step, hmain] at h
    cases h
  | cons instr rest =>
    rw [hmain] at hguarded
    rw [step, hmain] at h
    cases instr with
    | acquire r =>
      rw [← Option.some.inj h]
      exact ⟨live, hguarded, hs.lives,
        fun i hi x hx => List.mem_cons_of_mem _ (hs.needed i hi x hx)⟩
    | release r =>
      rw [← Option.some.inj h]
      refine ⟨live, hguarded.2, hs.lives, ?_⟩
      intro i hi x hx
      refine List.mem_filter.mpr ⟨hs.needed i hi x hx, decide_eq_true ?_⟩
      rintro rfl
      exact hguarded.1 i hi hx
    | touch rs =>
      rw [← Option.some.inj h]
      exact ⟨live, hguarded.2, hs.lives, hs.needed⟩
    | fork i =>
      rw [← Option.some.inj h]
      refine ⟨i :: live, hguarded.2, ?_, ?_⟩
      · intro j hj
        by_cases hji : j = i
        · rw [hji]
          exact List.mem_cons_self
        · change (Function.update s.place i .entering j).runs = true at hj
          rw [Function.update_of_ne hji] at hj
          exact List.mem_cons_of_mem _ (hs.lives j hj)
      · intro j hj x hx
        rcases List.mem_cons.mp hj with rfl | hj
        · exact hguarded.1 x hx
        · exact hs.needed j hj x hx
    | clear i =>
      rw [← Option.some.inj h]
      exact ⟨live, hguarded, hs.lives, hs.needed⟩
    | join i =>
      simp only [mainStep] at h
      split_ifs at h with hdone
      rw [← Option.some.inj h]
      refine ⟨live.filter (· ≠ i), hguarded, ?_, ?_⟩
      · intro j hj
        refine List.mem_filter.mpr ⟨hs.lives j hj, decide_eq_true ?_⟩
        rintro rfl
        change (s.place j).runs = true at hj
        rw [hdone] at hj
        cases hj
      · intro j hj
        exact hs.needed j (List.mem_of_mem_filter hj)

theorem step_covered {code : Code ι ρ} {s t : State ι ρ} (hs : ∃ live, Covered code live s)
    {e : Event ι} (h : step code s e = some t) : ∃ live, Covered code live t := by
  obtain ⟨live, hs⟩ := hs
  cases e with
  | main => exact main_covered hs h
  | thread i goOn => exact ⟨live, thread_covered hs h⟩

theorem start_covered {code : Code ι ρ} {main : List (Instr ι ρ)} (h : Guarded code [] [] main) :
    Covered code [] (start main) where
  guarded := h
  lives i hi := by cases hi
  needed i hi := absurd hi List.not_mem_nil

theorem reach_covered {code : Code ι ρ} {main : List (Instr ι ρ)} (h : Guarded code [] [] main)
    {s : State ι ρ} (hs : Reach (step code) Free (start main) s) : ∃ live, Covered code live s :=
  hs.invariant (fun s => ∃ live, Covered code live s) ⟨[], start_covered h⟩
    fun _ _ _ hu _ hstep => step_covered hu hstep

theorem Covered.touchesHeld {code : Code ι ρ} {live : List ι} {s : State ι ρ}
    (hs : Covered code live s) : TouchesHeld code s := by
  intro e t _ r hr
  cases e with
  | main =>
    have hguarded := hs.guarded
    cases hmain : s.main with
    | nil => simp only [touches, hmain, List.not_mem_nil] at hr
    | cons instr rest =>
      rw [hmain] at hguarded
      cases instr with
      | touch rs =>
        simp only [touches, hmain] at hr
        exact hguarded.1 r hr
      | _ => simp only [touches, hmain, List.not_mem_nil] at hr
  | thread i goOn =>
    obtain ⟨hruns, hneeds⟩ := touched_needs code i (s.place i) hr
    exact hs.needed i (hs.lives i hruns) r hneeds

theorem guarded_touchesHeld {code : Code ι ρ} {main : List (Instr ι ρ)}
    (h : Guarded code [] [] main) {s : State ι ρ}
    (hs : Reach (step code) Free (start main) s) : TouchesHeld code s := by
  obtain ⟨live, hcovered⟩ := reach_covered h hs
  exact hcovered.touchesHeld

/-! The main program comes to its end -/

/-- Each join waits for a thread that has been forked, with its flag cleared since. -/
def Completes : List ι → List ι → List (Instr ι ρ) → Prop
  | _, _, [] => True
  | forked, cleared, .acquire _ :: main => Completes forked cleared main
  | forked, cleared, .release _ :: main => Completes forked cleared main
  | forked, cleared, .touch _ :: main => Completes forked cleared main
  | forked, cleared, .fork i :: main => Completes (i :: forked) (cleared.filter (· ≠ i)) main
  | forked, cleared, .clear i :: main => Completes forked (i :: cleared) main
  | forked, cleared, .join i :: main => i ∈ forked ∧ i ∈ cleared ∧ Completes forked cleared main

/-- What is held when the main program has come to its end. -/
def heldAfter : List ρ → List (Instr ι ρ) → List ρ
  | held, [] => held
  | held, .acquire r :: main => heldAfter (r :: held) main
  | held, .release r :: main => heldAfter (held.filter (· ≠ r)) main
  | held, .touch _ :: main => heldAfter held main
  | held, .fork _ :: main => heldAfter held main
  | held, .clear _ :: main => heldAfter held main
  | held, .join _ :: main => heldAfter held main

instance decidableCompletes : (forked cleared : List ι) → (main : List (Instr ι ρ)) →
    Decidable (Completes forked cleared main)
  | _, _, [] => inferInstanceAs (Decidable True)
  | forked, cleared, .acquire _ :: main => decidableCompletes forked cleared main
  | forked, cleared, .release _ :: main => decidableCompletes forked cleared main
  | forked, cleared, .touch _ :: main => decidableCompletes forked cleared main
  | forked, cleared, .fork i :: main =>
    decidableCompletes (i :: forked) (cleared.filter (· ≠ i)) main
  | forked, cleared, .clear i :: main => decidableCompletes forked (i :: cleared) main
  | forked, cleared, .join _ :: main =>
    have := decidableCompletes forked cleared main
    inferInstanceAs (Decidable (_ ∧ _ ∧ _))

structure Ending (forked cleared : List ι) (s : State ι ρ) : Prop where
  completes : Completes forked cleared s.main
  forked : ∀ i ∈ forked, s.place i ≠ .absent
  cleared : ∀ i ∈ cleared, s.flag i = false

/-- Steps that a thread with its flag cleared still takes at most. -/
def stepsLeft (code : Code ι ρ) (i : ι) : Place → ℕ
  | .absent => 0
  | .entering => 2
  | .testing => 1
  | .inBody n => (code.body i).length - n + 2
  | .done => 0

omit [DecidableEq ι] [DecidableEq ρ] in
theorem next_present {code : Code ι ρ} {i : ι} {flag goOn : Bool} {place place' : Place}
    (h : code.next i flag goOn place = some place') : place' ≠ .absent := by
  cases place with
  | absent => cases h
  | done => cases h
  | entering =>
    obtain rfl := Option.some.inj h
    decide
  | testing =>
    obtain rfl := Option.some.inj h
    cases flag <;> decide
  | inBody n =>
    rw [Code.next, Option.some.injEq] at h
    split_ifs at h <;> (rw [← h]; exact Place.noConfusion)

/-- What the next instruction leaves to be done. -/
theorem main_ending {code : Code ι ρ} {forked cleared : List ι} {s t : State ι ρ}
    (hs : Ending forked cleared s) (h : step code s .main = some t) :
    ∃ forked' cleared', Ending forked' cleared' t := by
  have hcompletes := hs.completes
  cases hmain : s.main with
  | nil =>
    rw [step, hmain] at h
    cases h
  | cons instr rest =>
    rw [hmain] at hcompletes
    rw [step, hmain] at h
    cases instr with
    | acquire r =>
      rw [← Option.some.inj h]
      exact ⟨forked, cleared, hcompletes, hs.forked, hs.cleared⟩
    | release r =>
      rw [← Option.some.inj h]
      exact ⟨forked, cleared, hcompletes, hs.forked, hs.cleared⟩
    | touch rs =>
      rw [← Option.some.inj h]
      exact ⟨forked, cleared, hcompletes, hs.forked, hs.cleared⟩
    | fork i =>
      rw [← Option.some.inj h]
      refine ⟨i :: forked, cleared.filter (· ≠ i), hcompletes, ?_, ?_⟩
      · intro j hj
        change Function.update s.place i .entering j ≠ .absent
        by_cases hji : j = i
        · rw [hji, Function.update_self]
          decide
        · rw [Function.update_of_ne hji]
          exact hs.forked j ((List.mem_cons.mp hj).resolve_left hji)
      · intro j hj
        obtain ⟨hcleared, hne⟩ := List.mem_filter.mp hj
        change Function.update s.flag i true j = false
        rw [Function.update_of_ne (of_decide_eq_true hne)]
        exact hs.cleared j hcleared
    | clear i =>
      rw [← Option.some.inj h]
      refine ⟨forked, i :: cleared, hcompletes, hs.forked, ?_⟩
      intro j hj
      change Function.update s.flag i false j = false
      by_cases hji : j = i
      · rw [hji, Function.update_self]
      · rw [Function.update_of_ne hji]
        exact hs.cleared j ((List.mem_cons.mp hj).resolve_left hji)
    | join i =>
      simp only [mainStep] at h
      split_ifs at h
      rw [← Option.some.inj h]
      exact ⟨forked, cleared, hcompletes.2.2, hs.forked, hs.cleared⟩

theorem thread_ending {code : Code ι ρ} {forked cleared : List ι} {s t : State ι ρ}
    (hs : Ending forked cleared s) {i : ι} {goOn : Bool}
    (h : step code s (.thread i goOn) = some t) : Ending forked cleared t := by
  obtain ⟨place, hnext, rfl⟩ := Option.map_eq_some_iff.mp h
  refine ⟨hs.completes, ?_, hs.cleared⟩
  intro j hj
  change Function.update s.place i place j ≠ .absent
  by_cases hji : j = i
  · rw [hji, Function.update_self]
    exact next_present hnext
  · rw [Function.update_of_ne hji]
    exact hs.forked j hj

theorem step_heldAfter {code : Code ι ρ} {s t : State ι ρ} {e : Event ι}
    (h : step code s e = some t) : heldAfter t.held t.main = heldAfter s.held s.main := by
  cases e with
  | thread i goOn =>
    obtain ⟨place, -, rfl⟩ := Option.map_eq_some_iff.mp h
    rfl
  | main =>
    cases hmain : s.main with
    | nil =>
      rw [step, hmain] at h
      cases h
    | cons instr rest =>
      rw [step, hmain] at h
      cases instr with
      | join i =>
        simp only [mainStep] at h
        split_ifs at h
        rw [← Option.some.inj h]
        rfl
      | _ =>
        rw [← Option.some.inj h]
        rfl

theorem reach_kept {code : Code ι ρ} {s t : State ι ρ} (hreach : Reach (step code) Free s t)
    (hs : ∃ forked cleared, Ending forked cleared s) :
    (∃ forked cleared, Ending forked cleared t) ∧
      heldAfter t.held t.main = heldAfter s.held s.main := by
  refine hreach.invariant (fun u => (∃ forked cleared, Ending forked cleared u) ∧
    heldAfter u.held u.main = heldAfter s.held s.main) ⟨hs, rfl⟩ ?_
  rintro u e v ⟨⟨forked, cleared, hu⟩, hheld⟩ - hstep
  refine ⟨?_, (step_heldAfter hstep).trans hheld⟩
  cases e with
  | main => exact main_ending hu hstep
  | thread i goOn => exact ⟨forked, cleared, thread_ending hu hstep⟩

end TcIpcCtrl.ForkJoin
