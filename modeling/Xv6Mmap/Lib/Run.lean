import Mathlib.Logic.Basic

/-!
# Guarded runs

A transition function that can fail, the runs it makes over a list of actions (`run`), and runs
whose every action meets a condition on the state it is taken in (`Guarded`). An invariant that
every guarded step keeps holds after every guarded run (`run_invariant`), and what every guarded
step does holds along every guarded run (`along_of_guarded`). A step that does what a function does
to what the state stands for gives runs that do what the function does over the list (`run_refines`).
-/

namespace Xv6Mmap.Lib

variable {σ α ε : Type}

section Guard

variable {β : Type} {c : Prop} [Decidable c] {x : Except ε β} {e : ε} {b : β}

/-- What an action did whose guard was checked first. -/
theorem ok_of_guard (h : (if c then x else .error e) = .ok b) : c ∧ x = .ok b := by
  split at h
  · exact ⟨‹_›, h⟩
  · cases h

end Guard

/-- Take the actions in order, up to the first that fails. -/
def run (step : σ → α → Except ε σ) : σ → List α → Except ε σ
  | s, [] => .ok s
  | s, a :: as =>
    match step s a with
    | .error e => .error e
    | .ok s' => run step s' as

/-- Each action of the run that is reached is taken where `ok` allows it. -/
def Guarded (step : σ → α → Except ε σ) (ok : σ → α → Prop) : σ → List α → Prop
  | _, [] => True
  | s, a :: as =>
    ok s a ∧
      match step s a with
      | .error _ => True
      | .ok s' => Guarded step ok s' as

variable {step : σ → α → Except ε σ} {ok : σ → α → Prop}

instance Guarded.decidable [∀ s a, Decidable (ok s a)] :
    ∀ s as, Decidable (Guarded step ok s as)
  | _, [] => isTrue trivial
  | s, a :: as =>
    @instDecidableAnd (ok s a)
      (match step s a with
        | .error _ => True
        | .ok s' => Guarded step ok s' as) inferInstance
      (match step s a with
        | .error _ => isTrue trivial
        | .ok s' => Guarded.decidable s' as)

variable {s t : σ} {as : List α}

theorem run_cons {a : α} :
    run step s (a :: as) = .ok t ↔ ∃ s', step s a = .ok s' ∧ run step s' as = .ok t := by
  rw [run]
  cases step s a with
  | error e => simp
  | ok s' => simp

theorem run_append {bs : List α} :
    run step s (as ++ bs) = .ok t ↔ ∃ u, run step s as = .ok u ∧ run step u bs = .ok t := by
  induction as generalizing s with
  | nil => simp [run]
  | cons a as ih =>
    rw [List.cons_append, run_cons]
    constructor
    · rintro ⟨s', hs', hr⟩
      obtain ⟨u, hu, hr⟩ := ih.mp hr
      exact ⟨u, run_cons.mpr ⟨s', hs', hu⟩, hr⟩
    · rintro ⟨u, hu, hr⟩
      obtain ⟨s', hs', hu⟩ := run_cons.mp hu
      exact ⟨s', hs', ih.mpr ⟨u, hu, hr⟩⟩

theorem guarded_cons {s' : σ} {a : α} (h : step s a = .ok s') :
    Guarded step ok s (a :: as) ↔ ok s a ∧ Guarded step ok s' as := by
  rw [Guarded, h]

theorem guarded_of_forall (h : ∀ s a, ok s a) : ∀ s as, Guarded step ok s as
  | _, [] => trivial
  | s, a :: as => by
    refine ⟨h s a, ?_⟩
    cases step s a with
    | error e => trivial
    | ok s' => exact guarded_of_forall h s' as

/-- **The invariant rule**: what every allowed step keeps, every allowed run keeps. -/
theorem run_invariant (inv : σ → Prop)
    (hstep : ∀ s a s', inv s → ok s a → step s a = .ok s' → inv s') :
    ∀ {s t : σ} {as : List α}, inv s → Guarded step ok s as → run step s as = .ok t → inv t
  | s, t, [], hs, _, hr => by
    cases hr
    exact hs
  | s, t, a :: as, hs, hg, hr => by
    obtain ⟨s', hs', hr'⟩ := run_cons.mp hr
    obtain ⟨ha, hg'⟩ := (guarded_cons hs').mp hg
    exact run_invariant inv hstep (hstep s a s' hs ha hs') hg' hr'

/-- What every allowed step returns in and keeps, every allowed run returns in and keeps. -/
theorem run_total (inv : σ → Prop)
    (hstep : ∀ s a, inv s → ok s a → ∃ s', step s a = .ok s' ∧ inv s') :
    ∀ {s : σ} {as : List α}, inv s → Guarded step ok s as → ∃ t, run step s as = .ok t ∧ inv t
  | s, [], hs, _ => ⟨s, rfl, hs⟩
  | s, a :: as, hs, hg => by
    obtain ⟨s', hs', hinv⟩ := hstep s a hs hg.1
    obtain ⟨t, ht, htinv⟩ := run_total inv hstep hinv ((guarded_cons hs').mp hg).2
    exact ⟨t, run_cons.mpr ⟨s', hs', ht⟩, htinv⟩

/-- **The refinement rule**: if every allowed step returns and does what the function `astep` does to
what it stands for, every allowed run returns and does what `astep` does over the whole list. -/
theorem run_refines {τ : Type} {astep : τ → α → τ} (R : σ → τ → Prop)
    (hstep : ∀ s A a, R s A → ok s a → ∃ s', step s a = .ok s' ∧ R s' (astep A a)) :
    ∀ {s : σ} {A : τ} {as : List α}, R s A → Guarded step ok s as →
      ∃ t, run step s as = .ok t ∧ R t (as.foldl astep A)
  | s, _, [], hs, _ => ⟨s, rfl, hs⟩
  | s, A, a :: as, hs, hg => by
    obtain ⟨s', hs', hR⟩ := hstep s A a hs hg.1
    obtain ⟨t, ht, hRt⟩ := run_refines R hstep hR ((guarded_cons hs').mp hg).2
    exact ⟨t, run_cons.mpr ⟨s', hs', ht⟩, hRt⟩

/-- What an invariant says about the next action holds of every action of an allowed run, whether
it fails or not. -/
theorem guarded_of_invariant (inv : σ → Prop) {P : σ → α → Prop}
    (hstep : ∀ s a s', inv s → ok s a → step s a = .ok s' → inv s')
    (hP : ∀ s a, inv s → ok s a → P s a) :
    ∀ {s : σ} {as : List α}, inv s → Guarded step ok s as → Guarded step P s as
  | _, [], _, _ => trivial
  | s, a :: as, hs, hg => by
    refine ⟨hP s a hs hg.1, ?_⟩
    cases h : step s a with
    | error e => trivial
    | ok s' =>
      obtain ⟨ha, hg'⟩ := (guarded_cons h).mp hg
      exact guarded_of_invariant inv hstep hP (hstep s a s' hs ha h) hg'

/-- The invariant rule for runs without a guard. -/
theorem run_invariant_of_step (inv : σ → Prop)
    (hstep : ∀ s a s', inv s → step s a = .ok s' → inv s') (hs : inv s)
    (hr : run step s as = .ok t) : inv t :=
  run_invariant inv (fun s a s' h _ => hstep s a s' h) hs
    (guarded_of_forall (fun _ _ => trivial) s as) hr

/-- Every step of the run that returns relates its states by `P`. -/
def Along (step : σ → α → Except ε σ) (P : σ → α → σ → Prop) : σ → List α → Prop
  | _, [] => True
  | s, a :: as =>
    match step s a with
    | .error _ => True
    | .ok s' => P s a s' ∧ Along step P s' as

/-- What every allowed step does holds along every allowed run. -/
theorem along_of_guarded {P : σ → α → σ → Prop}
    (hstep : ∀ s a s', ok s a → step s a = .ok s' → P s a s') (hg : Guarded step ok s as) :
    Along step P s as := by
  induction as generalizing s with
  | nil => trivial
  | cons a as ih =>
    unfold Along
    cases h : step s a with
    | error e => trivial
    | ok s' =>
      obtain ⟨ha, hg'⟩ := (guarded_cons h).mp hg
      exact ⟨hstep s a s' ha h, ih hg'⟩

/-- A run that ends well in a state where `q` holds, from one evaluation. -/
theorem run_ok_of_eval (step : σ → α → Except ε σ) (s : σ) (as : List α) (q : σ → Bool)
    (h : (match run step s as with
      | .error _ => false
      | .ok t => q t) = true) : ∃ t, run step s as = .ok t ∧ q t = true := by
  cases hr : run step s as with
  | error e => simp [hr] at h
  | ok t =>
    simp only [hr] at h
    exact ⟨t, rfl, h⟩

/-- A run and one more step, where `q` holds before and after it, from one evaluation. -/
theorem run_step_of_eval (step : σ → α → Except ε σ) (s : σ) (as : List α) (a : α)
    (q : σ → σ → Bool)
    (h : (match run step s as with
      | .error _ => false
      | .ok t =>
        match step t a with
        | .error _ => false
        | .ok t' => q t t') = true) :
    ∃ t t', run step s as = .ok t ∧ step t a = .ok t' ∧ q t t' = true := by
  cases hr : run step s as with
  | error e => simp [hr] at h
  | ok t =>
    cases hs : step t a with
    | error e => simp [hr, hs] at h
    | ok t' =>
      simp only [hr, hs] at h
      exact ⟨t, t', rfl, hs, h⟩

/-- A run that fails with `e`, from one evaluation. -/
theorem run_error_of_eval [DecidableEq ε] (step : σ → α → Except ε σ) (s : σ) (as : List α) (e : ε)
    (h : (match run step s as with
      | .error e' => decide (e' = e)
      | .ok _ => false) = true) : run step s as = .error e := by
  cases hr : run step s as with
  | error e' =>
    simp only [hr] at h
    rw [of_decide_eq_true h]
  | ok t => simp [hr] at h

/-- The last part of a guarded run is guarded. -/
theorem Guarded.of_append {bs : List α} (h : Guarded step ok s (as ++ bs))
    (hr : run step s as = .ok t) : Guarded step ok t bs := by
  induction as generalizing s with
  | nil =>
    cases hr
    exact h
  | cons a as ih =>
    obtain ⟨s', hs', hr'⟩ := run_cons.mp hr
    exact ih ((guarded_cons hs').mp h).2 hr'

end Xv6Mmap.Lib
