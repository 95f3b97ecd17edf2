import Mathlib.Logic.Basic

/-!
# How a computation ends

Pre- and postconditions for computations that may fail. `Ends x Q E` says of a result `x` that it
is a value with `Q` or an error with `E`; `Wp m s Q E` says the same of the state computation `m`
run in state `s`, with `Q` about the value and the state it leaves. With `E` false the computation
is shown to return; where `E` is left out it may fail. `Agree R x y` is about two results at once.

One rule for each way of building a computation (`wp_bind`, `wp_ite`, …) reduces a goal about a
program to goals about its parts; `Wp.mono` uses what is known about a part. `Wp.ok` turns a
statement about all ways to end into one about a run that returned.
-/

namespace Xv6Mmap.Lib

variable {ε α β σ : Type}

/-- The result is a value with `Q` or an error with `E`. -/
def Ends (x : Except ε α) (Q : α → Prop) (E : ε → Prop := fun _ => True) : Prop :=
  match x with
  | .ok a => Q a
  | .error e => E e

@[simp] theorem ends_ok {a : α} {Q : α → Prop} {E : ε → Prop} :
    Ends (.ok a : Except ε α) Q E ↔ Q a :=
  Iff.rfl

variable {x : Except ε α}

theorem ends_bind {f : α → Except ε β} {Q : β → Prop} {E : ε → Prop} :
    Ends (x >>= f) Q E ↔ Ends x (fun a => Ends (f a) Q E) E := by
  cases x <;> rfl

theorem Ends.mono {Q Q' : α → Prop} {E E' : ε → Prop} (h : Ends x Q E) (hQ : ∀ a, Q a → Q' a)
    (hE : ∀ e, E e → E' e) : Ends x Q' E' := by
  cases x with
  | error e => exact hE e h
  | ok a => exact hQ a h

/-- A result that cannot be an error is a value. -/
theorem Ends.exists_ok {Q : α → Prop} (h : Ends x Q fun _ => False) :
    ∃ a, x = .ok a ∧ Q a := by
  cases x with
  | error e => exact h.elim
  | ok a => exact ⟨a, rfl, h⟩

/-- What holds of the value that was returned. -/
theorem Ends.ok {Q : α → Prop} {E : ε → Prop} (h : Ends x Q E) {a : α} (ha : x = .ok a) : Q a := by
  subst ha
  exact h

/-- Where failing is allowed, only the values returned count. -/
theorem ends_of_ok {Q : α → Prop} (h : ∀ a, x = .ok a → Q a) :
    Ends x Q := by
  cases x with
  | error e => trivial
  | ok a => exact h a rfl

/-- Two results agree up to `R`: the same error, or values that are related. -/
def Agree (R : α → β → Prop) : Except ε α → Except ε β → Prop
  | .ok a, .ok b => R a b
  | .error e, .error e' => e = e'
  | _, _ => False

theorem Agree.cases {R : α → β → Prop} {y : Except ε β} (h : Agree R x y) :
    (∃ e, x = .error e ∧ y = .error e) ∨ ∃ a b, x = .ok a ∧ y = .ok b ∧ R a b := by
  cases x with
  | error e =>
    cases y with
    | error e' => exact .inl ⟨e, rfl, congrArg _ (Eq.symm h)⟩
    | ok b => exact h.elim
  | ok a =>
    cases y with
    | error e' => exact h.elim
    | ok b => exact .inr ⟨a, b, rfl, rfl, h⟩

theorem Agree.mono {R R' : α → β → Prop} {y : Except ε β} (h : Agree R x y)
    (hR : ∀ a b, R a b → R' a b) : Agree R' x y := by
  obtain ⟨e, rfl, rfl⟩ | ⟨a, b, rfl, rfl, hab⟩ := h.cases
  · rfl
  · exact hR a b hab

/-- One computation after the other, from a state. -/
theorem stateT_bind (m : StateT σ (Except ε) α) (f : α → StateT σ (Except ε) β) (s : σ) :
    (m >>= f) s = match m s with
      | .error e => .error e
      | .ok r => f r.1 r.2 := by
  change (m s >>= fun r => f r.1 r.2) = _
  cases m s <;> rfl

/-- From state `s`, `m` returns a value and a state with `Q`, or fails with `E`. -/
def Wp (m : StateT σ (Except ε) α) (s : σ) (Q : α → σ → Prop) (E : ε → Prop := fun _ => True) :
    Prop :=
  Ends (m s) (fun r => Q r.1 r.2) E

section Rules

variable {s : σ} {Q : α → σ → Prop} {E : ε → Prop}

variable {a : α}

@[simp] theorem wp_pure : Wp (pure a : StateT σ (Except ε) α) s Q E ↔ Q a s :=
  Iff.rfl

@[simp] theorem wp_throw {e : ε} : Wp (throw e : StateT σ (Except ε) α) s Q E ↔ E e :=
  Iff.rfl

variable {m : StateT σ (Except ε) α}

@[simp] theorem wp_bind {f : α → StateT σ (Except ε) β} {Q : β → σ → Prop} :
    Wp (m >>= f) s Q E ↔ Wp m s (fun a s' => Wp (f a) s' Q E) E :=
  ends_bind

@[simp] theorem wp_get {Q : σ → σ → Prop} :
    Wp (get : StateT σ (Except ε) σ) s Q E ↔ Q s s :=
  Iff.rfl

variable {s' : σ}

@[simp] theorem wp_set {Q : PUnit → σ → Prop} :
    Wp (set s' : StateT σ (Except ε) PUnit) s Q E ↔ Q ⟨⟩ s' :=
  Iff.rfl

@[simp] theorem wp_modify {f : σ → σ} {Q : PUnit → σ → Prop} :
    Wp (modify f : StateT σ (Except ε) PUnit) s Q E ↔ Q ⟨⟩ (f s) :=
  Iff.rfl

/-- A computation without the state. -/
@[simp] theorem wp_liftM {x : Except ε α} :
    Wp (liftM x : StateT σ (Except ε) α) s Q E ↔ Ends x (fun a => Q a s) E := by
  cases x <;> rfl

variable {Q' : α → σ → Prop}

theorem Wp.mono {E' : ε → Prop} (h : Wp m s Q E) (hQ : ∀ a s', Q a s' → Q' a s')
    (hE : ∀ e, E e → E' e) : Wp m s Q' E' :=
  Ends.mono h (fun r => hQ r.1 r.2) hE

/-- The same errors, a weaker postcondition. -/
theorem Wp.imp (h : Wp m s Q E) (hQ : ∀ a s', Q a s' → Q' a s') : Wp m s Q' E :=
  h.mono hQ fun _ he => he

/-- What is known about the first of two computations. -/
theorem Wp.bind {f : α → StateT σ (Except ε) β} {E' : ε → Prop} {R : β → σ → Prop} (h : Wp m s Q E)
    (hf : ∀ a s', Q a s' → Wp (f a) s' R E') (hE : ∀ e, E e → E' e) : Wp (m >>= f) s R E' :=
  wp_bind.mpr (h.mono hf hE)

theorem Wp.next {f : α → StateT σ (Except ε) β} {R : β → σ → Prop} (h : Wp m s Q E)
    (hf : ∀ a s', Q a s' → Wp (f a) s' R E) : Wp (m >>= f) s R E :=
  h.bind hf fun _ he => he

/-- Computations that do the same from `s`. -/
theorem Wp.of_eq {m' : StateT σ (Except ε) α} (h : m s = m' s) (hw : Wp m' s Q E) : Wp m s Q E := by
  unfold Wp at *
  rwa [h]

/-- A computation whose run is known. -/
theorem wp_of_run (hm : m s = .ok (a, s')) (hQ : Q a s') : Wp m s Q E := by
  unfold Wp
  rw [hm]
  exact hQ

/-- A computation whose error is known. -/
theorem wp_of_error {e : ε} (hm : m s = .error e) (hE : E e) :
    Wp m s Q E := by
  unfold Wp
  rw [hm]
  exact hE

/-- Two statements about one computation. -/
theorem Wp.and {E' : ε → Prop} (h : Wp m s Q E) (h' : Wp m s Q' E') :
    Wp m s (fun a s' => Q a s' ∧ Q' a s') fun e => E e ∧ E' e := by
  unfold Wp at *
  cases hm : m s with
  | error e =>
    rw [hm] at h h'
    exact ⟨h, h'⟩
  | ok r =>
    rw [hm] at h h'
    exact ⟨h, h'⟩

/-- A computation that cannot fail returns. -/
theorem Wp.returns (h : Wp m s Q fun _ => False) :
    ∃ a s', m s = .ok (a, s') ∧ Q a s' := by
  obtain ⟨⟨a, s'⟩, hm, hQ⟩ := Ends.exists_ok h
  exact ⟨a, s', hm, hQ⟩

theorem wp_of_ok (h : ∀ a s', m s = .ok (a, s') → Q a s') :
    Wp m s Q :=
  ends_of_ok fun r hr => h r.1 r.2 hr

/-- Computations of which the same can be said end in the same way. -/
theorem eq_of_wp {m' : StateT σ (Except ε) α} {t : σ} (h : ∀ Q E, Wp m' t Q E → Wp m s Q E) :
    m s = m' t := by
  cases ht : m' t with
  | error e =>
    have hw := h (fun _ _ => False) (fun e' => e' = e) (wp_of_error ht rfl)
    unfold Wp Ends at hw
    split at hw
    · exact hw.elim
    · rw [‹m s = _›, hw]
  | ok r =>
    obtain ⟨⟨a, s'⟩, hr, hw⟩ := Ends.exists_ok
      (h (fun a s' => (a, s') = r) (fun _ => False) (wp_of_run ht rfl))
    rw [hr, hw]

theorem Wp.ok (h : Wp m s Q E) (hm : m s = .ok (a, s')) : Q a s' :=
  Ends.ok h hm

/-- From `s` both computations do the same, and if they return it is with `Q`. -/
def Same (m m' : StateT σ (Except ε) α) (s : σ) (Q : α → σ → Prop) : Prop :=
  m s = m' s ∧ Wp m' s Q

theorem Wp.same (h : Wp m s Q) : Same m m s Q := ⟨rfl, h⟩

theorem same_get : Same (get : StateT σ (Except ε) σ) get s fun a s' => s = a ∧ s = s' :=
  ⟨rfl, rfl, rfl⟩

theorem same_liftM (x : Except ε α) :
    Same (liftM x : StateT σ (Except ε) α) (liftM x) s fun _ s' => s = s' :=
  Wp.same (wp_liftM.mpr (ends_of_ok fun _ _ => rfl))

theorem Same.imp {m' : StateT σ (Except ε) α} (h : Same m m' s Q)
    (hQ : ∀ a s', Q a s' → Q' a s') : Same m m' s Q' :=
  ⟨h.1, h.2.imp hQ⟩

theorem Same.bind {m' : StateT σ (Except ε) α} {f f' : α → StateT σ (Except ε) β}
    {R : β → σ → Prop} (h : Same m m' s Q) (hf : ∀ a s', Q a s' → Same (f a) (f' a) s' R) :
    Same (m >>= f) (m' >>= f') s R := by
  refine ⟨?_, h.2.next fun a s' hQ => (hf a s' hQ).2⟩
  rw [stateT_bind, stateT_bind, h.1]
  cases hm : m' s with
  | error e => rfl
  | ok r => exact (hf r.1 r.2 (h.2.ok hm)).1

end Rules

end Xv6Mmap.Lib
