import Mathlib.Data.List.Basic

/-!
# Computations that record what they use

`Traced ι ε α` is a computation that may fail, together with the indices it used up to its end.
Forgetting the indices gives an ordinary computation (`val`), and `Within P x` says that every index
used has `P`; there is one rule of each kind for every way of building a computation. `scan` is the
loop that looks at one index after the other until it finds what it is looking for.
-/

namespace Xv6Mmap.Lib

/-- A computation that may fail, and the indices it used. -/
structure Traced (ι ε α : Type) where
  used : List ι
  val : Except ε α

namespace Traced

variable {ι ε α β : Type}

instance : Monad (Traced ι ε) where
  pure a := ⟨[], .ok a⟩
  bind x f :=
    match x.val with
    | .error e => ⟨x.used, .error e⟩
    | .ok a => ⟨x.used ++ (f a).used, (f a).val⟩

/-- Use the index `i`. -/
def use (i : ι) : Traced ι ε Unit := ⟨[i], .ok ()⟩

/-- A computation that uses no index. -/
def lift (x : Except ε α) : Traced ι ε α := ⟨[], x⟩

@[simp] theorem val_pure (a : α) : (pure a : Traced ι ε α).val = .ok a := rfl

@[simp] theorem val_use (i : ι) : (use i : Traced ι ε Unit).val = .ok () := rfl

@[simp] theorem val_lift (x : Except ε α) : (lift x : Traced ι ε α).val = x := rfl

theorem val_bind (x : Traced ι ε α) (f : α → Traced ι ε β) :
    (x >>= f).val = match x.val with
      | .error e => .error e
      | .ok a => (f a).val := by
  change (match x.val with
    | .error e => (⟨x.used, .error e⟩ : Traced ι ε β)
    | .ok a => ⟨x.used ++ (f a).used, (f a).val⟩).val = _
  cases x.val <;> rfl

variable {x : Traced ι ε α} {a : α}

/-- The value of a computation whose first part returns. -/
theorem val_bind_ok (h : x.val = .ok a) (f : α → Traced ι ε β) :
    (x >>= f).val = (f a).val := by
  rw [val_bind, h]

theorem used_bind (x : Traced ι ε α) (f : α → Traced ι ε β) :
    (x >>= f).used = match x.val with
      | .error _ => x.used
      | .ok a => x.used ++ (f a).used := by
  change (match x.val with
    | .error e => (⟨x.used, .error e⟩ : Traced ι ε β)
    | .ok a => ⟨x.used ++ (f a).used, (f a).val⟩).used = _
  cases x.val <;> rfl

theorem used_bind_ok (h : x.val = .ok a) (f : α → Traced ι ε β) :
    (x >>= f).used = x.used ++ (f a).used := by
  rw [used_bind, h]

theorem mk_ok_bind (used : List ι) (a : α) (f : α → Traced ι ε β) :
    ((⟨used, .ok a⟩ : Traced ι ε α) >>= f) = ⟨used ++ (f a).used, (f a).val⟩ :=
  rfl

/-- Every index used has `P`. -/
def Within (P : ι → Prop) (x : Traced ι ε α) : Prop := ∀ i ∈ x.used, P i

variable {P : ι → Prop}

theorem within_pure (a : α) :
    Within P (pure a : Traced ι ε α) := fun _ h => absurd h List.not_mem_nil

theorem within_lift (x : Except ε α) : Within P (lift x : Traced ι ε α) :=
  fun _ h => absurd h List.not_mem_nil

variable {i : ι}

theorem within_use (h : P i) : Within P (use i : Traced ι ε Unit) := fun j hj => by
  rw [List.mem_singleton.mp hj]
  exact h

/-- The parts of a computation one after the other. -/
theorem Within.bind {f : α → Traced ι ε β} (hx : Within P x)
    (hf : ∀ a, x.val = .ok a → Within P (f a)) : Within P (x >>= f) := by
  intro i hi
  rw [used_bind] at hi
  cases h : x.val with
  | error e =>
    rw [h] at hi
    exact hx i hi
  | ok a =>
    rw [h] at hi
    rcases List.mem_append.mp hi with hi | hi
    · exact hx i hi
    · exact hf a h i hi

/-- What the second part uses, the whole uses. -/
theorem mem_used_bind {f : α → Traced ι ε β} (h : x.val = .ok a) (hi : i ∈ (f a).used) :
    i ∈ (x >>= f).used := by
  rw [used_bind_ok h]
  exact List.mem_append_right _ hi

/-- The index a computation starts with. -/
theorem mem_used_use (i : ι) (f : Unit → Traced ι ε β) : i ∈ (use i >>= f).used := by
  rw [used_bind_ok (val_use i)]
  exact List.mem_append_left _ (List.mem_singleton_self i)

/-- An index used, and then the rest. -/
theorem Within.use_then {f : Unit → Traced ι ε β} (hi : P i) (hf : Within P (f ())) :
    Within P (use i >>= f) :=
  (within_use hi).bind fun _ _ => hf

/-! ## Scanning -/

/-- Look at `idx i, idx (i + 1), …`, at most `n` of them, up to the first hit. -/
def scan (idx : Nat → ι) (hit : Nat → Bool) : Nat → Nat → Traced ι ε (Option Nat)
  | 0, _ => pure none
  | n + 1, i => do
    use (idx i)
    if hit i then pure (some i) else scan idx hit n (i + 1)

theorem scan_val (idx : Nat → ι) (hit : Nat → Bool) :
    ∀ n i, (scan idx hit n i : Traced ι ε (Option Nat)).val = .ok ((List.range' i n).find? hit)
  | 0, i => rfl
  | n + 1, i => by
    rw [scan, val_bind_ok (val_use _), List.range'_succ, List.find?_cons]
    cases h : hit i with
    | true => rfl
    | false =>
      simp only [Bool.false_eq_true, if_false]
      exact scan_val idx hit n (i + 1)

theorem scan_within {idx : Nat → ι} {hit : Nat → Bool} :
    ∀ {n i}, (∀ j, i ≤ j → j < i + n → P (idx j)) →
      Within P (scan idx hit n i : Traced ι ε (Option Nat))
  | 0, _, _ => within_pure _
  | n + 1, i, h => by
    refine Within.use_then (h i (Nat.le_refl i) (by omega)) ?_
    split
    · exact within_pure _
    · exact scan_within fun j hj hlt => h j (by omega) (by omega)

end Traced

end Xv6Mmap.Lib
