import Mathlib.Data.List.Nodup
import Mathlib.Logic.Function.Basic

/-!
# Tables of bindings

A table is a list of places, each of them free or with a binding of a key to a value. It stands for
the partial map `bound`: the value of the first binding of a key. New bindings go to free places or
to the end, so nothing is known about the order; what counts is that no key has two places
(`UniqueKeys`).

* `bound_fill`: filling a free place with a new key adds exactly that binding.
* `bound_clear`: freeing a place takes exactly its binding away.
* `UniqueKeys.fill`, `UniqueKeys.clear`: keys stay unique.
-/

namespace Xv6Mmap.Lib

open Function (update update_self update_of_ne)

variable {κ ν : Type} {t u : List (Option (κ × ν))} {x : κ} {v : ν} {j : Nat}

/-- The keys in use, in the order of their places. -/
def keys (t : List (Option (κ × ν))) : List κ := t.filterMap (Option.map Prod.fst)

/-- No key has two places. -/
def UniqueKeys (t : List (Option (κ × ν))) : Prop := (keys t).Nodup

/-- Place `j` becomes `o`; it may be the one after the last. -/
def put (t : List (Option (κ × ν))) (j : Nat) (o : Option (κ × ν)) : List (Option (κ × ν)) :=
  t.take j ++ o :: t.drop (j + 1)

@[simp] theorem keys_append : keys (t ++ u) = keys t ++ keys u := List.filterMap_append

@[simp] theorem keys_none : keys (none :: t) = keys t := List.filterMap_cons_none rfl

@[simp] theorem keys_some : keys (some (x, v) :: t) = x :: keys t := List.filterMap_cons_some rfl

/-- A place of a table, with what is before and after. -/
theorem eq_of_getElem? {o : Option (κ × ν)} (h : t[j]? = some o) :
    t = t.take j ++ o :: t.drop (j + 1) := by
  obtain ⟨hlt, rfl⟩ := List.getElem?_eq_some_iff.mp h
  rw [← List.drop_eq_getElem_cons hlt, List.take_append_drop]

/-- Place `j` is free, or the one after the last. -/
def Free (t : List (Option (κ × ν))) (j : Nat) : Prop := t[j]? = some none ∨ j = t.length

theorem Free.keys_eq (h : Free t j) : keys (t.take j) ++ keys (t.drop (j + 1)) = keys t := by
  rcases h with h | rfl
  · conv_rhs => rw [eq_of_getElem? h]
    simp
  · rw [List.take_length, List.drop_eq_nil_of_le (Nat.le_succ _)]
    exact List.append_nil _

theorem UniqueKeys.fill (h : UniqueKeys t) (hfree : Free t j) (hx : x ∉ keys t) :
    UniqueKeys (put t j (some (x, v))) := by
  unfold UniqueKeys put
  rw [keys_append, keys_some, List.nodup_middle, hfree.keys_eq, List.nodup_cons]
  exact ⟨hx, h⟩

theorem UniqueKeys.notMem (h : UniqueKeys t) (hj : t[j]? = some (some (x, v))) :
    x ∉ keys (t.take j) ++ keys (t.drop (j + 1)) ∧
      (keys (t.take j) ++ keys (t.drop (j + 1))).Nodup := by
  unfold UniqueKeys at h
  rw [eq_of_getElem? hj, keys_append, keys_some, List.nodup_middle, List.nodup_cons] at h
  exact h

theorem UniqueKeys.clear (h : UniqueKeys t) (hj : t[j]? = some (some (x, v))) :
    UniqueKeys (put t j none) := by
  unfold UniqueKeys put
  rw [keys_append, keys_none]
  exact (h.notMem hj).2

section Bound

variable [DecidableEq κ]

/-- The value of the first binding of `x`. -/
def bound (t : List (Option (κ × ν))) (x : κ) : Option ν :=
  t.findSome? fun o => o.bind fun b => if b.1 = x then some b.2 else none

@[simp] theorem bound_append : bound (t ++ u) x = (bound t x).or (bound u x) :=
  List.findSome?_append

@[simp] theorem bound_none : bound (none :: t) x = bound t x := rfl

@[simp] theorem bound_some {y : κ} :
    bound (some (y, v) :: t) x = if y = x then some v else bound t x := by
  unfold bound
  rw [List.findSome?_cons]
  by_cases h : y = x
  · simp [h]
  · simp [h]

theorem bound_eq_none : bound t x = none ↔ x ∉ keys t := by
  induction t with
  | nil => simp [bound, keys]
  | cons o t ih =>
    cases o with
    | none => simpa using ih
    | some b =>
      obtain ⟨y, w⟩ := b
      rw [bound_some, keys_some, List.mem_cons, not_or, ← ih]
      by_cases h : y = x
      · simp [h]
      · simp [h, Ne.symm h]

theorem Free.bound_eq (h : Free t j) :
    (bound (t.take j) x).or (bound (t.drop (j + 1)) x) = bound t x := by
  rcases h with h | rfl
  · conv_rhs => rw [eq_of_getElem? h]
    simp
  · rw [List.take_length, List.drop_eq_nil_of_le (Nat.le_succ _)]
    exact Option.or_none

/-- **A new key in a free place** adds exactly its binding. -/
theorem bound_fill (hfree : Free t j) (hx : x ∉ keys t) :
    bound (put t j (some (x, v))) = update (bound t) x (some v) := by
  funext y
  rw [put, bound_append, bound_some]
  by_cases hy : x = y
  · subst hy
    have hbefore : bound (t.take j) x = none := bound_eq_none.mpr fun hmem =>
      hx (hfree.keys_eq ▸ List.mem_append_left _ hmem)
    rw [hbefore, if_pos rfl, update_self, Option.none_or]
  · rw [if_neg hy, hfree.bound_eq, update_of_ne (Ne.symm hy)]

/-- **Freeing a place** takes exactly its binding away. -/
theorem bound_clear (h : UniqueKeys t) (hj : t[j]? = some (some (x, v))) :
    bound (put t j none) = update (bound t) x none := by
  funext y
  rw [put, bound_append, bound_none]
  by_cases hy : x = y
  · subst hy
    have hnone := (h.notMem hj).1
    rw [List.mem_append, not_or, ← bound_eq_none, ← bound_eq_none] at hnone
    rw [hnone.1, hnone.2, update_self, Option.none_or]
  · rw [update_of_ne (Ne.symm hy)]
    conv_rhs => rw [eq_of_getElem? hj]
    rw [bound_append, bound_some, if_neg hy]

end Bound

end Xv6Mmap.Lib
