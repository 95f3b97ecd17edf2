import Mathlib.Logic.Function.Basic

/-!
# Buffers

A buffer is a function of the index. `Holds buf p s` says that the items of the list `s` stand in it
one after another from `p` on: how such a statement is taken apart, and what keeps it.
-/

namespace Xv6Mmap.Lib

variable {α : Type} {buf buf' : Nat → α} {p q : Nat} {s t : List α} {x : α}

/-- The items `s` stand at `p`. -/
def Holds (buf : Nat → α) (p : Nat) (s : List α) : Prop :=
  ∀ i (h : i < s.length), buf (p + i) = s[i]

theorem holds_nil : Holds buf p [] := fun i h => absurd h (Nat.not_lt_zero i)

theorem holds_cons : Holds buf p (x :: s) ↔ buf p = x ∧ Holds buf (p + 1) s := by
  constructor
  · intro h
    refine ⟨h 0 (Nat.succ_pos _), fun i hi => ?_⟩
    have := h (i + 1) (Nat.succ_lt_succ hi)
    rw [Nat.add_assoc, Nat.add_comm 1 i]
    exact this
  · rintro ⟨hx, hs⟩ i hi
    cases i with
    | zero => exact hx
    | succ i =>
      have := hs i (Nat.lt_of_succ_lt_succ hi)
      rw [Nat.add_assoc, Nat.add_comm 1 i] at this
      exact this

theorem holds_append : Holds buf p (s ++ t) ↔ Holds buf p s ∧ Holds buf (p + s.length) t := by
  induction s generalizing p with
  | nil => exact ⟨fun h => ⟨holds_nil, h⟩, And.right⟩
  | cons y s ih =>
    rw [List.cons_append, holds_cons, holds_cons, ih, and_assoc, List.length_cons,
      Nat.add_comm s.length, Nat.add_assoc]

/-- An item outside the list is overwritten. -/
theorem Holds.update (h : Holds buf p s) (hq : q < p ∨ p + s.length ≤ q) :
    Holds (Function.update buf q x) p s := fun i hi => by
  rw [Function.update_of_ne (by omega)]
  exact h i hi

theorem Holds.congr (h : Holds buf p s)
    (hsame : ∀ i, p ≤ i → i < p + s.length → buf' i = buf i) : Holds buf' p s := fun i hi => by
  rw [hsame _ (by omega) (by omega)]
  exact h i hi

theorem Holds.map_range' (h : Holds buf p s) : (List.range' p s.length).map buf = s := by
  induction s generalizing p with
  | nil => rfl
  | cons y s ih =>
    obtain ⟨hy, hs⟩ := holds_cons.mp h
    rw [List.length_cons, List.range'_succ, List.map_cons, hy, ih hs]

end Xv6Mmap.Lib
