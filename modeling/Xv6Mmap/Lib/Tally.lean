import Mathlib.Algebra.BigOperators.Group.Finset.Piecewise
import Mathlib.Algebra.BigOperators.Ring.Finset
import Mathlib.Algebra.Order.BigOperators.Group.Finset
import Mathlib.Data.Fintype.BigOperators

/-!
# Tallies over processes

Finitely many processes, each in a local state, and a weight for every local state. `tally w f` is
the sum of the weights. When one process moves, the tally changes by the difference of the two
weights (`tally_update`); a tally of zeros and ones counts processes (`tally_eq_card`).
-/

namespace Xv6Mmap.Lib

variable {ι α : Type} [Fintype ι]

/-- The sum of the weights of all processes. -/
def tally (w : α → Nat) (f : ι → α) : Nat := ∑ i, w (f i)

theorem le_tally (w : α → Nat) (f : ι → α) (i : ι) : w (f i) ≤ tally w f :=
  Finset.single_le_sum (f := fun i => w (f i)) (fun _ _ => Nat.zero_le _) (Finset.mem_univ i)

/-- Two processes together weigh at most what all do. -/
theorem add_le_tally (w : α → Nat) (f : ι → α) {i j : ι} (h : i ≠ j) :
    w (f i) + w (f j) ≤ tally w f := by
  classical
  calc w (f i) + w (f j) = ∑ k ∈ {i, j}, w (f k) := by rw [Finset.sum_pair h]
    _ ≤ tally w f := Finset.sum_le_sum_of_subset (Finset.subset_univ _)

theorem tally_eq_zero {w : α → Nat} {f : ι → α} : tally w f = 0 ↔ ∀ i, w (f i) = 0 := by
  simp [tally, Finset.sum_eq_zero_iff]

theorem tally_eq_card (p : α → Bool) (f : ι → α) :
    tally (fun a => (p a).toNat) f = (Finset.univ.filter fun i => p (f i) = true).card := by
  rw [Finset.card_filter]
  refine Finset.sum_congr rfl fun i _ => ?_
  cases h : p (f i) <;> simp [h]

variable [DecidableEq ι]

/-- One process moves: its old weight is replaced by its new one. -/
theorem tally_update (w : α → Nat) (f : ι → α) (i : ι) (a : α) :
    tally w (Function.update f i a) + w (f i) = tally w f + w a := by
  have hnew : tally w (Function.update f i a)
      = w a + ∑ j ∈ Finset.univ \ {i}, w (f j) := by
    have hcomp : (fun j => w (Function.update f i a j)) = Function.update (fun j => w (f j)) i (w a) :=
      Function.comp_update w f i a
    unfold tally
    rw [hcomp]
    exact Finset.sum_update_of_mem (Finset.mem_univ i) ..
  have hold : tally w f = w (f i) + ∑ j ∈ Finset.univ \ {i}, w (f j) :=
    Finset.sum_eq_add_sum_sdiff_singleton_of_mem (Finset.mem_univ i) fun j => w (f j)
  omega

/-- A move that keeps the weight keeps the tally. -/
theorem tally_update_of_eq {w : α → Nat} {f : ι → α} {i : ι} {a : α} (h : w a = w (f i)) :
    tally w (Function.update f i a) = tally w f := by
  have := tally_update w f i a
  omega

end Xv6Mmap.Lib
