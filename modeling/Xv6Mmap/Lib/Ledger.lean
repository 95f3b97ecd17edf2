import Mathlib.Algebra.BigOperators.Group.Finset.Piecewise
import Mathlib.Algebra.Order.BigOperators.Group.Finset
import Mathlib.Algebra.Order.Group.Multiset
import Mathlib.Data.Multiset.AddSub
import Mathlib.Algebra.BigOperators.Intervals

/-!
# Ledgers

Finitely many places, each holding some items: `holdings s f` is everything the places of `s` hold,
with multiplicities. An item put into one place is added to the whole (`holdings_gain`), and if the
whole has no item twice, then different places hold different items (`holdings_inj`).
-/

namespace Xv6Mmap.Lib

variable {ι α : Type} {s : Finset ι} {f g : ι → Multiset α}

/-- Everything the places of `s` hold. -/
@[irreducible] def holdings (s : Finset ι) (f : ι → Multiset α) : Multiset α := ∑ i ∈ s, f i

theorem mem_holdings {a : α} : a ∈ holdings s f ↔ ∃ i ∈ s, a ∈ f i := by
  unfold holdings
  exact Multiset.mem_sum

theorem holdings_congr (h : ∀ i ∈ s, g i = f i) : holdings s g = holdings s f := by
  unfold holdings
  exact Finset.sum_congr rfl h

theorem holdings_zero (h : ∀ i ∈ s, f i = 0) : holdings s f = 0 := by
  unfold holdings
  exact Finset.sum_eq_zero h

theorem card_holdings : (holdings s f).card = ∑ i ∈ s, (f i).card := by
  unfold holdings
  exact Multiset.card_sum s f

/-- Items are put into one place. -/
theorem holdings_gain [DecidableEq ι] {i : ι} {a : Multiset α} (hi : i ∈ s)
    (hother : ∀ j ∈ s, j ≠ i → g j = f j) (hself : g i = a + f i) :
    holdings s g = a + holdings s f := by
  have hrest : ∑ j ∈ s.erase i, g j = ∑ j ∈ s.erase i, f j := Finset.sum_congr rfl fun j hj =>
    hother j (Finset.mem_of_mem_erase hj) (Finset.ne_of_mem_erase hj)
  unfold holdings
  rw [← Finset.add_sum_erase s g hi, ← Finset.add_sum_erase s f hi, hself, hrest, add_assoc]

/-- Without repetition an item is in one place. -/
theorem holdings_inj [DecidableEq ι] {i j : ι} {a : α} (hnd : (holdings s f).Nodup) (hi : i ∈ s)
    (hj : j ∈ s) (hai : a ∈ f i) (haj : a ∈ f j) : i = j := by
  by_contra hne
  have hle : f i + f j ≤ holdings s f := by
    unfold holdings
    rw [← Finset.sum_pair hne]
    refine Finset.sum_le_sum_of_subset fun l hl => ?_
    rcases Finset.mem_insert.mp hl with rfl | hl
    · exact hi
    · rwa [Finset.mem_singleton.mp hl]
  exact Multiset.disjoint_left.mp (Multiset.nodup_add.mp (Multiset.nodup_of_le hle hnd)).2.2 hai haj

end Xv6Mmap.Lib
