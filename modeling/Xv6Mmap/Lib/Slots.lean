import Mathlib.Data.List.Sort
import Mathlib.Logic.Function.Basic

/-!
# Slot arrays: shifting loops and the list they hold

A slot array is a function on indices, `slots n f` the list of its first `n` values. Moving a
block of slots up or down by one (`shiftUp`, `shiftDown`) is what a hand-written shifting loop
computes: `shiftUp_step` and `shiftDown_step` absorb one turn of such a loop. On the list, writing
into the gap a `shiftUp` leaves is an insertion (`slots_update_shiftUp`), and a `shiftDown` is a
deletion (`slots_shiftDown`).

For a list kept in order by a key, the insertion at the end of the entries that are not greater is
`List.orderedInsert` (`insertIdx_eq_orderedInsert`), and the deletion of the first hit is
`List.eraseP` (`eraseIdx_eq_eraseP`).
-/

namespace Xv6Mmap.Lib

open Function (update update_self update_of_ne)

variable {α β : Type}

/-- The first `n` slots, as a list. -/
def slots (n : Nat) (f : Nat → α) : List α := (List.range n).map f

/-- Slots `k, …, n - 1` moved up by one; slot `k` keeps its old value too. -/
def shiftUp (k n : Nat) (f : Nat → α) : Nat → α :=
  fun j => if k < j ∧ j ≤ n then f (j - 1) else f j

/-- Slots `k + 1, …, n` moved down by one; slot `n` keeps its old value too. -/
def shiftDown (k n : Nat) (f : Nat → α) : Nat → α :=
  fun j => if k ≤ j ∧ j < n then f (j + 1) else f j

@[simp] theorem length_slots (n : Nat) (f : Nat → α) : (slots n f).length = n := by
  simp [slots]

variable {n i : Nat}

@[simp] theorem getElem_slots {f : Nat → α} (h : i < (slots n f).length) :
    (slots n f)[i] = f i := by
  simp [slots]

theorem slots_map (n : Nat) (f : Nat → α) (g : α → β) :
    (slots n f).map g = slots n fun i => g (f i) := by
  simp [slots]

theorem slots_congr {f g : Nat → α} (h : ∀ i < n, f i = g i) : slots n f = slots n g :=
  List.map_congr_left fun i hi => h i (List.mem_range.mp hi)

/-! ## Shifting loops -/

theorem shiftUp_self (k : Nat) (f : Nat → α) : shiftUp k k f = f := by
  funext j
  unfold shiftUp
  rw [if_neg (by omega)]

theorem shiftDown_self (k : Nat) (f : Nat → α) : shiftDown k k f = f := by
  funext j
  unfold shiftDown
  rw [if_neg (by omega)]

variable {k : Nat}

/-- One turn of a loop that moves slots up from the top. -/
theorem shiftUp_step (h : k ≤ i) (f : Nat → α) :
    shiftUp k i (update f (i + 1) (f i)) = shiftUp k (i + 1) f := by
  funext j
  unfold shiftUp
  rcases Nat.lt_trichotomy j (i + 1) with hj | rfl | hj
  · have hne : j ≠ i + 1 := by omega
    have hne' : j - 1 ≠ i + 1 := by omega
    rw [update_of_ne hne, update_of_ne hne']
    exact if_congr (by omega) rfl rfl
  · rw [if_neg (by omega), if_pos (by omega), update_self, Nat.add_sub_cancel]
  · rw [if_neg (by omega), if_neg (by omega), update_of_ne (by omega)]

/-- One turn of a loop that moves slots down from the bottom. -/
theorem shiftDown_step (h : i < n) (f : Nat → α) :
    shiftDown (i + 1) n (update f i (f (i + 1))) = shiftDown i n f := by
  funext j
  unfold shiftDown
  rcases Nat.lt_trichotomy j i with hj | rfl | hj
  · rw [if_neg (by omega), if_neg (by omega), update_of_ne (by omega)]
  · rw [if_neg (by omega), if_pos (by omega), update_self]
  · have hne : j ≠ i := by omega
    have hne' : j + 1 ≠ i := by omega
    rw [update_of_ne hne, update_of_ne hne']
    exact if_congr (by omega) rfl rfl

/-- Moving slots down overwrites the bottom slot, so what it held does not matter. -/
theorem shiftDown_update {j : Nat} (h : j < n ∨ j ≠ i) (f : Nat → α) (x : α) :
    shiftDown i n (update f i x) j = shiftDown i n f j := by
  unfold shiftDown
  split
  · rw [update_of_ne (by omega)]
  · rw [update_of_ne (by omega)]

/-- Where a slot got its value from, after moving up around a gap at `k`. -/
theorem update_shiftUp_apply (hi : i ≤ n) (hk : i ≠ k) (f : Nat → α) (x : α) :
    update (shiftUp k n f) k x i = f (if k < i then i - 1 else i) := by
  rw [update_of_ne hk, shiftUp]
  by_cases h : k < i
  · rw [if_pos ⟨h, hi⟩, if_pos h]
  · rw [if_neg (by omega), if_neg h]

/-- Where a slot got its value from, after moving down onto `k`. -/
theorem shiftDown_apply (hi : i < n) (f : Nat → α) :
    shiftDown k n f i = f (if k ≤ i then i + 1 else i) := by
  rw [shiftDown]
  by_cases h : k ≤ i
  · rw [if_pos ⟨h, hi⟩, if_pos h]
  · rw [if_neg (by omega), if_neg h]

/-! ## The list behind the array -/

/-- Writing `x` into the gap a `shiftUp` leaves inserts it at `k`. -/
theorem slots_update_shiftUp (h : k ≤ n) (f : Nat → α) (x : α) :
    slots (n + 1) (update (shiftUp k n f) k x) = (slots n f).insertIdx k x := by
  apply List.ext_getElem
  · rw [List.length_insertIdx_of_le_length (by simpa using h)]
    simp
  intro i h1 h2
  rw [getElem_slots, List.getElem_insertIdx]
  simp only [length_slots] at h1
  rcases Nat.lt_trichotomy i k with hi | rfl | hi
  · rw [update_of_ne (by omega), dif_pos hi, getElem_slots, shiftUp, if_neg (by omega)]
  · rw [update_self, dif_neg (by omega), dif_pos rfl]
  · rw [update_of_ne (by omega), dif_neg (by omega), dif_neg (by omega),
      getElem_slots, shiftUp, if_pos (by omega)]

/-- Moving the slots above `k` down deletes entry `k`. -/
theorem slots_shiftDown {c : Nat} (hk : k ≤ n) (hc : n ≤ c) (f : Nat → α) :
    slots n (shiftDown k c f) = (slots (n + 1) f).eraseIdx k := by
  apply List.ext_getElem
  · rw [List.length_eraseIdx_of_lt (by simp; omega)]
    simp
  · intro i h1 h2
    rw [getElem_slots, List.getElem_eraseIdx]
    simp only [length_slots] at h1
    by_cases hi : i < k
    · rw [dif_pos hi, getElem_slots, shiftDown, if_neg (by omega)]
    · rw [dif_neg hi, getElem_slots, shiftDown, if_pos (by omega)]

/-! ## Lists kept in order -/

/-- Inserting after the entries that are not greater, before the first that is. -/
theorem insertIdx_eq_orderedInsert (r : α → α → Prop) [DecidableRel r] (x : α) :
    ∀ (l : List α) (k : Nat), k ≤ l.length →
      (∀ i (hi : i < l.length), i < k → ¬ r x l[i]) → (∀ h : k < l.length, r x l[k]) →
      l.insertIdx k x = l.orderedInsert r x
  | [], k, hk, _, _ => by
    have : k = 0 := by simpa using hk
    subst this
    rfl
  | b :: l, 0, _, _, hat => by
    have hb : r x b := hat (by simp)
    rw [List.insertIdx_zero, List.orderedInsert_cons, if_pos hb]
  | b :: l, k + 1, hk, hlt, hat => by
    have hb : ¬ r x b := hlt 0 (by simp) (by omega)
    rw [List.insertIdx_succ_cons, List.orderedInsert_cons, if_neg hb]
    congr 1
    apply insertIdx_eq_orderedInsert r x l k (by simpa using hk)
    · intro i hi hik
      exact hlt (i + 1) (by simpa using hi) (by omega)
    · intro h
      exact hat (by simpa using h)

/-- Deleting the first entry that satisfies `p`. -/
theorem eraseIdx_eq_eraseP (p : α → Bool) :
    ∀ (l : List α) (k : Nat) (hk : k < l.length), p l[k] = true →
      (∀ i (hi : i < l.length), i < k → p l[i] = false) → l.eraseIdx k = l.eraseP p
  | b :: l, 0, _, hp, _ => by
    have hb : p b = true := hp
    rw [List.eraseIdx_zero, List.tail_cons, List.eraseP_cons_of_pos hb]
  | b :: l, k + 1, hk, hp, hlt => by
    have hb : ¬ p b = true := Bool.eq_false_iff.mp (hlt 0 (by simp) (by omega))
    rw [List.eraseIdx_cons_succ, List.eraseP_cons_of_neg hb]
    congr 1
    apply eraseIdx_eq_eraseP p l k (by simpa using hk) hp
    intro i hi hik
    exact hlt (i + 1) (by simpa using hi) (by omega)

end Xv6Mmap.Lib
