import Mathlib.Data.Int.ModEq
import Mathlib.Data.List.Basic
import Mathlib.Logic.Function.Basic

/-!
# Rings with free-running counters

A ring of `size` cells between two counters of `w` bits that are only ever incremented and wrap:
the cell of counter `c` is `c % size`. When `size` divides `2 ^ w`, wrapping does no harm, and the
cells between the counters hold a queue (`Holds`): the counters differ by its length, the ring is
empty when they are equal and full when they differ by `size`, a write at `tail` appends
(`Holds.push`), a read at `head` takes the first element (`Holds.pop`), and moving `tail` back takes
the last one away (`Holds.unpush`).
-/

namespace Xv6Mmap.Lib.Ring

variable {α : Type} {w size : Nat}

/-- The cells from `head` up to `tail` hold the queue `q`. -/
structure Holds (size : Nat) (data : Nat → α) (head tail : BitVec w) (q : List α) : Prop where
  length_le : q.length ≤ size
  tail_eq : tail = head + BitVec.ofNat w q.length
  cell : ∀ k, (hk : k < q.length) → data ((head.toNat + k) % size) = q[k]

theorem holds_nil (data : Nat → α) (head : BitVec w) : Holds size data head head [] where
  length_le := Nat.zero_le _
  tail_eq := by simp
  cell _ hk := absurd hk (Nat.not_lt_zero _)

variable {data : Nat → α} {head tail : BitVec w} {q : List α}

/-- The counters differ by the length of the queue, also where they have wrapped. -/
theorem Holds.toNat_sub (h : Holds size data head tail q) (hlt : size < 2 ^ w) :
    (tail - head).toNat = q.length := by
  have hle := h.length_le
  rw [h.tail_eq, BitVec.add_comm, BitVec.add_sub_cancel, BitVec.toNat_ofNat]
  exact Nat.mod_eq_of_lt (by omega)

theorem Holds.tail_eq_iff (h : Holds size data head tail q) (hlt : size < 2 ^ w) {n : Nat}
    (hn : n ≤ size) : tail = head + BitVec.ofNat w n ↔ q.length = n := by
  constructor
  · intro ht
    have hsub := h.toNat_sub hlt
    rw [ht, BitVec.add_comm, BitVec.add_sub_cancel, BitVec.toNat_ofNat,
      Nat.mod_eq_of_lt (by omega)] at hsub
    exact hsub.symm
  · rintro rfl
    exact h.tail_eq

theorem Holds.empty_iff (h : Holds size data head tail q) (hlt : size < 2 ^ w) :
    head = tail ↔ q = [] := by
  have := h.tail_eq_iff hlt (Nat.zero_le _)
  rw [BitVec.add_zero, List.length_eq_zero_iff] at this
  exact ⟨fun he => this.mp he.symm, fun hq => (this.mpr hq).symm⟩

/-- The cell of the counter `c + k`, whether the sum wraps or not. -/
theorem cell_add (hdvd : size ∣ 2 ^ w) (c : BitVec w) (k j : Nat) :
    ((c + BitVec.ofNat w k).toNat + j) % size = (c.toNat + k + j) % size := by
  have hmod : (c + BitVec.ofNat w k).toNat % size = (c.toNat + k) % size := by
    rw [BitVec.toNat_add, BitVec.toNat_ofNat, Nat.add_mod_mod, Nat.mod_mod_of_dvd _ hdvd]
  rw [Nat.add_mod, hmod, ← Nat.add_mod]

/-- Cells less than `size` apart are different. -/
theorem cell_ne {c k j : Nat} (hk : k < size) (hj : j < size) (hne : k ≠ j) :
    (c + k) % size ≠ (c + j) % size := by
  intro h
  have hmod : k % size = j % size := Nat.ModEq.add_left_cancel' c h
  rw [Nat.mod_eq_of_lt hk, Nat.mod_eq_of_lt hj] at hmod
  exact hne hmod

theorem Holds.tail_cell (h : Holds size data head tail q) (hdvd : size ∣ 2 ^ w) :
    tail.toNat % size = (head.toNat + q.length) % size := by
  have := cell_add hdvd head q.length 0
  rwa [← h.tail_eq] at this

/-- Writing the cell of `tail` in a ring that is not full changes no element of the queue. -/
theorem Holds.cell_push (h : Holds size data head tail q) (hdvd : size ∣ 2 ^ w)
    (hroom : q.length < size) (a : α) {k : Nat} (hk : k < q.length) :
    Function.update data (tail.toNat % size) a ((head.toNat + k) % size)
      = data ((head.toNat + k) % size) := by
  rw [h.tail_cell hdvd, Function.update_of_ne (cell_ne (by omega) hroom (by omega))]

/-- Writing the cell of `tail` in a ring that is not full appends to the queue. -/
theorem Holds.push (h : Holds size data head tail q) (hdvd : size ∣ 2 ^ w)
    (hroom : q.length < size) (a : α) :
    Holds size (Function.update data (tail.toNat % size) a) head (tail + 1#w) (q ++ [a]) where
  length_le := by
    rw [List.length_append, List.length_singleton]
    exact hroom
  tail_eq := by
    rw [h.tail_eq, List.length_append, List.length_singleton, BitVec.ofNat_add, BitVec.add_assoc]
  cell k hk := by
    by_cases hlast : k = q.length
    · subst hlast
      rw [← h.tail_cell hdvd, Function.update_self, List.getElem_append_right (Nat.le_refl _)]
      simp
    · have hk' : k < q.length := by
        rw [List.length_append, List.length_singleton] at hk
        omega
      rw [h.cell_push hdvd hroom a hk', List.getElem_append_left hk']
      exact h.cell k hk'

/-- Reading the cell of `head` in a ring that is not empty takes the first element. -/
theorem Holds.pop (h : Holds size data head tail q) (hdvd : size ∣ 2 ^ w) (hq : q ≠ []) :
    q = data (head.toNat % size) :: q.tail ∧ Holds size data (head + 1#w) tail q.tail := by
  obtain ⟨a, r, rfl⟩ := List.exists_cons_of_ne_nil hq
  have hle := h.length_le
  rw [List.length_cons] at hle
  have hfirst := h.cell 0 (Nat.zero_lt_succ _)
  refine ⟨by rw [List.tail_cons, ← Nat.add_zero head.toNat, hfirst]; rfl, ?_, ?_, ?_⟩
  · exact Nat.le_of_succ_le hle
  · rw [h.tail_eq, List.length_cons, Nat.add_comm r.length 1, BitVec.ofNat_add,
      BitVec.add_assoc]
    rfl
  · intro k hk
    have := cell_add hdvd head 1 k
    rw [this, Nat.add_assoc, Nat.add_comm 1 k, h.cell (k + 1) (Nat.succ_lt_succ hk)]
    rfl

/-- The cell before `tail` holds the last element, and moving `tail` there removes it. -/
theorem Holds.unpush {a : α} (h : Holds size data head tail (q ++ [a])) (hdvd : size ∣ 2 ^ w) :
    data ((tail - 1#w).toNat % size) = a ∧ Holds size data head (tail - 1#w) q := by
  have hlen : (q ++ [a]).length = q.length + 1 := by simp
  have htail : tail - 1#w = head + BitVec.ofNat w q.length := by
    rw [h.tail_eq, hlen, BitVec.ofNat_add, ← BitVec.add_assoc, BitVec.add_sub_cancel]
  refine ⟨?_, ?_, htail, fun k hk => ?_⟩
  · have hcell := h.cell q.length (by omega)
    rw [htail, ← Nat.add_zero (BitVec.toNat _), cell_add hdvd, Nat.add_zero, hcell]
    simp
  · have := h.length_le
    omega
  · rw [h.cell k (by omega), List.getElem_append_left hk]

end Xv6Mmap.Lib.Ring
