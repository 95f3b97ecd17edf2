import Mathlib.Data.List.Nodup
import Mathlib.Data.List.Range
import Mathlib.Logic.Function.Basic

/-!
# Blocks given out by a bitmap

Blocks `lo, …, hi - 1` are given out to owners: `own k` is the block of owner `k`, zero for none, and
`bit b` says that block `b` is taken. `Allot` says that the two agree: different owners have
different blocks, all in range, and the blocks that are taken are those that some owner has. A free
block may be given to an owner without one (`Allot.claim`), and the block of an owner may be taken
back (`Allot.release`). `free` counts the blocks that are left.
-/

namespace Xv6Mmap.Lib

open Function (update update_self update_of_ne)

variable {κ : Type} {lo hi : Nat} {bit : Nat → Bool} {own : κ → Nat}

/-- The owners and the bitmap agree. Blocks below `lo` are taken for good. -/
structure Allot (lo hi : Nat) (bit : Nat → Bool) (own : κ → Nat) : Prop where
  range : ∀ k, own k ≠ 0 → lo ≤ own k ∧ own k < hi
  inj : ∀ k l, own k ≠ 0 → own k = own l → k = l
  bits : ∀ b, lo ≤ b → b < hi → (bit b = true ↔ ∃ k, own k = b)
  below : ∀ b, b < lo → bit b = true

/-- The number of blocks that are not taken. -/
def free (hi : Nat) (bit : Nat → Bool) : Nat := (List.range hi).countP fun b => !bit b

theorem Allot.congr (h : Allot lo hi bit own) {own' : κ → Nat} (he : ∀ k, own' k = own k) :
    Allot lo hi bit own' := by
  have : own' = own := funext he
  rwa [this]

theorem Allot.bit_own (h : Allot lo hi bit own) {k : κ} (hk : own k ≠ 0) : bit (own k) = true :=
  (h.bits _ (h.range k hk).1 (h.range k hk).2).mpr ⟨k, rfl⟩

/-- A free block is nobody's. -/
theorem Allot.own_ne (h : Allot lo hi bit own) {b : Nat} (hb : bit b = false) (k : κ)
    (hk : own k ≠ 0) : own k ≠ b := by
  rintro rfl
  rw [h.bit_own hk] at hb
  cases hb

theorem Allot.lo_le (h : Allot lo hi bit own) {b : Nat} (hb : bit b = false) : lo ≤ b := by
  by_contra hlt
  rw [h.below b (Nat.lt_of_not_le hlt)] at hb
  cases hb

variable [DecidableEq κ]

/-- A free block is given to an owner without one. -/
theorem Allot.claim (h : Allot lo hi bit own) (hlo : 0 < lo) {b : Nat} {k : κ}
    (hb : bit b = false) (hhi : b < hi) (hk : own k = 0) :
    Allot lo hi (update bit b true) (update own k b) := by
  have hb0 : lo ≤ b := h.lo_le hb
  have hother : ∀ l, l ≠ k → update own k b l = own l := fun l hl =>
    update_of_ne hl ..
  constructor
  case range =>
    intro l
    by_cases hl : l = k
    · subst hl
      rw [update_self]
      exact fun _ => ⟨hb0, hhi⟩
    · rw [hother l hl]
      exact h.range l
  case inj =>
    intro l m
    by_cases hl : l = k <;> by_cases hm : m = k
    · exact fun _ _ => hl.trans hm.symm
    · subst hl
      rw [update_self, hother m hm]
      intro _ he
      exact absurd he.symm (h.own_ne hb m (by omega))
    · subst hm
      rw [update_self, hother l hl]
      exact fun hne he => absurd he (h.own_ne hb l hne)
    · rw [hother l hl, hother m hm]
      exact h.inj l m
  case bits =>
    intro c hlo hhi
    by_cases hc : c = b
    · subst hc
      rw [update_self]
      exact iff_of_true rfl ⟨k, update_self ..⟩
    rw [update_of_ne hc, h.bits c hlo hhi]
    constructor
    · rintro ⟨l, hl⟩
      have hlk : l ≠ k := by
        rintro rfl
        omega
      exact ⟨l, by rw [hother l hlk]; exact hl⟩
    · rintro ⟨l, hl⟩
      have hlk : l ≠ k := by
        rintro rfl
        rw [update_self] at hl
        exact hc hl.symm
      exact ⟨l, by rw [← hother l hlk]; exact hl⟩
  case below =>
    intro c hc
    rw [update_of_ne (by omega)]
    exact h.below c hc

/-- The block of an owner is taken back. -/
theorem Allot.release (h : Allot lo hi bit own) (hlo : 0 < lo) {k : κ} (hk : own k ≠ 0) :
    Allot lo hi (update bit (own k) false) (update own k 0) := by
  have hrange := h.range k hk
  have hother : ∀ l, l ≠ k → update own k 0 l = own l := fun l hl =>
    update_of_ne hl ..
  have hself : update own k 0 k = 0 := update_self ..
  constructor
  case range =>
    intro l hne
    have hl : l ≠ k := by
      rintro rfl
      exact hne hself
    rw [hother l hl] at hne ⊢
    exact h.range l hne
  case inj =>
    intro l m hne he
    have hl : l ≠ k := by
      rintro rfl
      exact hne hself
    have hm : m ≠ k := by
      rintro rfl
      exact hne (he.trans hself)
    rw [hother l hl] at hne he
    rw [hother m hm] at he
    exact h.inj l m hne he
  case bits =>
    intro c hlo' hhi
    by_cases hc : c = own k
    · subst hc
      rw [update_self]
      refine iff_of_false nofun ?_
      rintro ⟨l, hl⟩
      have hlk : l ≠ k := by
        rintro rfl
        exact hk (hl.symm.trans hself)
      rw [hother l hlk] at hl
      exact hlk (h.inj l k (by omega) hl)
    · rw [update_of_ne hc, h.bits c hlo' hhi]
      constructor
      · rintro ⟨l, hl⟩
        have hlk : l ≠ k := by
          rintro rfl
          exact hc hl.symm
        exact ⟨l, by rw [hother l hlk]; exact hl⟩
      · rintro ⟨l, hl⟩
        have hlk : l ≠ k := by
          rintro rfl
          omega
        exact ⟨l, by rw [← hother l hlk]; exact hl⟩
  case below =>
    intro c hc
    rw [update_of_ne (by omega)]
    exact h.below c hc

theorem free_succ (hi : Nat) (bit : Nat → Bool) :
    free (hi + 1) bit = free hi bit + (!bit hi).toNat := by
  unfold free
  rw [List.range_succ, List.countP_append, List.countP_singleton]
  cases bit hi <;> rfl

/-- One block less after a free one is taken. -/
theorem free_update {b : Nat} (hb : bit b = false) (hhi : b < hi) :
    free hi (update bit b true) + 1 = free hi bit := by
  induction hi with
  | zero => exact absurd hhi (Nat.not_lt_zero b)
  | succ hi ih =>
    rw [free_succ, free_succ]
    by_cases hlt : b < hi
    · rw [update_of_ne hlt.ne', ← ih hlt]
      omega
    · obtain rfl : b = hi := by omega
      have hsame : free b (update bit b true) = free b bit :=
        List.countP_congr fun c hc => by rw [update_of_ne (List.mem_range.mp hc).ne]
      rw [hsame, update_self, hb]
      rfl

end Xv6Mmap.Lib
