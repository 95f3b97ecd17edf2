import Mathlib

/-!
# Blocks of units

Blocks in an address space, each a number of units of `w` bytes: the block at `x` is
`[x, x + w * size x)`. `Tiles` says that the blocks of a list do not overlap, and how many units they
are together. Blocks are made (`Tiles.grow`), joined (`Tiles.join`) and cut in two (`Tiles.cut`).
-/

namespace Xv6Mmap.Lib

open Function (update update_self update_of_ne)

/-- The blocks at `x` and `y` do not overlap. -/
def Apart (w : Nat) (size : Nat → Nat) (x y : Nat) : Prop :=
  x + w * size x ≤ y ∨ y + w * size y ≤ x

/-- The blocks of the list: not empty, between `lo` and `hi`, not overlapping, and `units` units
together. -/
structure Tiles (w : Nat) (size : Nat → Nat) (lo hi units : Nat) (xs : List Nat) : Prop where
  pos : ∀ x ∈ xs, 0 < size x
  lo_le : ∀ x ∈ xs, lo ≤ x
  le_hi : ∀ x ∈ xs, x + w * size x ≤ hi
  apart : xs.Pairwise (Apart w size)
  sum : (xs.map size).sum = units

variable {w lo hi units : Nat} {size : Nat → Nat} {xs ys : List Nat}

variable {x y : Nat}

theorem Apart.symm (h : Apart w size x y) : Apart w size y x := Or.symm h

theorem Apart.congr {size' : Nat → Nat} (h : Apart w size x y) (hx : size' x ≤ size x)
    (hy : size' y ≤ size y) : Apart w size' x y := by
  have := Nat.mul_le_mul_left w hx
  have := Nat.mul_le_mul_left w hy
  unfold Apart at h ⊢
  omega

theorem Tiles.perm (h : Tiles w size lo hi units xs) (hp : xs.Perm ys) :
    Tiles w size lo hi units ys where
  pos x hx := h.pos x (hp.mem_iff.mpr hx)
  lo_le x hx := h.lo_le x (hp.mem_iff.mpr hx)
  le_hi x hx := h.le_hi x (hp.mem_iff.mpr hx)
  apart := (hp.pairwise_iff Apart.symm).mp h.apart
  sum := (hp.map size).sum_eq.symm.trans h.sum

theorem Tiles.apart_cons (h : Tiles w size lo hi units (x :: xs)) :
    ∀ y ∈ xs, Apart w size x y :=
  (List.pairwise_cons.mp h.apart).1

theorem Tiles.notMem (hw : 0 < w) (h : Tiles w size lo hi units (x :: xs)) : x ∉ xs := by
  intro hx
  have := Nat.mul_pos hw (h.pos x List.mem_cons_self)
  rcases h.apart_cons x hx with h | h <;> omega

theorem Tiles.length_le (h : Tiles w size lo hi units xs) : xs.length ≤ units := by
  have := List.length_le_sum_of_one_le (xs.map size) (by
    intro n hn
    obtain ⟨x, hx, rfl⟩ := List.mem_map.mp hn
    exact h.pos x hx)
  rwa [List.length_map, h.sum] at this

variable {n : Nat}

theorem map_update_of_notMem (hx : x ∉ xs) :
    xs.map (update size x n) = xs.map size := by
  refine List.map_congr_left fun y hy => update_of_ne ?_ _ _
  rintro rfl
  exact hx hy

/-- A block above all others is added. -/
theorem Tiles.grow (hw : 0 < w) (h : Tiles w size lo hi units xs) {a : Nat} (ha : hi ≤ a)
    (hlo : lo ≤ a) (hn : 0 < n) :
    Tiles w (update size a n) lo (a + w * n) (units + n) (a :: xs) := by
  have hne : ∀ x ∈ xs, x ≠ a := by
    rintro x hx rfl
    have := Nat.mul_pos hw (h.pos x hx)
    have := h.le_hi x hx
    omega
  have hold : ∀ x ∈ xs, update size a n x = size x := fun x hx =>
    update_of_ne (hne x hx) _ _
  have hself : update size a n a = n := update_self ..
  refine ⟨?_, ?_, ?_, List.pairwise_cons.mpr ⟨?_, ?_⟩, ?_⟩
  · rintro x (_ | ⟨_, hx⟩)
    · rwa [hself]
    · rw [hold x hx]
      exact h.pos x hx
  · rintro x (_ | ⟨_, hx⟩)
    · exact hlo
    · exact h.lo_le x hx
  · rintro x (_ | ⟨_, hx⟩)
    · exact Nat.le_of_eq (by rw [hself])
    · rw [hold x hx]
      have := h.le_hi x hx
      omega
  · intro y hy
    refine .inr ?_
    rw [hold y hy]
    exact (h.le_hi y hy).trans ha
  · refine h.apart.imp_of_mem fun {x y} hx hy hxy => hxy.congr ?_ ?_
    · exact Nat.le_of_eq (hold x hx)
    · exact Nat.le_of_eq (hold y hy)
  · rw [List.map_cons, List.sum_cons, hself, map_update_of_notMem fun hx => hne a hx rfl, h.sum,
      Nat.add_comm]

/-- A block is joined to the one that begins where it ends. -/
theorem Tiles.join (hw : 0 < w) (h : Tiles w size lo hi units (x :: y :: xs))
    (hxy : x + w * size x = y) :
    Tiles w (update size x (size x + size y)) lo hi units (x :: xs) := by
  have hx : x ∉ xs := fun hx => h.notMem hw (List.mem_cons_of_mem _ hx)
  have hold : ∀ z ∈ xs, update size x (size x + size y) z = size z := fun z hz =>
    update_of_ne (ne_of_mem_of_not_mem hz hx) _ _
  have hself : update size x (size x + size y) x = size x + size y :=
    update_self ..
  have hmem : ∀ z ∈ xs, z ∈ x :: y :: xs := fun z hz =>
    List.mem_cons_of_mem _ (List.mem_cons_of_mem _ hz)
  have htail := (List.pairwise_cons.mp h.apart).2
  refine ⟨?_, ?_, ?_, List.pairwise_cons.mpr ⟨?_, ?_⟩, ?_⟩
  · rintro z (_ | ⟨_, hz⟩)
    · rw [hself]
      exact Nat.add_pos_left (h.pos x List.mem_cons_self) _
    · rw [hold z hz]
      exact h.pos z (hmem z hz)
  · rintro z (_ | ⟨_, hz⟩)
    · exact h.lo_le x List.mem_cons_self
    · exact h.lo_le z (hmem z hz)
  · rintro z (_ | ⟨_, hz⟩)
    · have := h.le_hi y (List.mem_cons_of_mem _ List.mem_cons_self)
      rw [hself, Nat.mul_add]
      omega
    · rw [hold z hz]
      exact h.le_hi z (hmem z hz)
  · intro z hz
    have h1 := h.apart_cons z (List.mem_cons_of_mem _ hz)
    have h2 := (List.pairwise_cons.mp htail).1 z hz
    have hpos := Nat.mul_pos hw (h.pos z (hmem z hz))
    unfold Apart at h1 h2 ⊢
    rw [hself, hold z hz, Nat.mul_add]
    omega
  · refine (List.pairwise_cons.mp htail).2.imp_of_mem fun {z z'} hz hz' hzz => hzz.congr ?_ ?_
    · exact Nat.le_of_eq (hold z hz)
    · exact Nat.le_of_eq (hold z' hz')
  · have := h.sum
    rw [List.map_cons, List.map_cons, List.sum_cons, List.sum_cons] at this
    rw [List.map_cons, List.sum_cons, hself, map_update_of_notMem hx]
    omega

/-- The last `n` units of a block become a block of their own. -/
theorem Tiles.cut (hw : 0 < w) (h : Tiles w size lo hi units (x :: xs)) (hn : 0 < n)
    (hlt : n < size x) :
    Tiles w (update (update size x (size x - n)) (x + w * (size x - n)) n) lo hi
      units ((x + w * (size x - n)) :: x :: xs) := by
  obtain ⟨k, hk⟩ : ∃ k, size x = k + n := ⟨size x - n, by omega⟩
  have hkn : size x - n = k := by omega
  rw [hkn]
  have hk0 : 0 < w * k := Nat.mul_pos hw (by omega)
  have hx : x ∉ xs := h.notMem hw
  have hxe : x + w * size x = x + w * k + w * n := by rw [hk, Nat.mul_add, Nat.add_assoc]
  -- the new block is inside the old one, so no block begins there
  have hout : ∀ z ∈ xs, z ≠ x + w * k := by
    rintro z hz rfl
    have := h.apart_cons _ hz
    have := Nat.mul_pos hw (h.pos _ (List.mem_cons_of_mem _ hz))
    have := Nat.mul_pos hw hn
    unfold Apart at *
    omega
  generalize hsize : update (update size x k) (x + w * k) n = size'
  have hself : size' (x + w * k) = n := by rw [← hsize, update_self]
  have hfst : size' x = k := by
    rw [← hsize, update_of_ne (by omega), update_self]
  have hold : ∀ z ∈ xs, size' z = size z := fun z hz => by
    rw [← hsize, update_of_ne (hout z hz), update_of_ne (ne_of_mem_of_not_mem hz hx)]
  have hcons := h.apart_cons
  refine ⟨?_, ?_, ?_, List.pairwise_cons.mpr ⟨?_, List.pairwise_cons.mpr ⟨?_, ?_⟩⟩, ?_⟩
  · rintro z (_ | ⟨_, _ | ⟨_, hz⟩⟩)
    · rwa [hself]
    · rw [hfst]
      omega
    · rw [hold z hz]
      exact h.pos z (List.mem_cons_of_mem _ hz)
  · rintro z (_ | ⟨_, hz⟩)
    · exact (h.lo_le x List.mem_cons_self).trans (Nat.le_add_right _ _)
    · exact h.lo_le z hz
  · have hle := h.le_hi x List.mem_cons_self
    rintro z (_ | ⟨_, _ | ⟨_, hz⟩⟩)
    · rw [hself]
      omega
    · rw [hfst]
      omega
    · rw [hold z hz]
      exact h.le_hi z (List.mem_cons_of_mem _ hz)
  · rintro z (_ | ⟨_, hz⟩)
    · exact .inr (by rw [hfst])
    · have := hcons z hz
      have := Nat.mul_pos hw (h.pos z (List.mem_cons_of_mem _ hz))
      unfold Apart at *
      rw [hself, hold z hz]
      omega
  · intro z hz
    exact (hcons z hz).congr (by rw [hfst]; omega) (Nat.le_of_eq (hold z hz))
  · refine (List.pairwise_cons.mp h.apart).2.imp_of_mem fun {z z'} hz hz' hzz => hzz.congr ?_ ?_
    · exact Nat.le_of_eq (hold z hz)
    · exact Nat.le_of_eq (hold z' hz')
  · have hsum := h.sum
    have hrest : xs.map size' = xs.map size := List.map_congr_left hold
    rw [List.map_cons, List.sum_cons] at hsum
    rw [List.map_cons, List.map_cons, List.sum_cons, List.sum_cons, hself, hfst, hrest]
    omega

end Xv6Mmap.Lib
