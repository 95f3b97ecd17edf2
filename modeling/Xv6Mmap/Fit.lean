import Mathlib.Order.Bounds.Basic
import Xv6Mmap.Extents

/-!
# What fits in the window (`sysfile.c:660-706`, `sysfile.c:800-852`)

The mappings of a tidy table cut the window into gaps, `[roomFrom i, roomTo i)` before slot `i` and
one behind the last entry. A request of whole pages fits where a gap has room for it.

* `wmap_leftmost_iff`: the search of `sys_wmap` is meant to return the lowest address where the
  request fits. It forgets the gaps it passes once it meets a free slot, so it returns the end of
  the last mapping, and never fails; this is right exactly if no gap before a mapping has room and
  the one behind the last does. `wmap_skips_gap` is a table with a gap that the search passes over.
* `wmap_behind_last`: with room behind the last mapping the new one collides with nothing, and the
  table stays tidy.
* `wremap_resizes_iff`: `sys_wremap` resizes in place whenever the new size fits, except that a size
  which fills the gap to the next mapping exactly is refused (`wremap_refuses_exact_fit`).
-/

namespace Xv6Mmap

open Lib

/-! ## Tidy tables and their gaps -/

/-- The interval of the entry is made of whole pages. -/
def MemBlock.WholePages (b : MemBlock) : Prop :=
  b.start.toNat % 4096 = 0 ∧ (b.end_.toNat + 1) % 4096 = 0

instance (b : MemBlock) : Decidable b.WholePages := inferInstanceAs (Decidable (_ ∧ _))

/-- The used entries come first, sorted and disjoint, each of whole pages of the window. -/
structure Maps.Tidy (m : Maps) : Prop where
  shape : m.Shape
  ordered : m.Ordered
  window : m.InWindow
  pages : ∀ i < m.count, (m.arr i).WholePages

/-- Where the gap before slot `i` begins. -/
def Maps.roomFrom (m : Maps) : Nat → Nat
  | 0 => minAddr.toNat
  | i + 1 => (m.arr i).end_.toNat + 1

/-- Where the gap before slot `i` ends: at its entry, or at `MAX_ADDR` behind the last. -/
def Maps.roomTo (m : Maps) (i : Nat) : Nat :=
  if i < m.count then (m.arr i).start.toNat else maxAddr.toNat

/-- `size` bytes from `a` on are whole pages of the window, apart from every mapping. -/
def Maps.Fits (m : Maps) (size a : Nat) : Prop :=
  a % 4096 = 0 ∧ minAddr.toNat ≤ a ∧ a + size ≤ maxAddr.toNat ∧
    ∀ i < m.count, a + size ≤ (m.arr i).start.toNat ∨ (m.arr i).end_.toNat < a

namespace Maps.Tidy

variable {m : Maps}

theorem total_eq (h : m.Tidy) : m.total = m.count := by
  have := h.shape.1
  unfold Maps.count
  omega

theorem count_le (h : m.Tidy) : m.count ≤ maxWmmapInfo := by
  have := h.shape.2.1
  have := h.total_eq
  omega

theorem used (h : m.Tidy) {i : Nat} (hi : i < m.count) : (m.arr i).valid ≠ 0#32 := by
  have htotal := h.total_eq
  exact (h.shape.2.2 i (lt_of_lt_of_le hi h.count_le)).mpr (by omega)

theorem free (h : m.Tidy) {i : Nat} (hi : m.count ≤ i) (hlt : i < maxWmmapInfo) :
    (m.arr i).valid = 0#32 := by
  have htotal := h.total_eq
  by_contra hv
  have := (h.shape.2.2 i hlt).mp hv
  omega

theorem start_lt_start (h : m.Tidy) {i j : Nat} (hij : i < j) (hj : j < m.count) :
    (m.arr i).start < (m.arr j).start := by
  have hi := MemBlock.inWindow_iff.mp (h.window i (by omega))
  have := h.ordered.below i j hij hj
  rw [BitVec.lt_def]
  omega

/-- The gaps begin at whole pages, in the window, and further up for higher slots. -/
theorem roomFrom_spec (h : m.Tidy) {i : Nat} (hi : i ≤ m.count) :
    m.roomFrom i % 4096 = 0 ∧ 0x60000000 ≤ m.roomFrom i ∧ m.roomFrom i ≤ 0x80000000 ∧
      ∀ j < i, (m.arr j).end_.toNat < m.roomFrom i := by
  cases i with
  | zero =>
    have hmin : m.roomFrom 0 = 0x60000000 := rfl
    rw [hmin]
    exact ⟨rfl, le_rfl, by omega, fun j hj => absurd hj (Nat.not_lt_zero j)⟩
  | succ i =>
    have hwin := MemBlock.inWindow_iff.mp (h.window i (by omega))
    refine ⟨(h.pages i (by omega)).2, ?_, ?_, fun j hj => ?_⟩
    · change _ ≤ (m.arr i).end_.toNat + 1
      omega
    · change (m.arr i).end_.toNat + 1 ≤ _
      omega
    · change _ < (m.arr i).end_.toNat + 1
      rcases Nat.lt_succ_iff_lt_or_eq.mp hj with hlt | rfl
      · have := h.ordered.below j i hlt (by omega)
        omega
      · omega

/-- A gap with room for `size` bytes fits them at its beginning. -/
theorem fits_roomFrom (h : m.Tidy) {i size : Nat} (hi : i ≤ m.count)
    (hroom : m.roomFrom i + size ≤ m.roomTo i) : m.Fits size (m.roomFrom i) := by
  obtain ⟨hmod, hlow, -, hbelow⟩ := h.roomFrom_spec hi
  unfold Maps.roomTo at hroom
  have habove : ∀ j, i ≤ j → j < m.count → m.roomFrom i + size ≤ (m.arr j).start.toNat := by
    intro j hij hj
    rw [if_pos (by omega)] at hroom
    rcases Nat.eq_or_lt_of_le hij with rfl | hlt
    · exact hroom
    · have := BitVec.lt_def.mp (h.start_lt_start hlt hj)
      omega
  refine ⟨hmod, hlow, ?_, fun j hj => ?_⟩
  · split at hroom
    · rename_i hlt
      have hwin := MemBlock.inWindow_iff.mp (h.window i hlt)
      change _ ≤ 0x80000000
      omega
    · exact hroom
  · rcases Nat.lt_or_ge j i with hlt | hge
    · exact .inr (hbelow j hlt)
    · exact .inl (habove j hge hj)

/-- Where the gaps before the mappings have no room, a request fits behind the last one only. -/
theorem roomFrom_le_of_fits {size a : Nat}
    (hgaps : ∀ i < m.count, ¬ m.roomFrom i + size ≤ m.roomTo i) (ha : m.Fits size a) :
    ∀ {i}, i ≤ m.count → m.roomFrom i ≤ a
  | 0, _ => ha.2.1
  | i + 1, hi => by
    have hprev := roomFrom_le_of_fits hgaps ha (i := i) (by omega)
    have hgap := hgaps i (by omega)
    rw [Maps.roomTo, if_pos (by omega)] at hgap
    change (m.arr i).end_.toNat + 1 ≤ a
    rcases ha.2.2.2 i (by omega) with hlt | hgt
    · omega
    · exact hgt

end Maps.Tidy

/-! ## The search on a tidy table -/

theorem sysWmap_search (pid : Nat) (m : Maps) (addr length flags fd : Word)
    (hflag : hasFlag flags mapFixed = false) (hlen : 1 ≤ length.toInt)
    (hroom : m.total ≠ maxWmmapInfo) :
    sysWmap pid m addr length flags fd
      = (leftmostAddr m.arr (pgRoundUp length),
          m.inserted (pid, m.calls.length)
            ⟨leftmostAddr m.arr (pgRoundUp length),
              leftmostAddr m.arr (pgRoundUp length) + pgRoundUp length - 1#32, flags, length,
              fd⟩) := by
  unfold sysWmap
  rw [if_neg (by omega), if_neg (by rw [hflag]; decide), if_neg hroom]
  exact insertMapping_inserted hroom ..

namespace Maps.Tidy

variable {m : Maps}

theorem total_ne (h : m.Tidy) (hroom : m.count < maxWmmapInfo) : m.total ≠ maxWmmapInfo := by
  have := h.total_eq
  omega

/-- On a tidy table with a free slot, the search ends behind the last mapping whatever the size. -/
theorem leftmostAddr_toNat (h : m.Tidy) (hroom : m.count < maxWmmapInfo) (size : Word) :
    (leftmostAddr m.arr size).toNat = m.roomFrom m.count := by
  rw [leftmostAddr_of_free hroom (fun j hj => h.used hj) (h.free le_rfl hroom)]
  cases hc : m.count with
  | zero => rfl
  | succ n =>
    have hwin := MemBlock.inWindow_iff.mp (h.window n (by omega))
    change ((m.arr n).end_ + 1#32).toNat = (m.arr n).end_.toNat + 1
    bv_omega

end Maps.Tidy

/-- The address is the lowest where `size` bytes fit, or it says that they fit nowhere. -/
def Maps.LeftmostFit (m : Maps) (size : Nat) (r : Word) : Prop :=
  IsLeast {a | m.Fits size a} r.toNat ∨ ((∀ a, ¬ m.Fits size a) ∧ r = failed)

/-- **When the search finds the leftmost fit**: if no gap before a mapping has room for the
request, and the one behind the last mapping does. -/
theorem wmap_leftmost_iff (pid : Nat) (m : Maps) (addr length flags fd : Word) (h : m.Tidy)
    (hroom : m.count < maxWmmapInfo) (hlen : 1 ≤ length.toInt)
    (hflag : hasFlag flags mapFixed = false) :
    m.LeftmostFit (pgRoundUp length).toNat (sysWmap pid m addr length flags fd).1 ↔
      (∀ i < m.count, ¬ m.roomFrom i + (pgRoundUp length).toNat ≤ m.roomTo i) ∧
        m.roomFrom m.count + (pgRoundUp length).toNat ≤ m.roomTo m.count := by
  obtain ⟨-, -, hhigh, hbelow⟩ := h.roomFrom_spec (le_refl m.count)
  have hr : (sysWmap pid m addr length flags fd).1.toNat = m.roomFrom m.count := by
    rw [sysWmap_search pid m addr length flags fd hflag hlen (h.total_ne hroom)]
    exact h.leftmostAddr_toNat hroom _
  have hlast : m.roomTo m.count = maxAddr.toNat := if_neg (lt_irrefl _)
  constructor
  · rintro (hleast | ⟨-, hfail⟩)
    · rw [hr] at hleast
      refine ⟨fun i hi hgap => ?_, ?_⟩
      · -- a gap with room is further down than the last mapping
        have hle : m.roomFrom m.count ≤ m.roomFrom i := hleast.2 (h.fits_roomFrom hi.le hgap)
        have hwin := MemBlock.inWindow_iff.mp (h.window i hi)
        have := hbelow i hi
        rw [Maps.roomTo, if_pos hi] at hgap
        omega
      · rw [hlast]
        exact hleast.1.2.2.1
    · -- the search never fails
      have hfailed : failed.toNat = 0xFFFFFFFF := by decide
      rw [hfail, hfailed] at hr
      omega
  · rintro ⟨hgaps, hbehind⟩
    refine .inl ?_
    rw [hr]
    exact ⟨h.fits_roomFrom le_rfl hbehind,
      fun a ha => Maps.Tidy.roomFrom_le_of_fits hgaps ha le_rfl⟩

/-- A table with the entry `e` and nothing else. -/
def Maps.single (e : Entry) : Maps := Maps.init.inserted (1, 0) e

/-- Whether the table is tidy, by evaluation. -/
def Maps.tidyEval (m : Maps) : Bool :=
  decide m.Shape &&
    (List.range m.count).all fun i =>
      decide (m.arr i).InWindow && decide (m.arr i).WholePages &&
        (List.range i).all fun j => decide ((m.arr j).end_.toNat < (m.arr i).start.toNat)

theorem Maps.tidy_of_eval {m : Maps} (h : m.tidyEval = true) : m.Tidy := by
  simp only [Maps.tidyEval, Bool.and_eq_true, decide_eq_true_eq, List.all_eq_true,
    List.mem_range] at h
  obtain ⟨hshape, hall⟩ := h
  refine ⟨hshape, ⟨fun i hi => ?_, fun i j hij hj => (hall j hj).2 i hij⟩,
    fun i hi => (hall i hi).1.1, fun i hi => (hall i hi).1.2⟩
  have := MemBlock.inWindow_iff.mp (hall i hi).1.1
  omega

/-- One page at the bottom of the window. -/
def bottomPage : Entry := ⟨0x60000000#32, 0x60000FFF#32, mapAnonymous, 4096#32, 0#32⟩

theorem wmap_leftmost_iff_bottom :
    (Maps.single bottomPage).Tidy ∧
      (Maps.single bottomPage).LeftmostFit 4096
        (sysWmap 1 (Maps.single bottomPage) 0#32 4096#32 mapAnonymous 0#32).1 := by
  have htidy : (Maps.single bottomPage).Tidy := Maps.tidy_of_eval (by decide +kernel)
  refine ⟨htidy, ?_⟩
  exact (wmap_leftmost_iff 1 (Maps.single bottomPage) 0#32 4096#32 mapAnonymous 0#32 htidy
    (by decide +kernel) (by decide) (by decide)).mpr (by decide +kernel)

/-- One page, two pages above the bottom of the window. -/
def raisedPage : Entry := ⟨0x60002000#32, 0x60002FFF#32, mapAnonymous ||| mapFixed, 4096#32, 0#32⟩

/-- The search passes over a gap of two pages: a page fits at `MIN_ADDR`, and the call returns the
address behind the only mapping. -/
theorem wmap_skips_gap :
    (Maps.single raisedPage).Tidy ∧ (Maps.single raisedPage).count = 1 ∧
      (Maps.single raisedPage).Fits 4096 0x60000000 ∧
      (sysWmap 1 (Maps.single raisedPage) 0#32 4096#32 mapAnonymous 0#32).1 = 0x60003000#32 ∧
      ¬ (Maps.single raisedPage).LeftmostFit 4096
        (sysWmap 1 (Maps.single raisedPage) 0#32 4096#32 mapAnonymous 0#32).1 := by
  have htidy : (Maps.single raisedPage).Tidy := Maps.tidy_of_eval (by decide +kernel)
  have hcount : (Maps.single raisedPage).count = 1 := by decide +kernel
  have hfits : (Maps.single raisedPage).Fits 4096 0x60000000 :=
    htidy.fits_roomFrom (i := 0) (Nat.zero_le _) (by decide +kernel)
  have hr : (sysWmap 1 (Maps.single raisedPage) 0#32 4096#32 mapAnonymous 0#32).1 = 0x60003000#32 := by
    decide +kernel
  refine ⟨htidy, hcount, hfits, hr, ?_⟩
  rw [hr]
  rintro (hleast | ⟨hnone, -⟩)
  · have hle : (0x60003000#32 : Word).toNat ≤ 0x60000000 := hleast.2 hfits
    exact absurd hle (by decide)
  · exact hnone _ hfits

/-! ## Placement behind the last mapping -/

/-- An entry at least as high as all others goes to the end. -/
theorem Maps.slotFor_eq_count {m : Maps} {e : Entry}
    (h : ∀ i < m.count, (m.arr i).start ≤ e.start) : m.slotFor e = m.count := by
  have hle : m.slotFor e ≤ m.count := Maps.slotFor_le
  by_contra hne
  have hlt := Maps.lt_of_slotFor_le (m := m) (e := e) le_rfl (by omega)
  have := h _ (show m.slotFor e < m.count by omega)
  rw [BitVec.le_def] at this
  rw [BitVec.lt_def] at hlt
  omega

section Appended

variable {m : Maps} {rid : Rid} {e : Entry}

theorem Maps.Tidy.count_inserted (h : m.Tidy) : (m.inserted rid e).count = m.count + 1 := by
  have htotal : (m.inserted rid e).total = m.total + 1 := rfl
  rw [Maps.count, htotal, h.total_eq]
  omega

/-- An entry of whole pages behind the last mapping keeps the table tidy. -/
theorem Maps.Tidy.appended (h : m.Tidy) (hroom : m.count < maxWmmapInfo)
    (hslot : m.slotFor e = m.count) (hwin : (e.block rid).InWindow)
    (hpages : (e.block rid).WholePages)
    (habove : ∀ i < m.count, (m.arr i).end_.toNat < e.start.toNat) : (m.inserted rid e).Tidy := by
  have hcount : (m.inserted rid e).count = m.count + 1 := h.count_inserted
  have htotal : (m.inserted rid e).total = m.total + 1 := rfl
  have hself : (m.inserted rid e).arr m.count = e.block rid := hslot ▸ Maps.inserted_arr_self
  have hold : ∀ i < m.count, (m.inserted rid e).arr i = m.arr i := fun i hi => by
    rw [Maps.inserted_arr_of_ne hi.le (by omega), if_neg (by omega)]
  -- a property of the used entries: of the old ones and of the new one
  have hall : ∀ P : MemBlock → Prop, (∀ i < m.count, P (m.arr i)) → P (e.block rid) →
      ∀ i < (m.inserted rid e).count, P ((m.inserted rid e).arr i) := by
    intro P hP he i hi
    rcases Nat.lt_succ_iff_lt_or_eq.mp (hcount ▸ hi) with hlt | rfl
    · rw [hold i hlt]
      exact hP i hlt
    · rw [hself]
      exact he
  have hle := h.total_eq
  refine ⟨⟨by omega, by omega, fun i hi => ?_⟩, ⟨?_, fun i j hij hj => ?_⟩,
    hall _ h.window hwin, hall _ h.pages hpages⟩
  · rcases Nat.lt_trichotomy i m.count with hlt | rfl | hgt
    · rw [hold i hlt]
      exact iff_of_true (h.used hlt) (by omega)
    · rw [hself]
      exact iff_of_true (by change (1#32 : Word) ≠ 0#32; decide) (by omega)
    · rw [Maps.inserted_arr_above hgt, h.free hgt.le hi]
      exact iff_of_false (by simp) (by omega)
  · refine hall (fun b => b.start.toNat ≤ b.end_.toNat + 1) h.ordered.extent ?_
    have := MemBlock.inWindow_iff.mp hwin
    omega
  · rcases Nat.lt_succ_iff_lt_or_eq.mp (hcount ▸ hj) with hlt | rfl
    · rw [hold i (by omega), hold j hlt]
      exact h.ordered.below i j hij hlt
    · rw [hold i hij, hself]
      exact habove i hij

end Appended

/-- **Placement without `MAP_FIXED` collides with nothing**, when there is room behind the last
mapping: the new mapping is whole pages there, apart from all others, and the table stays tidy. -/
theorem wmap_behind_last (pid : Nat) (m : Maps) (addr length flags fd : Word) (h : m.Tidy)
    (hroom : m.count < maxWmmapInfo) (hlen : 1 ≤ length.toInt)
    (hflag : hasFlag flags mapFixed = false)
    (hbehind : m.roomFrom m.count - 1 + (pgRoundUp length).toNat < maxAddr.toNat) :
    ∃ r m', sysWmap pid m addr length flags fd = (r, m') ∧ r ≠ failed ∧
      (m'.arr m.count).start = r ∧ (m'.arr m.count).WholePages ∧ (m'.arr m.count).InWindow ∧
      (m'.arr m.count).end_.toNat + 1 = r.toNat + (pgRoundUp length).toNat ∧
      (∀ i < m.count, ∀ va, ¬ ((m'.arr m.count).Covers va ∧ (m.arr i).Covers va)) ∧
      (∀ i < m.count, m'.arr i = m.arr i) ∧ m'.Tidy ∧ m'.Disjoint ∧ m'.count = m.count + 1 := by
  obtain ⟨hmod, hlow, hhigh, hbelow⟩ := h.roomFrom_spec (le_refl m.count)
  obtain ⟨hsize, -, hsizemod⟩ := pgRoundUp_of_pos hlen
  have hr := h.leftmostAddr_toNat hroom (pgRoundUp length)
  have hsearch := sysWmap_search pid m addr length flags fd hflag hlen (h.total_ne hroom)
  generalize hstart : leftmostAddr m.arr (pgRoundUp length) = r at hr hsearch
  generalize he : (⟨r, r + pgRoundUp length - 1#32, flags, length, fd⟩ : Entry) = e at hsearch
  have hmax : maxAddr.toNat = 0x80000000 := rfl
  have hend : (r + pgRoundUp length - 1#32).toNat + 1 = r.toNat + (pgRoundUp length).toNat := by
    bv_omega
  have hstarts : ∀ i < m.count, (m.arr i).start ≤ e.start := fun i hi => by
    have := hbelow i hi
    have hwin := MemBlock.inWindow_iff.mp (h.window i hi)
    rw [← he, BitVec.le_def]
    change _ ≤ r.toNat
    omega
  have hslot := Maps.slotFor_eq_count hstarts
  have hself : (m.inserted (pid, m.calls.length) e).arr m.count = e.block _ :=
    hslot ▸ Maps.inserted_arr_self
  have hwin : (e.block (pid, m.calls.length)).InWindow := by
    subst he
    refine MemBlock.inWindow_iff.mpr ?_
    change _ ≤ r.toNat ∧ r.toNat ≤ (r + pgRoundUp length - 1#32).toNat ∧
      (r + pgRoundUp length - 1#32).toNat < _
    omega
  have hpages : (e.block (pid, m.calls.length)).WholePages := by
    subst he
    change r.toNat % 4096 = 0 ∧ ((r + pgRoundUp length - 1#32).toNat + 1) % 4096 = 0
    omega
  have habove : ∀ i < m.count, (m.arr i).end_.toNat < e.start.toNat := fun i hi => by
    subst he
    change _ < r.toNat
    rw [hr]
    exact hbelow i hi
  have htidy := h.appended hroom hslot hwin hpages habove
  refine ⟨r, _, hsearch, ?_, ?_, ?_, ?_, ?_, fun i hi va hboth => ?_, fun i hi => ?_, htidy,
    htidy.ordered.disjoint, h.count_inserted⟩
  · intro hf
    rw [hf] at hr
    have hfailed : failed.toNat = 0xFFFFFFFF := by decide
    omega
  · rw [hself, ← he]
    rfl
  · rw [hself]
    exact hpages
  · rw [hself]
    exact hwin
  · rw [hself, ← he]
    exact hend
  · rw [hself] at hboth
    have hlow' : e.start ≤ va := hboth.1.1
    have hhigh' := hboth.2.2
    have := habove i hi
    rw [BitVec.le_def] at hlow' hhigh'
    omega
  · rw [Maps.inserted_arr_of_ne hi.le (by omega), if_neg (by omega)]

theorem wmap_behind_last_raised :
    (Maps.single raisedPage).Tidy ∧
      ∃ r m', sysWmap 1 (Maps.single raisedPage) 0#32 8192#32 mapAnonymous 0#32 = (r, m') ∧
        m'.Tidy ∧ m'.count = 2 := by
  have htidy : (Maps.single raisedPage).Tidy := Maps.tidy_of_eval (by decide +kernel)
  obtain ⟨r, m', heq, -, -, -, -, -, -, -, htidy', -, hcount⟩ :=
    wmap_behind_last 1 (Maps.single raisedPage) 0#32 8192#32 mapAnonymous 0#32 htidy
      (by decide +kernel) (by decide) (by decide) (by decide +kernel)
  exact ⟨htidy, r, m', heq, htidy', hcount.trans (by decide +kernel)⟩

/-! ## Resizing in place -/

/-- Entry `k` has the pages of the new size; all others are where and what they were. -/
structure Maps.Resized (m : Maps) (k : Nat) (newsize : Word) (m' : Maps) : Prop where
  total : m'.total = m.total
  shape : m'.Shape
  self : m'.arr k =
    { m.arr k with end_ := (m.arr k).start + pgRoundUp newsize - 1#32, length := newsize }
  others : ∀ i < m.count, i ≠ k → m'.arr i = m.arr i

section Resize

variable {m : Maps} {k : Nat}

theorem Maps.Tidy.findLive_eq (h : m.Tidy) (hvalid : ∀ i < m.count, (m.arr i).valid = 1#32)
    (hk : k < m.count) : m.findLive (m.arr k).start = some k := by
  unfold Maps.findLive
  rw [List.find?_range_eq_some]
  refine ⟨by simp [hvalid k hk], List.mem_range.mpr hk, fun j hj => ?_⟩
  have hlt := h.start_lt_start hj hk
  rw [BitVec.lt_def] at hlt
  simp only [Bool.not_eq_true', Bool.and_eq_false_iff, beq_eq_false_iff_ne]
  exact .inr fun heq => by rw [heq] at hlt; omega

theorem Maps.Tidy.find_eq (h : m.Tidy) (hk : k < m.count) : m.find (m.arr k).start = some k := by
  obtain ⟨j, hjk, hj⟩ := Maps.find_of_valid (lt_of_lt_of_le hk h.count_le) (h.used hk) rfl
  rcases Nat.eq_or_lt_of_le hjk with rfl | hlt
  · exact hj
  · have hstart := (Maps.find_spec hj).2.2.1
    have := BitVec.lt_def.mp (h.start_lt_start hlt hk)
    rw [hstart] at this
    omega

theorem Maps.Tidy.count_removed (h : m.Tidy) (hk : k < m.count) (addr : Word) :
    (m.removed addr k).count + 1 = m.count := by
  have htotal : (m.removed addr k).total = m.total - 1 := rfl
  rw [Maps.count, htotal, h.total_eq]
  omega

/-- An entry that starts where the removed one did goes back to its slot. -/
theorem Maps.Tidy.slotFor_removed (h : m.Tidy) (hk : k < m.count) {addr : Word} {e : Entry}
    (he : e.start = (m.arr k).start) : (m.removed addr k).slotFor e = k := by
  have hcount := h.count_removed hk addr
  have hle : m.count ≤ 16 := h.count_le
  have hslot : (m.removed addr k).slotFor e ≤ (m.removed addr k).count := Maps.slotFor_le
  rcases Nat.lt_trichotomy ((m.removed addr k).slotFor e) k with hlt | heq | hgt
  · have hgt := Maps.lt_of_slotFor_le (m := m.removed addr k) (e := e) le_rfl (by omega)
    rw [Maps.removed_arr (by omega), if_neg (by omega), he] at hgt
    have hlt' := h.start_lt_start hlt hk
    rw [BitVec.lt_def] at hgt hlt'
    omega
  · exact heq
  · obtain ⟨j, hj⟩ : ∃ j, (m.removed addr k).slotFor e = j + 1 :=
      ⟨_, (Nat.succ_pred (by omega)).symm⟩
    have hnot := not_lt_of_insertIndex_eq hj
    rw [Maps.removed_arr (by omega), if_pos (by omega), he] at hnot
    exact absurd (h.start_lt_start (show k < j + 1 by omega) (by omega)) hnot

section Replaced

variable {rid : Rid} {e : Entry}

/-- Entry `k` taken out, and `e` put in. -/
def Maps.replaced (m : Maps) (k : Nat) (rid : Rid) (e : Entry) : Maps :=
  (m.removed (m.arr k).start k).inserted rid e

theorem Maps.total_replaced : (m.replaced k rid e).total = m.total :=
  Int.sub_add_cancel ..

theorem Maps.Tidy.replaced_self (h : m.Tidy) (hk : k < m.count)
    (he : e.start = (m.arr k).start) : (m.replaced k rid e).arr k = e.block rid := by
  rw [Maps.replaced, ← Maps.inserted_arr_self, h.slotFor_removed hk he]

theorem Maps.Tidy.replaced_of_ne (h : m.Tidy) (hk : k < m.count)
    (he : e.start = (m.arr k).start) {i : Nat} (hi : i < m.count) (hne : i ≠ k) :
    (m.replaced k rid e).arr i = m.arr i := by
  have hle : m.count ≤ 16 := h.count_le
  have hcount := h.count_removed hk (m.arr k).start
  have hslot : (m.removed (m.arr k).start k).slotFor e = k := h.slotFor_removed hk he
  rw [Maps.replaced, Maps.inserted_arr_of_ne (by omega) (by omega), hslot]
  by_cases hlt : k < i
  · rw [if_pos hlt, Maps.removed_arr (by omega), if_pos (by omega)]
    congr
    omega
  · rw [if_neg hlt, Maps.removed_arr (by omega), if_neg (by omega)]

theorem Maps.Tidy.replaced_above (h : m.Tidy) (hk : k < m.count) {i : Nat} (hi : m.count ≤ i)
    (hlt : i < maxWmmapInfo) : ((m.replaced k rid e).arr i).valid = 0#32 := by
  have hcount := h.count_removed hk (m.arr k).start
  have hi' : i < 16 := hlt
  rw [Maps.replaced, Maps.inserted_arr_above (by omega)]
  by_cases hi15 : i < 15
  · rw [Maps.removed_arr hi15, if_pos (by omega)]
    exact h.free (by omega) (by unfold maxWmmapInfo; omega)
  · rw [Maps.removed_arr_of_ne (by omega) (by omega)]
    exact h.free hi hlt

theorem Maps.Tidy.replaced_shape (h : m.Tidy) (hk : k < m.count)
    (he : e.start = (m.arr k).start) : (m.replaced k rid e).Shape := by
  have htotal := h.total_eq
  refine ⟨?_, ?_, fun i hi => ?_⟩
  all_goals rw [Maps.total_replaced]
  · exact h.shape.1
  · exact h.shape.2.1
  · rcases Nat.lt_or_ge i m.count with hlt | hge
    · refine iff_of_true ?_ (by omega)
      by_cases hne : i = k
      · rw [hne, h.replaced_self hk he]
        change (1#32 : Word) ≠ 0#32
        decide
      · rw [h.replaced_of_ne hk he hlt hne]
        exact h.used hlt
    · exact iff_of_false (not_not.mpr (h.replaced_above hk hge hi)) (by omega)

end Replaced

/-- Removing an entry with one reference and inserting it again with another size resizes it. -/
theorem Maps.Tidy.reinsert_resized (h : m.Tidy) (hk : k < m.count) (href : (m.arr k).ref = 1#32)
    (hvalid : (m.arr k).valid = 1#32) (newsize : Word) :
    ∃ m', m.reinsert (m.arr k).start (m.arr k).start
        ((m.arr k).start + pgRoundUp newsize - 1#32) newsize (m.arr k) = ((m.arr k).start, m') ∧
      m.Resized k newsize m' := by
  have hcount := h.count_removed hk (m.arr k).start
  have hle : m.count ≤ 16 := h.count_le
  have htotal := h.total_eq
  have hremoved : (m.removed (m.arr k).start k).total = m.total - 1 := rfl
  refine ⟨m.replaced k (m.arr k).rid ⟨(m.arr k).start, (m.arr k).start + pgRoundUp newsize - 1#32,
    (m.arr k).flags, newsize, (m.arr k).fd⟩, ?_, Maps.total_replaced, h.replaced_shape hk rfl, ?_,
    fun i hi hne => h.replaced_of_ne hk rfl hi hne⟩
  · unfold Maps.reinsert
    rw [removeMapping_eq (h.find_eq hk) href (lt_of_lt_of_le hk h.count_le)]
    exact insertMapping_inserted (by unfold maxWmmapInfo; omega) ..
  · rw [h.replaced_self hk rfl]
    simp only [Entry.block, href, hvalid]

/-- The new size fills the gap up to the next mapping exactly. -/
def Maps.FillsGap (m : Maps) (k : Nat) (newsize : Word) : Prop :=
  k + 1 < m.count ∧
    (m.arr k).start.toNat + (pgRoundUp newsize).toNat = (m.arr (k + 1)).start.toNat

/-- The new size has room up to the next mapping, or up to `MAX_ADDR`. -/
def Maps.HasRoom (m : Maps) (k : Nat) (newsize : Word) : Prop :=
  (m.arr k).start.toNat + (pgRoundUp newsize).toNat ≤ m.roomTo (k + 1)

/-- What `sys_wremap` without `MREMAP_MAYMOVE` does with a mapping below slot fifteen. -/
theorem Maps.Tidy.sysWremap_cases (h : m.Tidy) (hvalid : ∀ i < m.count, (m.arr i).valid = 1#32)
    (hk : k < m.count) (hk15 : k ≠ 15) (oob : MemBlock) (oldsize newsize : Word)
    (hnew : 1 ≤ newsize.toInt) :
    (m.HasRoom k newsize ∧ ¬ m.FillsGap k newsize ∧
        sysWremap m oob (m.arr k).start oldsize newsize 0#32
          = m.reinsert (m.arr k).start (m.arr k).start
              ((m.arr k).start + pgRoundUp newsize - 1#32) newsize (m.arr k)) ∨
      ((¬ m.HasRoom k newsize ∨ m.FillsGap k newsize) ∧
        sysWremap m oob (m.arr k).start oldsize newsize 0#32 = (failed, m)) := by
  have hle : m.count ≤ 16 := h.count_le
  have hwin := MemBlock.inWindow_iff.mp (h.window k hk)
  obtain ⟨hsize, hsize', -⟩ := pgRoundUp_of_pos hnew
  have hend : ((m.arr k).start + pgRoundUp newsize).toNat
      = (m.arr k).start.toNat + (pgRoundUp newsize).toNat := by bv_omega
  have hnext : m.next oob k = m.arr (k + 1) := if_pos (by unfold maxWmmapInfo; omega)
  have hmax : maxAddr.toNat = 0x80000000 := rfl
  unfold sysWremap Maps.HasRoom Maps.FillsGap Maps.roomTo
  rw [if_neg (not_not.mpr (h.pages k hk).1), h.findLive_eq hvalid hk]
  dsimp only
  rw [hnext]
  by_cases hlast : k + 1 < m.count
  · rw [hvalid (k + 1) hlast, if_pos hlast, if_neg (show (1#32 : Word) ≠ 0#32 by decide),
      if_pos (rfl : (0#32 : Word) = 0#32)]
    by_cases hlt : (m.arr k).start + pgRoundUp newsize < (m.arr (k + 1)).start
    · rw [if_pos ⟨rfl, hlt⟩]
      rw [BitVec.lt_def, hend] at hlt
      exact .inl ⟨by omega, by omega, rfl⟩
    · rw [if_neg fun hb => hlt hb.2]
      rw [BitVec.lt_def, hend] at hlt
      exact .inr ⟨by omega, rfl⟩
  · rw [h.free (i := k + 1) (by omega) (by unfold maxWmmapInfo; omega), if_neg hlast,
      if_neg fun hb => absurd hb.1 (by decide), if_pos rfl]
    by_cases hlt : maxAddr < (m.arr k).start + pgRoundUp newsize
    · rw [if_pos hlt]
      rw [BitVec.lt_def, hend] at hlt
      exact .inr ⟨.inl (by omega), rfl⟩
    · rw [if_neg hlt]
      rw [BitVec.lt_def, hend] at hlt
      exact .inl ⟨by omega, by omega, rfl⟩

/-- `remove_mapping` of an entry with another reference count only counts. -/
theorem removeMapping_of_ref_ne {addr : Word} (hf : m.find addr = some k)
    (href : (m.arr k).ref ≠ 1#32) :
    removeMapping m addr = (true, ({ m with calls := m.calls ++ [.remove addr] } : Maps).unref k) := by
  have hf' : ({ m with calls := m.calls ++ [.remove addr] } : Maps).find addr = some k := hf
  have hne : (m.arr k).ref - 1#32 ≠ 0#32 := fun hz => href (by bv_omega)
  simp only [removeMapping, hf', Maps.unref, Function.update_self, if_neg hne]

/-- With another reference count the entry stays, and a second one is inserted behind it or, in a
full table, none is. -/
theorem Maps.Tidy.reinsert_not_resized (h : m.Tidy) (hk : k < m.count)
    (href : (m.arr k).ref ≠ 1#32) (newsize : Word) :
    ¬ ((m.reinsert (m.arr k).start (m.arr k).start
          ((m.arr k).start + pgRoundUp newsize - 1#32) newsize (m.arr k)).1 ≠ failed ∧
        m.Resized k newsize (m.reinsert (m.arr k).start (m.arr k).start
          ((m.arr k).start + pgRoundUp newsize - 1#32) newsize (m.arr k)).2) := by
  rintro ⟨hok, hres⟩
  have hrem := removeMapping_of_ref_ne (h.find_eq hk) href
  unfold Maps.reinsert at hok hres
  rw [hrem] at hok hres
  generalize hq : ({ m with calls := m.calls ++ [.remove (m.arr k).start] } : Maps).unref k = q
    at hok hres
  have htotal : q.total = m.total := by rw [← hq]; rfl
  simp only [if_true] at hok hres
  by_cases hfull : q.total = maxWmmapInfo
  · unfold insertMapping at hok
    rw [if_pos hfull] at hok
    exact hok rfl
  -- the new entry is inserted above slot `k`, whose reference count is one less
  rw [insertMapping_inserted hfull] at hres
  have hself := hres.self
  have hstarts : ∀ i, (q.arr i).start = (m.arr i).start := fun i => by
    rw [← hq]
    by_cases hi : i = k
    · simp [Maps.unref, hi]
    · simp [Maps.unref, hi]
  have hcount : q.count = m.count := congrArg Int.toNat htotal
  generalize he : (⟨(m.arr k).start, _, (m.arr k).flags, newsize, (m.arr k).fd⟩ : Entry) = e
    at hself
  have hslot : k < q.slotFor e := by
    by_contra hle
    have hlt := Maps.lt_of_slotFor_le (m := q) (e := e) (show q.slotFor e ≤ k by omega)
      (by omega)
    rw [hstarts, ← he, BitVec.lt_def] at hlt
    exact absurd hlt (lt_irrefl _)
  rw [Maps.inserted_arr_of_ne (by omega) (by omega), if_neg (by omega)] at hself
  have hrefs := congrArg MemBlock.ref hself
  rw [← hq] at hrefs
  simp only [Maps.unref, Function.update_self] at hrefs
  bv_omega

/-- **When `sys_wremap` resizes in place exactly if the new size fits**: if the size does not fill
the gap to the next mapping exactly, and a mapping that fits has one reference. -/
theorem wremap_resizes_iff (m : Maps) (k : Nat) (oob : MemBlock) (oldsize newsize : Word)
    (h : m.Tidy) (hvalid : ∀ i < m.count, (m.arr i).valid = 1#32) (hk : k < m.count)
    (hk15 : k ≠ 15) (hnew : 1 ≤ newsize.toInt) :
    (((sysWremap m oob (m.arr k).start oldsize newsize 0#32).1 ≠ failed ↔ m.HasRoom k newsize) ∧
        ((sysWremap m oob (m.arr k).start oldsize newsize 0#32).1 ≠ failed →
          (sysWremap m oob (m.arr k).start oldsize newsize 0#32).1 = (m.arr k).start ∧
            m.Resized k newsize (sysWremap m oob (m.arr k).start oldsize newsize 0#32).2)) ↔
      ¬ m.FillsGap k newsize ∧ (m.HasRoom k newsize → (m.arr k).ref = 1#32) := by
  have hwin := MemBlock.inWindow_iff.mp (h.window k hk)
  have hstart : (m.arr k).start ≠ failed := fun hf => by
    rw [hf] at hwin
    have hfailed : failed.toNat = 0xFFFFFFFF := by decide
    omega
  obtain ⟨hroom, hgap, heq⟩ | ⟨hno, heq⟩ := h.sysWremap_cases hvalid hk hk15 oob oldsize _ hnew
  · by_cases href : (m.arr k).ref = 1#32
    · obtain ⟨m', hm', hres⟩ := h.reinsert_resized hk href (hvalid k hk) newsize
      rw [heq, hm']
      exact iff_of_true ⟨iff_of_true hstart hroom, fun _ => ⟨rfl, hres⟩⟩ ⟨hgap, fun _ => href⟩
    · refine iff_of_false (fun hall => ?_) fun hall => href (hall.2 hroom)
      have hok := hall.1.mpr hroom
      have hres := (hall.2 hok).2
      rw [heq] at hok hres
      exact h.reinsert_not_resized hk href newsize ⟨hok, hres⟩
  · rw [heq]
    have hbad : ¬ ((failed, m).1 ≠ failed) := fun hne => hne rfl
    by_cases hroom : m.HasRoom k newsize
    · have hgap := hno.resolve_left (not_not.mpr hroom)
      exact iff_of_false (fun hall => hbad (hall.1.mpr hroom)) fun hall => hall.1 hgap
    · refine iff_of_true ⟨iff_of_false hbad hroom, fun hne => absurd hne hbad⟩
        ⟨fun hgap => hroom ?_, fun hr => absurd hr hroom⟩
      unfold Maps.HasRoom Maps.roomTo
      rw [if_pos hgap.1]
      exact hgap.2.le

end Resize

theorem wremap_resizes_iff_bottom :
    (Maps.single bottomPage).Tidy ∧
      (sysWremap (Maps.single bottomPage) MemBlock.empty 0x60000000#32 4096#32 8192#32 0#32).1
        = 0x60000000#32 := by
  have htidy : (Maps.single bottomPage).Tidy := Maps.tidy_of_eval (by decide +kernel)
  have hiff := wremap_resizes_iff (Maps.single bottomPage) 0 MemBlock.empty 4096#32 8192#32 htidy
    (by decide +kernel) (by decide +kernel) (by decide) (by decide)
  have hroom : (Maps.single bottomPage).HasRoom 0 8192#32 := by
    unfold Maps.HasRoom
    decide +kernel
  obtain ⟨hsucc, hres⟩ := hiff.mpr ⟨fun hgap => absurd hgap.1 (by decide +kernel),
    fun _ => by decide +kernel⟩
  exact ⟨htidy, (hres (hsucc.mpr hroom)).1⟩

/-- A page at `MIN_ADDR` and one at the page after the next: one free page between them. -/
def onePageGap : Maps := (Maps.single bottomPage).inserted (1, 1) raisedPage

/-- Growing the first mapping into the free page is refused, though it fits. -/
theorem wremap_refuses_exact_fit :
    onePageGap.Tidy ∧ onePageGap.count = 2 ∧
      (∀ i < onePageGap.count, (onePageGap.arr i).valid = 1#32 ∧ (onePageGap.arr i).ref = 1#32) ∧
      onePageGap.HasRoom 0 8192#32 ∧
      ∀ oob oldsize, (sysWremap onePageGap oob (onePageGap.arr 0).start oldsize 8192#32 0#32).1
        = failed := by
  have htidy : onePageGap.Tidy := Maps.tidy_of_eval (by decide +kernel)
  have hlive : ∀ i < onePageGap.count,
      (onePageGap.arr i).valid = 1#32 ∧ (onePageGap.arr i).ref = 1#32 := by decide +kernel
  have hgap : onePageGap.FillsGap 0 8192#32 := by
    unfold Maps.FillsGap
    decide +kernel
  refine ⟨htidy, by decide +kernel, hlive, ?_, fun oob oldsize => ?_⟩
  · unfold Maps.HasRoom
    decide +kernel
  · obtain ⟨-, hno, -⟩ | ⟨-, heq⟩ := htidy.sysWremap_cases (fun i hi => (hlive i hi).1)
      (k := 0) (by decide +kernel) (by decide) oob oldsize 8192#32 (by decide)
    · exact absurd hgap hno
    · rw [heq]

end Xv6Mmap
