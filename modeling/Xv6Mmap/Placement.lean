import Xv6Mmap.TableRuns

/-!
# Where mappings are placed (`sysfile.c:627-706`, `sysfile.c:819-886`)

The three ways a mapping gets its interval: `MAP_FIXED`, the search of `sys_wmap` and `sys_wremap`,
and the growth in place of `sys_wremap`.

* `leftmostAddr_of_free` and `leftmostAddr_of_full` say what the search returns: the end of the
  last entry if a slot is free, else the last gap that is wide enough, else `MIN_ADDR`.
* `disjoint_of_guarded_run`: live mappings do not overlap, in every run whose calls avoid the cases
  the tests of the code miss (`Separates`).
  `fixed_twice_overlaps` is one of those cases.
-/

namespace Xv6Mmap

open Lib

/-! ## The search -/

/-- `prevEnd` when the search looks at slot `i`. -/
def prevEnd (arr : Nat → MemBlock) : Nat → Word
  | 0 => minAddr - 1#32
  | i + 1 => (arr i).end_

/-- The test of the search: the gap before slot `i`, as an `int`, is wider than `size`. -/
def gapFits (arr : Nat → MemBlock) (size : Word) (i : Nat) : Prop :=
  size.toInt < ((arr i).start - prevEnd arr i).toInt

instance (arr : Nat → MemBlock) (size : Word) (i : Nat) : Decidable (gapFits arr size i) :=
  inferInstanceAs (Decidable (_ < _))

variable {arr : Nat → MemBlock} {size : Word}

theorem searchFrom_of_free {c : Nat} (hfree : (arr c).valid = 0#32) :
    ∀ {n i : Nat} {leftmost : Word}, i ≤ c → c < i + n →
      (∀ j, i ≤ j → j < c → (arr j).valid ≠ 0#32) →
      searchFrom arr size n i (prevEnd arr i) leftmost = prevEnd arr c + 1#32
  | 0, i, _, hic, hlt, _ => by omega
  | n + 1, i, leftmost, hic, hlt, hused => by
    unfold searchFrom
    rcases Nat.eq_or_lt_of_le hic with rfl | hi
    · rw [if_pos hfree]
    · rw [if_neg (hused i le_rfl hi)]
      exact searchFrom_of_free hfree (by omega) (by omega) fun j hj => hused j (by omega)

/-- With used slots below `c` and slot `c` free, the search ends right after entry `c - 1`. -/
theorem leftmostAddr_of_free {c : Nat} (hc : c < maxWmmapInfo)
    (hused : ∀ j < c, (arr j).valid ≠ 0#32) (hfree : (arr c).valid = 0#32) :
    leftmostAddr arr size = prevEnd arr c + 1#32 :=
  searchFrom_of_free (i := 0) hfree (Nat.zero_le c) (by omega) fun j _ => hused j

theorem searchFrom_of_full (arr : Nat → MemBlock) (size : Word) :
    ∀ (n i : Nat) (leftmost : Word), (∀ j, i ≤ j → j < i + n → (arr j).valid ≠ 0#32) →
      (∃ l, i ≤ l ∧ l < i + n ∧ gapFits arr size l ∧
        (∀ j, l < j → j < i + n → ¬ gapFits arr size j) ∧
        searchFrom arr size n i (prevEnd arr i) leftmost = prevEnd arr l + 1#32) ∨
      ((∀ j, i ≤ j → j < i + n → ¬ gapFits arr size j) ∧
        searchFrom arr size n i (prevEnd arr i) leftmost = leftmost)
  | 0, i, _, _ => .inr ⟨fun j _ _ => by omega, rfl⟩
  | n + 1, i, leftmost, hused => by
    unfold searchFrom
    rw [if_neg (hused i le_rfl (by omega))]
    obtain ⟨l, hil, hln, hfit, hlast, heq⟩ | ⟨hnone, heq⟩ :=
      searchFrom_of_full arr size n (i + 1)
        (if size.toInt < ((arr i).start - prevEnd arr i).toInt then prevEnd arr i + 1#32
          else leftmost) fun j hj hjn => hused j (by omega) (by omega)
    · exact .inl ⟨l, by omega, by omega, hfit, fun j hj hjn => hlast j hj (by omega), heq⟩
    · by_cases hfit : gapFits arr size i
      · refine .inl ⟨i, le_rfl, by omega, hfit, fun j hj hjn => hnone j (by omega) (by omega), ?_⟩
        exact heq.trans (if_pos hfit)
      · refine .inr ⟨fun j hj hjn => ?_, heq.trans (if_neg hfit)⟩
        rcases Nat.eq_or_lt_of_le hj with rfl | hj
        · exact hfit
        · exact hnone j (by omega) (by omega)

/-- With no slot free, the search takes the last gap that fits, or `MIN_ADDR` if none does. -/
theorem leftmostAddr_of_full (hused : ∀ j < maxWmmapInfo, (arr j).valid ≠ 0#32) :
    (∃ l < maxWmmapInfo, gapFits arr size l ∧
      (∀ j, l < j → j < maxWmmapInfo → ¬ gapFits arr size j) ∧
      leftmostAddr arr size = prevEnd arr l + 1#32) ∨
    ((∀ j < maxWmmapInfo, ¬ gapFits arr size j) ∧ leftmostAddr arr size = minAddr) := by
  have hsearch := searchFrom_of_full arr size maxWmmapInfo 0 minAddr
    fun j _ hj => hused j (by omega)
  simp only [Nat.zero_add, Nat.zero_le, true_and, forall_true_left] at hsearch
  exact hsearch

/-! ## Slots past the count -/

/-- Every slot is used: either the table is full, or what is past the count is stale. -/
def Maps.AllUsed (m : Maps) : Prop := ∀ i < maxWmmapInfo, (m.arr i).valid ≠ 0#32

instance (m : Maps) : Decidable m.AllUsed := inferInstanceAs (Decidable (∀ i < 16, _))

/-- Past the count, all slots are free or all are stale. -/
def Maps.Tail (m : Maps) : Prop := m.TailFree ∨ m.AllUsed

variable {m : Maps} {i : Nat}

theorem Maps.Wf.used (h : m.Wf) (hi : i < m.count) :
    (m.arr i).valid ≠ 0#32 := by
  rw [(h.live i hi).1]
  decide

variable {rid : Rid} {e : Entry}

theorem Maps.AllUsed.inserted (h : m.AllUsed) :
    (m.inserted rid e).AllUsed := by
  intro i hi
  by_cases hi' : i ≤ m.count
  · by_cases hne : i = m.slotFor e
    · rw [hne, Maps.inserted_arr_self]
      exact (by decide : (1#32 : Word) ≠ 0#32)
    · rw [Maps.inserted_arr_of_ne hi' hne]
      exact h _ (by split <;> omega)
  · rw [Maps.inserted_arr_above (by omega)]
    exact h i hi

variable {addr : Word} {k : Nat}

theorem Maps.AllUsed.removed (h : m.AllUsed) (hk : k < 15) :
    (m.removed addr k).AllUsed := by
  intro i hi
  have hi' : i < 16 := hi
  by_cases hi15 : i < 15
  · rw [Maps.removed_arr hi15]
    exact h _ (by unfold maxWmmapInfo; split <;> omega)
  · rw [Maps.removed_arr_of_ne (by omega) (by omega)]
    exact h i hi

theorem Maps.Tail.inserted (hwf : m.Wf) (h : m.Tail) :
    (m.inserted rid e).Tail :=
  h.imp (fun ht => ht.inserted hwf) fun hu => hu.inserted

theorem Maps.Tail.removed (hwf : m.Wf) (h : m.Tail) (hk : k < m.count) :
    (m.removed addr k).Tail := by
  have hle : m.count ≤ 16 := hwf.count_le
  by_cases h15 : k = 15
  · have hfree : m.TailFree := fun i hi hlt => by
      have : i < 16 := hlt
      omega
    exact .inl (hfree.removed hwf hk (.inr h15))
  · rcases h with ht | hu
    · by_cases hfull : m.count = 16
      · refine .inr (Maps.AllUsed.removed (fun i hi => hwf.used ?_) (by omega))
        rw [hfull]
        exact hi
      · exact .inl (ht.removed hwf hk (.inl (by omega)))
    · exact .inr (hu.removed (by omega))

variable {m' : Maps}

theorem Maps.Tail.sameTable (h : m.Tail) (hs : m.SameTable m') : m'.Tail := by
  refine h.imp (fun ht => ht.sameTable hs) fun hu => ?_
  unfold Maps.AllUsed
  rw [hs.arr]
  exact hu

theorem Maps.Wf.count_lt (h : m.Wf) (hroom : m.total ≠ maxWmmapInfo) :
    m.count < maxWmmapInfo := by
  have := h.count_le
  have := h.total_eq
  omega

theorem Maps.Wf.count_removed_lt (h : m.Wf) (hk : m.FirstAt addr k) :
    (m.removed addr k).count < maxWmmapInfo := by
  have hcount : (m.removed addr k).count + 1 = m.count := h.count_removed hk.1
  have := h.count_le
  omega

theorem Maps.Effect.tail {pid : Nat} {c : Call} (hwf : m.Wf) (h : m.Tail) (he : m.Effect pid c m') :
    m'.Tail := by
  cases he with
  | same hs => exact h.sameTable hs
  | wmap _ _ _ => exact h.inserted hwf
  | wunmap _ hl hs => exact (h.sameTable hs).removed (hwf.sameTable hs) (hl.sameTable hs).1
  | remap _ hl _ => exact (h.removed hwf hl.1).inserted (hwf.removed_first hl)
  | move _ hl _ => exact (h.removed hwf hl.1).inserted (hwf.removed_first hl)

/-- Where the search of a table with room ends: at a free slot behind the last entry, or, if every
slot is used, at the last gap that fits or at `MIN_ADDR`. -/
theorem Maps.Tail.leftmostAddr_cases (hwf : m.Wf) (h : m.Tail) (hroom : m.count < maxWmmapInfo)
    (size : Word) :
    (¬ m.AllUsed ∧ leftmostAddr m.arr size = prevEnd m.arr m.count + 1#32) ∨
      (m.AllUsed ∧
        ((∃ l < maxWmmapInfo, gapFits m.arr size l ∧
            (∀ j, l < j → j < maxWmmapInfo → ¬ gapFits m.arr size j) ∧
            leftmostAddr m.arr size = prevEnd m.arr l + 1#32) ∨
          ((∀ j < maxWmmapInfo, ¬ gapFits m.arr size j) ∧ leftmostAddr m.arr size = minAddr))) := by
  by_cases hu : m.AllUsed
  · exact .inr ⟨hu, leftmostAddr_of_full hu⟩
  · have hfree : (m.arr m.count).valid = 0#32 := (h.resolve_right hu) _ le_rfl hroom
    exact .inl ⟨hu, leftmostAddr_of_free hroom (fun j hj => hwf.used hj) hfree⟩

/-! ## Rounded lengths -/

theorem pgRoundUp_of_pos {length : Word} (h : 1 ≤ length.toInt) :
    4096 ≤ (pgRoundUp length).toNat ∧ (pgRoundUp length).toNat ≤ 2 ^ 31 ∧
      (pgRoundUp length).toNat % 4096 = 0 := by
  have hlt := length.isLt
  rw [BitVec.toInt_eq_toNat_cond] at h
  rw [pgRoundUp_toNat]
  split at h <;> omega

theorem pgRoundUp_mod (sz : Word) : (pgRoundUp sz).toNat % 4096 = 0 := by
  rw [pgRoundUp_toNat]
  omega

/-! ## Mappings do not overlap -/

/-- The address is in the interval of the entry. -/
def MemBlock.Covers (b : MemBlock) (va : Word) : Prop := b.start ≤ va ∧ va ≤ b.end_

instance (b : MemBlock) (va : Word) : Decidable (b.Covers va) :=
  inferInstanceAs (Decidable (_ ∧ _))

/-- No address is in the intervals of two live mappings. -/
def Maps.Disjoint (m : Maps) : Prop :=
  ∀ i < m.count, ∀ j < m.count, i ≠ j → ∀ va, ¬ ((m.arr i).Covers va ∧ (m.arr j).Covers va)

/-- The intervals of the used entries, one after the other. An interval can be empty, with `end`
just below `start`: `sys_wremap` to a length that rounds to zero makes one. -/
structure Maps.Ordered (m : Maps) : Prop where
  extent : ∀ i < m.count, (m.arr i).start.toNat ≤ (m.arr i).end_.toNat + 1
  below : ∀ i j, i < j → j < m.count → (m.arr i).end_.toNat < (m.arr j).start.toNat

theorem Maps.Ordered.disjoint (h : m.Ordered) : m.Disjoint := by
  have hlt : ∀ i j, i < j → j < m.count → ∀ va,
      ¬ ((m.arr i).Covers va ∧ (m.arr j).Covers va) := by
    rintro i j hij hj va ⟨⟨-, hi⟩, hj', -⟩
    have := h.below i j hij hj
    rw [BitVec.le_def] at hi hj'
    omega
  intro i hi j hj hne va hboth
  rcases Nat.lt_or_gt_of_ne hne with h | h
  · exact hlt i j h hj va hboth
  · exact hlt j i h hi va hboth.symm

/-- The interval of `e` is above or below that of slot `i`. -/
def Maps.Apart (m : Maps) (e : Entry) (i : Nat) : Prop :=
  ((m.arr i).end_.toNat < e.start.toNat ∧ (m.arr i).start.toNat ≤ e.start.toNat) ∨
    (e.end_.toNat < (m.arr i).start.toNat ∧ e.start.toNat < (m.arr i).start.toNat)

theorem Maps.Ordered.inserted (hwf : m.Wf) (h : m.Ordered)
    (hext : e.start.toNat ≤ e.end_.toNat + 1) (hapart : ∀ i < m.count, m.Apart e i) :
    (m.inserted rid e).Ordered := by
  have hcount : (m.inserted rid e).count = m.count + 1 := hwf.count_inserted
  have hk : m.slotFor e ≤ m.count := Maps.slotFor_le
  -- the sorted position decides which side of `e` an entry is on
  have hlow : ∀ i < m.slotFor e, (m.arr i).end_.toNat < e.start.toNat := fun i hi => by
    have hle := hwf.le_of_lt_slotFor hi
    rw [BitVec.le_def] at hle
    rcases hapart i (by omega) with ⟨h', -⟩ | ⟨-, h'⟩ <;> omega
  have hhigh : ∀ i, m.slotFor e ≤ i → i < m.count → e.end_.toNat < (m.arr i).start.toNat :=
    fun i hi hlt => by
      have hgt := Maps.lt_of_slotFor_le hi hlt
      rw [BitVec.lt_def] at hgt
      rcases hapart i hlt with ⟨-, h'⟩ | ⟨h', -⟩ <;> omega
  constructor
  · intro i hi
    by_cases hne : i = m.slotFor e
    · rw [hne, Maps.inserted_arr_self]
      exact hext
    · rw [Maps.inserted_arr_of_ne (by omega) hne]
      exact h.extent _ (by split <;> omega)
  · intro i j hij hj
    by_cases hi : i = m.slotFor e
    · rw [hi, Maps.inserted_arr_self, Maps.inserted_arr_of_ne (by omega) (by omega),
        if_pos (by omega)]
      exact hhigh (j - 1) (by omega) (by omega)
    · rw [Maps.inserted_arr_of_ne (by omega) hi]
      by_cases hj' : j = m.slotFor e
      · rw [hj', Maps.inserted_arr_self, if_neg (by omega)]
        exact hlow i (by omega)
      · rw [Maps.inserted_arr_of_ne (by omega) hj']
        exact h.below _ _ (by split <;> split <;> omega) (by split <;> omega)

theorem Maps.Ordered.removed (hwf : m.Wf) (h : m.Ordered) (hk : k < m.count) :
    (m.removed addr k).Ordered := by
  have hcount : (m.removed addr k).count + 1 = m.count := hwf.count_removed hk
  have hle : m.count ≤ 16 := hwf.count_le
  constructor
  · intro i hi
    rw [Maps.removed_arr (by omega)]
    exact h.extent _ (by split <;> omega)
  · intro i j hij hj
    rw [Maps.removed_arr (by omega), Maps.removed_arr (by omega)]
    exact h.below _ _ (by split <;> split <;> omega) (by split <;> omega)

theorem Maps.Ordered.sameTable (h : m.Ordered) (hs : m.SameTable m') :
    m'.Ordered := by
  have hcount : m'.count = m.count := congrArg Int.toNat hs.total
  constructor
  · rw [hs.arr, hcount]
    exact h.extent
  · rw [hs.arr, hcount]
    exact h.below

variable {l : Nat}

/-- Every entry below slot `l` ends at or before the end of entry `l - 1`. -/
theorem Maps.Ordered.le_prevEnd (h : m.Ordered) (hil : i < l) (hl : l ≤ m.count) :
    (m.arr i).end_.toNat ≤ (prevEnd m.arr l).toNat ∧
      (m.arr i).start.toNat ≤ (prevEnd m.arr l).toNat + 1 := by
  obtain ⟨l, rfl⟩ : ∃ l', l = l' + 1 := ⟨l - 1, by omega⟩
  change _ ≤ (m.arr l).end_.toNat ∧ _ ≤ (m.arr l).end_.toNat + 1
  have hext := h.extent i (by omega)
  rcases Nat.lt_succ_iff_lt_or_eq.mp hil with hlt | rfl
  · have := h.below i l hlt (by omega)
    have := h.extent l (by omega)
    omega
  · omega

/-- A gap that the search accepts before a used entry is really there. -/
theorem Maps.Ordered.gap_real (h : m.Ordered) (hsize : size.toNat < 2 ^ 31) (hl : l < m.count)
    (hfit : gapFits m.arr size l) :
    (prevEnd m.arr l).toNat + size.toNat < (m.arr l).start.toNat := by
  have hprev : l = 0 ∧ prevEnd m.arr l = minAddr - 1#32 ∨
      (prevEnd m.arr l).toNat < (m.arr l).start.toNat := by
    cases l with
    | zero => exact .inl ⟨rfl, rfl⟩
    | succ l => exact .inr (h.below l (l + 1) (by omega) hl)
  unfold gapFits at hfit
  rw [BitVec.toInt_eq_toNat_cond, BitVec.toInt_eq_toNat_cond, BitVec.toNat_sub] at hfit
  have hmin : (minAddr - 1#32).toNat = 0x5FFFFFFF := by decide
  have := (m.arr l).start.isLt
  have := (prevEnd m.arr l).isLt
  rcases hprev with ⟨-, hp⟩ | hp
  · rw [hp, hmin] at hfit ⊢
    split at hfit <;> split at hfit <;> omega
  · split at hfit <;> split at hfit <;> omega

/-- What the tests of the `MAP_FIXED` case do not see: the interval wraps, or it has an endpoint in
common with an entry or encloses one. -/
def Maps.FixedSeparates (m : Maps) (addr length : Word) : Prop :=
  addr.toNat + (pgRoundUp length).toNat ≤ 2 ^ 32 ∧
    ∀ i < m.count, addr ≠ (m.arr i).end_ ∧ addr + pgRoundUp length - 1#32 ≠ (m.arr i).start ∧
      ¬ (addr ≤ (m.arr i).start ∧ (m.arr i).end_ ≤ addr + pgRoundUp length - 1#32)

/-- The search finds room: behind the last entry below the top of the address space, or, when every
slot is used, in a gap before an entry that counts or right behind the last one. -/
def Maps.SearchSeparates (m : Maps) (size : Word) : Prop :=
  (¬ m.AllUsed → (prevEnd m.arr m.count).toNat + size.toNat < 2 ^ 32) ∧
    (m.AllUsed → size.toNat < 2 ^ 31 ∧ (∃ i ≤ m.count, gapFits m.arr size i) ∧
      (∀ j < maxWmmapInfo, m.count < j → ¬ gapFits m.arr size j) ∧
      (gapFits m.arr size m.count → (prevEnd m.arr m.count).toNat + size.toNat < 2 ^ 32))

/-- The calls that keep live mappings apart. -/
def Separates (s : Kmem × Proc) : Call → Prop
  | .wmap addr length flags _ =>
    length.toInt < 1 ∨ s.2.maps.total = maxWmmapInfo ∨
      if hasFlag flags mapFixed then s.2.maps.fixedFits addr length → s.2.maps.FixedSeparates addr length
      else s.2.maps.SearchSeparates (pgRoundUp length)
  | .wremap oldaddr _ newsize flag oob =>
    ∀ l < maxWmmapInfo, s.2.maps.FirstAt oldaddr l →
      (s.2.maps.remapsInPlace oob l (oldaddr + pgRoundUp newsize) →
        oldaddr.toNat + (pgRoundUp newsize).toNat < 2 ^ 32 ∧
          ¬ (oldaddr = 0#32 ∧ pgRoundUp newsize = 0#32)) ∧
      (s.2.maps.remapsElsewhere oob l (oldaddr + pgRoundUp newsize) flag →
        1 ≤ newsize.toInt ∧ (s.2.maps.removed oldaddr l).SearchSeparates (pgRoundUp newsize))
  | _ => True

instance (m : Maps) (addr : Word) (k : Nat) : Decidable (m.FirstAt addr k) :=
  inferInstanceAs (Decidable (_ ∧ _ ∧ ∀ j < k, _))

instance (m : Maps) (addr length : Word) : Decidable (m.fixedFits addr length) :=
  inferInstanceAs (Decidable (_ ∧ ∀ i < 16, _))

instance (m : Maps) (addr length : Word) : Decidable (m.FixedSeparates addr length) :=
  inferInstanceAs (Decidable (_ ∧ ∀ i < m.count, _ ∧ _ ∧ _))

instance (m : Maps) (size : Word) : Decidable (m.SearchSeparates size) :=
  inferInstanceAs (Decidable ((_ → _) ∧ (_ → _ ∧ (∃ i ≤ m.count, gapFits m.arr size i) ∧
    (∀ j < maxWmmapInfo, m.count < j → ¬ gapFits m.arr size j) ∧ (_ → _))))

instance (m : Maps) (oob : MemBlock) (l : Nat) (end_ : Word) :
    Decidable (m.remapsInPlace oob l end_) :=
  inferInstanceAs (Decidable ((_ ∧ _) ∨ (_ ∧ _)))

instance (m : Maps) (oob : MemBlock) (l : Nat) (end_ flag : Word) :
    Decidable (m.remapsElsewhere oob l end_ flag) :=
  inferInstanceAs (Decidable (¬ (_ ∧ _) ∧ _ ∧ _))

instance (s : Kmem × Proc) : (c : Call) → Decidable (Separates s c)
  | .wmap _ _ flags _ =>
    inferInstanceAs (Decidable (_ ∨ _ ∨ if hasFlag flags mapFixed then _ → _ else _))
  | .wunmap .. => isTrue trivial
  | .wremap oldaddr .. =>
    inferInstanceAs (Decidable (∀ l < 16, s.2.maps.FirstAt oldaddr l → (_ → _ ∧ _) ∧ (_ → _ ∧ _)))
  | .fault .. => isTrue trivial

theorem Maps.FixedSeparates.apart {length : Word} (hwf : m.Wf) (h : m.Ordered)
    (hlen : 1 ≤ length.toInt) (hfits : m.fixedFits addr length)
    (hsep : m.FixedSeparates addr length) (hi : i < m.count) (flags fd : Word) :
    m.Apart ⟨addr, addr + pgRoundUp length - 1#32, flags, length, fd⟩ i := by
  obtain ⟨hround, -, -⟩ := pgRoundUp_of_pos hlen
  obtain ⟨hwrap, hsep⟩ := hsep
  obtain ⟨hne, hne', hin⟩ := hsep i hi
  have hsplit := hfits.2 i (by have := hwf.count_le; omega)
  have hext := h.extent i hi
  have hend : (addr + pgRoundUp length - 1#32).toNat = addr.toNat + (pgRoundUp length).toNat - 1 := by
    bv_omega
  simp only [MemBlock.splits, bne_iff_ne.mpr (hwf.used hi), Bool.true_and, Bool.or_eq_false_iff,
    Bool.and_eq_false_iff, decide_eq_false_iff_not] at hsplit
  simp only [BitVec.lt_def, BitVec.le_def, ne_eq, ← BitVec.toNat_inj, hend] at hsplit hne hne' hin
  unfold Maps.Apart
  simp only [hend]
  omega

/-- The search ends on an interval of `size` bytes apart from every used entry. -/
theorem Maps.SearchSeparates.spec (hwf : m.Wf) (ht : m.Tail) (h : m.Ordered)
    (hroom : m.count < maxWmmapInfo) (hsize : 4096 ≤ size.toNat) (hsep : m.SearchSeparates size) :
    (leftmostAddr m.arr size).toNat + size.toNat ≤ 2 ^ 32 ∧
      ∀ i < m.count,
        ((m.arr i).end_.toNat < (leftmostAddr m.arr size).toNat ∧
          (m.arr i).start.toNat ≤ (leftmostAddr m.arr size).toNat) ∨
        (leftmostAddr m.arr size).toNat + size.toNat ≤ (m.arr i).start.toNat := by
  -- an interval right behind entry `l - 1` that ends before entry `l` starts
  have hplace : ∀ l ≤ m.count, (prevEnd m.arr l).toNat + size.toNat < 2 ^ 32 →
      (l < m.count → (prevEnd m.arr l).toNat + size.toNat < (m.arr l).start.toNat) →
      (prevEnd m.arr l + 1#32).toNat + size.toNat ≤ 2 ^ 32 ∧
        ∀ i < m.count,
          ((m.arr i).end_.toNat < (prevEnd m.arr l + 1#32).toNat ∧
            (m.arr i).start.toNat ≤ (prevEnd m.arr l + 1#32).toNat) ∨
          (prevEnd m.arr l + 1#32).toNat + size.toNat ≤ (m.arr i).start.toNat := by
    intro l hl hwrap hgap
    have hsucc : (prevEnd m.arr l + 1#32).toNat = (prevEnd m.arr l).toNat + 1 := by bv_omega
    rw [hsucc]
    refine ⟨by omega, fun i hi => ?_⟩
    by_cases hil : i < l
    · have := h.le_prevEnd hil hl
      omega
    · have hgap := hgap (by omega)
      have hsort := hwf.sorted l i (by omega) hi
      rw [BitVec.le_def] at hsort
      omega
  obtain ⟨hnu, heq⟩ | ⟨hu, ⟨l, hl, hfit, hlast, heq⟩ | ⟨hnone, -⟩⟩ :=
    ht.leftmostAddr_cases hwf hroom size
  · rw [heq]
    exact hplace m.count le_rfl (hsep.1 hnu) fun hlt => absurd hlt (lt_irrefl _)
  · obtain ⟨hsmall, -, hstale, hcnt⟩ := hsep.2 hu
    have hle : l ≤ m.count := by
      by_contra hgt
      exact hstale l hl (by omega) hfit
    rw [heq]
    refine hplace l hle ?_ fun hlt => h.gap_real hsmall hlt hfit
    rcases Nat.eq_or_lt_of_le hle with rfl | hlt
    · exact hcnt hfit
    · have := h.gap_real hsmall hlt hfit
      have := (m.arr l).start.isLt
      omega
  · obtain ⟨-, ⟨i, hi, hfit⟩, -, -⟩ := hsep.2 hu
    exact absurd hfit (hnone i (by omega))

/-- An entry within the bytes the search found keeps the table ordered. -/
theorem Maps.SearchSeparates.ordered (hwf : m.Wf) (ht : m.Tail) (h : m.Ordered)
    (hroom : m.count < maxWmmapInfo) (hsize : 4096 ≤ size.toNat) (hsep : m.SearchSeparates size)
    (hstart : e.start = leftmostAddr m.arr size) (hlo : e.start.toNat ≤ e.end_.toNat + 1)
    (hhi : e.end_.toNat < e.start.toNat + size.toNat) :
    (m.inserted rid e).Ordered := by
  refine h.inserted hwf hlo fun i hi => ?_
  have hapart := (hsep.spec hwf ht h hroom hsize).2 i hi
  unfold Maps.Apart
  rw [← hstart] at hapart
  omega

theorem Maps.Ordered.remapped {oob : MemBlock} {oldaddr newsize flags fd : Word} (hwf : m.Wf)
    (h : m.Ordered) (hl : m.FirstAt oldaddr l)
    (hin : m.remapsInPlace oob l (oldaddr + pgRoundUp newsize))
    (hwrap : oldaddr.toNat + (pgRoundUp newsize).toNat < 2 ^ 32)
    (hzero : ¬ (oldaddr = 0#32 ∧ pgRoundUp newsize = 0#32)) :
    ((m.removed oldaddr l).inserted rid
      ⟨oldaddr, oldaddr + pgRoundUp newsize - 1#32, flags, newsize, fd⟩).Ordered := by
  have hcount : (m.removed oldaddr l).count + 1 = m.count := hwf.count_removed hl.1
  have hle : m.count ≤ 16 := hwf.count_le
  have hwf' := hwf.removed_first hl
  obtain ⟨hlt, hstart, -⟩ := hl
  have hpos : 0 < oldaddr.toNat + (pgRoundUp newsize).toNat := by
    simp only [← BitVec.toNat_inj, BitVec.toNat_ofNat] at hzero
    omega
  have hend : (oldaddr + pgRoundUp newsize - 1#32).toNat
      = oldaddr.toNat + (pgRoundUp newsize).toNat - 1 := by
    bv_omega
  refine (h.removed hwf hlt).inserted hwf' ?_ fun i hi => ?_
  · simp only [hend]
    omega
  unfold Maps.Apart
  rw [Maps.removed_arr (by omega)]
  simp only [hend]
  by_cases hli : l ≤ i
  · -- the entry after `l` is live, so the branch tested it
    right
    rw [if_pos hli]
    have hnext : m.next oob l = m.arr (l + 1) := if_pos (by unfold maxWmmapInfo; omega)
    have hgap : oldaddr + pgRoundUp newsize < (m.arr (l + 1)).start := by
      rcases hin with ⟨-, hgap⟩ | ⟨hfree, -⟩
      · rw [← hnext]
        exact hgap
      · rw [hnext] at hfree
        exact absurd hfree (hwf.used (by omega))
    have hsort := hwf.sorted (l + 1) (i + 1) (by omega) (by omega)
    have hnat : (oldaddr + pgRoundUp newsize).toNat
        = oldaddr.toNat + (pgRoundUp newsize).toNat := by
      bv_omega
    rw [BitVec.lt_def, hnat] at hgap
    rw [BitVec.le_def] at hsort
    omega
  · left
    rw [if_neg hli]
    have hbelow := h.below i l (by omega) hlt
    have hext := h.extent i (by omega)
    rw [hstart] at hbelow
    omega

theorem Maps.Effect.ordered {k : Kmem} {p : Proc} {c : Call} (hwf : p.maps.Wf) (ht : p.maps.Tail)
    (h : p.maps.Ordered) (hok : Separates (k, p) c) (he : p.maps.Effect p.pid c m') :
    m'.Ordered := by
  cases he with
  | same hs => exact h.sameTable hs
  | @wmap addr length flags fd hlen hroom hfix =>
    obtain ⟨hround, -, -⟩ := pgRoundUp_of_pos hlen
    have hok := (hok.resolve_left (by omega)).resolve_left hroom
    by_cases hf : hasFlag flags mapFixed = true
    · simp only [Maps.wmapStart, if_pos hf] at hok ⊢
      have hsep := hok (hfix hf)
      refine h.inserted hwf ?_ fun i hi => hsep.apart hwf h hlen (hfix hf) hi flags fd
      have := hsep.1
      change addr.toNat ≤ (addr + pgRoundUp length - 1#32).toNat + 1
      bv_omega
    · simp only [Maps.wmapStart, if_neg hf] at hok ⊢
      have hwrap := (hok.spec hwf ht h (hwf.count_lt hroom) hround).1
      refine hok.ordered hwf ht h (hwf.count_lt hroom) hround rfl ?_ ?_ <;> dsimp only <;> bv_omega
  | wunmap _ hl hs => exact (h.sameTable hs).removed (hwf.sameTable hs) (hl.sameTable hs).1
  | @remap oldaddr oldsize newsize flag oob l hal hl hin =>
    obtain ⟨hwrap, hzero⟩ := (hok l (lt_of_lt_of_le hl.1 hwf.count_le) hl).1 hin
    exact h.remapped hwf hl hin hwrap hzero
  | @move oldaddr oldsize newsize flag oob l hal hl hout =>
    obtain ⟨hlen, hsep⟩ := (hok l (lt_of_lt_of_le hl.1 hwf.count_le) hl).2 hout
    obtain ⟨hround, -, -⟩ := pgRoundUp_of_pos hlen
    have hwf' := hwf.removed_first hl
    have ht' : (p.maps.removed oldaddr l).Tail := ht.removed hwf hl.1
    have h' : (p.maps.removed oldaddr l).Ordered := h.removed hwf hl.1
    have hwrap := (hsep.spec hwf' ht' h' (hwf.count_removed_lt hl) hround).1
    refine hsep.ordered hwf' ht' h' (hwf.count_removed_lt hl) hround rfl ?_ ?_ <;> dsimp only <;>
      bv_omega

/-- **Mappings never overlap**, in every run whose calls avoid what the tests of the code miss. -/
theorem disjoint_of_guarded_run (k k' : Kmem) (p p' : Proc) (cs : List Call)
    (h0 : p.maps = Maps.init) (hg : Guarded callStep Separates (k, p) cs)
    (hr : run callStep (k, p) cs = .ok (k', p')) : p'.maps.Disjoint := by
  have hinv : p'.maps.Wf ∧ p'.maps.Tail ∧ p'.maps.Ordered := by
    refine run_invariant (fun s => s.2.maps.Wf ∧ s.2.maps.Tail ∧ s.2.maps.Ordered) ?_ ?_ hg hr
    · rintro s c s' ⟨hwf, ht, ho⟩ hok hc
      obtain ⟨r, hcall⟩ := callStep_ok hc
      have he := call_effect hwf hcall
      exact ⟨he.wf hwf, he.tail hwf ht, he.ordered hwf ht ho hok⟩
    · simp only [h0]
      exact ⟨Maps.wf_init, .inl fun _ _ _ => rfl, fun _ hi => absurd hi (Nat.not_lt_zero _),
        fun _ _ _ hj => absurd hj (Nat.not_lt_zero _)⟩
  exact hinv.2.2.disjoint

/-- Two mappings with a gap, the first grown into it, and one placed by the search. -/
def apartCalls : List Call :=
  [.wmap 0x60000000#32 4096#32 (mapFixed ||| mapAnonymous) 0#32,
    .wmap 0x60008000#32 4096#32 (mapFixed ||| mapAnonymous) 0#32,
    .wremap 0x60000000#32 4096#32 8192#32 0#32 MemBlock.empty,
    .wmap 0#32 4096#32 mapAnonymous 0#32]

theorem disjoint_of_guarded_run_three :
    ∃ k' p', run callStep (Kmem.exhausted, Proc.fresh 1) apartCalls = .ok (k', p') ∧
      p'.maps.count = 3 ∧ p'.maps.Disjoint := by
  obtain ⟨⟨k', p'⟩, hr, hcount⟩ := run_ok_of_eval callStep (Kmem.exhausted, Proc.fresh 1) apartCalls
    (fun s => s.2.maps.count == 3) (by decide +kernel)
  exact ⟨k', p', hr, by simpa using hcount,
    disjoint_of_guarded_run _ _ _ _ _ rfl (by decide +kernel) hr⟩

/-- The same `MAP_FIXED` request twice: neither endpoint is strictly inside the first mapping. -/
def sameFixedTwice : List Call :=
  List.replicate 2 (.wmap 0x60000000#32 4096#32 (mapFixed ||| mapAnonymous) 0#32)

theorem fixed_twice_overlaps :
    ∃ k' p', run callStep (Kmem.exhausted, Proc.fresh 1) sameFixedTwice = .ok (k', p') ∧
      p'.maps.count = 2 ∧ (p'.maps.arr 0).Covers 0x60000000#32 ∧
      (p'.maps.arr 1).Covers 0x60000000#32 ∧ ¬ p'.maps.Disjoint := by
  obtain ⟨⟨k', p'⟩, hr, hq⟩ := run_ok_of_eval callStep (Kmem.exhausted, Proc.fresh 1) sameFixedTwice
    (fun s => s.2.maps.count == 2 && decide ((s.2.maps.arr 0).Covers 0x60000000#32) &&
      decide ((s.2.maps.arr 1).Covers 0x60000000#32)) (by decide +kernel)
  simp only [Bool.and_eq_true, beq_iff_eq, decide_eq_true_eq] at hq
  obtain ⟨⟨hcount, h0⟩, h1⟩ := hq
  exact ⟨k', p', hr, hcount, h0, h1, fun hd =>
    hd 0 (by omega) 1 (by omega) (by omega) _ ⟨h0, h1⟩⟩

end Xv6Mmap
