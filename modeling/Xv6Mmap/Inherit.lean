import Xv6Mmap.ForkPages

/-!
# The child of a `fork` (`proc.c:324-407`)

`fork` passes on the `MAP_PRIVATE` and `MAP_SHARED` entries of the parent, each to the slot that it
has there, and counts them.

* `fork_table_iff`: the child's table is in order exactly if the entries passed on are the first
  ones of the parent, in order. An entry with neither flag before one that is passed on leaves a
  hole, and the count no longer covers what is behind it (`fork_leaves_hole`).
* `fork_pages_iff`: the child gets the parent's pages exactly if every page of the mappings passed
  on is loaded. The loops do not look at the present bit, so a page that was never touched becomes a
  copy of physical page zero, or physical page zero itself (`fork_invents_page`).
-/

namespace Xv6Mmap

open Lib
open Function (update_self update_of_ne)

/-! ## The child's table -/

/-- The child's table after the first `n` slots of the parent. -/
def Maps.inheritFirst (parent : Maps) : Nat → Maps
  | 0 => Maps.init
  | n + 1 =>
    if (parent.arr n).Inherited then (parent.inheritFirst n).inherit parent n
    else parent.inheritFirst n

/-- How many of the first `n` slots of the parent are passed on. -/
def Maps.inheritedBelow (parent : Maps) : Nat → Nat
  | 0 => 0
  | n + 1 => parent.inheritedBelow n + if (parent.arr n).Inherited then 1 else 0

theorem forkEntry_maps {cur np np' : Proc} {k k' : Kmem} {i : Nat}
    (h : forkEntry cur np k i = .ok (k', np')) :
    np'.maps = if (cur.maps.arr i).Inherited then np.maps.inherit cur.maps i else np.maps := by
  obtain ⟨hnot, -, rfl⟩ | ⟨hinh, d, rfl, -⟩ := forkEntry_cases h
  · rw [if_neg hnot]
  · rw [if_pos hinh]

theorem forkEntries_append {cur : Proc} {is js : List Nat} :
    ∀ {k k' : Kmem} {np np' : Proc}, forkEntries cur (is ++ js) k np = .ok (k', np') →
      ∃ k1 np1, forkEntries cur is k np = .ok (k1, np1) ∧
        forkEntries cur js k1 np1 = .ok (k', np') := by
  induction is with
  | nil => exact fun h => ⟨_, _, rfl, h⟩
  | cons i is ih =>
    intro k k' np np' h
    rw [List.cons_append, forkEntries] at h
    rcases he : forkEntry cur np k i with _ | r <;> rw [he] at h
    · cases h
    obtain ⟨k1, np1, h1, h2⟩ := ih h
    refine ⟨k1, np1, ?_, h2⟩
    rw [forkEntries, he]
    exact h1

theorem forkEntries_maps {cur np : Proc} {k : Kmem} (hinit : np.maps = Maps.init) :
    ∀ {n : Nat} {k' : Kmem} {np' : Proc}, forkEntries cur (List.range n) k np = .ok (k', np') →
      np'.maps = cur.maps.inheritFirst n
  | 0, _, _, h => by
    cases h
    exact hinit
  | n + 1, k', np', h => by
    rw [List.range_succ] at h
    obtain ⟨k1, np1, h1, h2⟩ := forkEntries_append h
    rw [forkEntries] at h2
    rcases he : forkEntry cur np1 k1 n with _ | r <;> rw [he] at h2
    · cases h2
    cases h2
    rw [forkEntry_maps he, forkEntries_maps hinit h1]
    rfl

section Table

variable (parent : Maps)

theorem Maps.inheritFirst_total :
    ∀ n, (parent.inheritFirst n).total = parent.inheritedBelow n
  | 0 => rfl
  | n + 1 => by
    have ih := Maps.inheritFirst_total n
    unfold Maps.inheritFirst Maps.inheritedBelow
    by_cases hinh : (parent.arr n).Inherited
    · rw [if_pos hinh, if_pos hinh]
      change (parent.inheritFirst n).total + 1 = _
      rw [ih]
      rfl
    · rw [if_neg hinh, if_neg hinh]
      exact ih

theorem Maps.inheritFirst_arr (i : Nat) :
    ∀ n, (parent.inheritFirst n).arr i =
      if i < n ∧ (parent.arr i).Inherited then parent.arr i else MemBlock.empty
  | 0 => (if_neg fun h => absurd h.1 (Nat.not_lt_zero i)).symm
  | n + 1 => by
    have ih := Maps.inheritFirst_arr i n
    unfold Maps.inheritFirst
    by_cases hinh : (parent.arr n).Inherited
    · rw [if_pos hinh]
      by_cases hi : i = n
      · subst hi
        rw [if_pos ⟨Nat.lt_succ_self i, hinh⟩]
        exact update_self ..
      · refine (update_of_ne hi ..).trans (ih.trans ?_)
        exact if_congr (and_congr_left fun _ => by omega) rfl rfl
    · rw [if_neg hinh, ih]
      refine if_congr ⟨fun h => ⟨by omega, h.2⟩, fun h => ⟨?_, h.2⟩⟩ rfl rfl
      rcases Nat.lt_succ_iff_lt_or_eq.mp h.1 with hlt | rfl
      · exact hlt
      · exact absurd h.2 hinh

/-- What `sys_getwmapinfo` reports of an entry that was passed on is what the parent has. -/
theorem Maps.inheritFirst_info {i : Nat} (hi : (parent.arr i).Inherited) :
    ∀ {n}, i < n → (parent.inheritFirst n).wmapinfo.addr i = parent.wmapinfo.addr i ∧
      (parent.inheritFirst n).wmapinfo.length i = parent.wmapinfo.length i
  | n + 1, hlt => by
    unfold Maps.inheritFirst
    by_cases hin : i = n
    · subst hin
      rw [if_pos hi]
      exact ⟨update_self .., update_self ..⟩
    · have ih := Maps.inheritFirst_info hi (n := n) (by omega)
      by_cases hinh : (parent.arr n).Inherited
      · rw [if_pos hinh]
        exact ⟨(update_of_ne hin ..).trans ih.1,
          (update_of_ne hin ..).trans ih.2⟩
      · rw [if_neg hinh]
        exact ih

theorem Maps.inheritedBelow_le : ∀ n, parent.inheritedBelow n ≤ n
  | 0 => le_rfl
  | n + 1 => by
    have := Maps.inheritedBelow_le n
    unfold Maps.inheritedBelow
    split <;> omega

/-- The entries passed on come before the others. -/
def Maps.InheritsPrefix : Prop :=
  ∀ i j, i < j → j < maxWmmapInfo → (parent.arr j).Inherited → (parent.arr i).Inherited

/-- The entries passed on are in order. -/
def Maps.InheritsSorted : Prop :=
  ∀ i j, i ≤ j → j < maxWmmapInfo → (parent.arr i).Inherited → (parent.arr j).Inherited →
    (parent.arr i).start ≤ (parent.arr j).start

variable {parent}

/-- If the entries passed on come first, their number says which ones they are. -/
theorem Maps.InheritsPrefix.inherited_iff (h : parent.InheritsPrefix) :
    ∀ {n}, n ≤ maxWmmapInfo → ∀ i < n, (parent.arr i).Inherited ↔ i < parent.inheritedBelow n
  | 0, _, i, hi => absurd hi (Nat.not_lt_zero i)
  | n + 1, hn, i, hi => by
    have ih := Maps.InheritsPrefix.inherited_iff h (n := n) (by omega)
    have hle := parent.inheritedBelow_le n
    unfold Maps.inheritedBelow
    by_cases hinh : (parent.arr n).Inherited
    · -- then all before it are passed on as well
      have hall : parent.inheritedBelow n = n := by
        by_contra hne
        have hlt : parent.inheritedBelow n < n := by omega
        exact absurd ((ih _ hlt).mp (h _ n hlt hn hinh)) (lt_irrefl _)
      rw [if_pos hinh, hall]
      rcases Nat.lt_succ_iff_lt_or_eq.mp hi with hlt | rfl
      · exact iff_of_true (h i n hlt hn hinh) hi
      · exact iff_of_true hinh hi
    · rw [if_neg hinh, Nat.add_zero]
      rcases Nat.lt_succ_iff_lt_or_eq.mp hi with hlt | rfl
      · exact ih i hlt
      · exact iff_of_false hinh (by omega)

end Table

/-- The child's table is in order: the used entries come first, sorted, each the parent's, and the
calls of the child that look for an entry find all that were passed on. -/
structure Maps.WellInherited (parent child : Maps) : Prop where
  shape : child.Shape
  sorted : ∀ i j, i ≤ j → j < child.count → (child.arr i).start ≤ (child.arr j).start
  equal : ∀ i < child.count, child.arr i = parent.arr i
  found : ∀ i < maxWmmapInfo, (parent.arr i).Inherited →
    ∃ j, child.findStart (parent.arr i).start = some j
  reported : ∀ i < maxWmmapInfo, (parent.arr i).Inherited → (i : Int) < child.total ∧
    ∀ w, (sysGetwmapinfo child w).addr i = parent.wmapinfo.addr i ∧
      (sysGetwmapinfo child w).length i = parent.wmapinfo.length i

theorem Maps.findStart_of_lt {m : Maps} {i : Nat} (hi : i < m.total.toNat) :
    ∃ j, m.findStart (m.arr i).start = some j := by
  cases hf : m.findStart (m.arr i).start with
  | some j => exact ⟨j, rfl⟩
  | none =>
    unfold Maps.findStart at hf
    rw [List.find?_eq_none] at hf
    exact absurd (hf i (List.mem_range.mpr hi)) (by simp)

theorem Maps.wellInherited_iff (parent : Maps) :
    parent.WellInherited (parent.inheritFirst maxWmmapInfo) ↔
      parent.InheritsPrefix ∧ parent.InheritsSorted := by
  have htotal := parent.inheritFirst_total maxWmmapInfo
  have hcount : (parent.inheritFirst maxWmmapInfo).count = parent.inheritedBelow maxWmmapInfo := by
    rw [Maps.count, htotal, Int.toNat_natCast]
  have hle := parent.inheritedBelow_le maxWmmapInfo
  have harr : ∀ i < maxWmmapInfo, (parent.arr i).Inherited →
      (parent.inheritFirst maxWmmapInfo).arr i = parent.arr i := fun i hi hinh => by
    rw [parent.inheritFirst_arr, if_pos ⟨hi, hinh⟩]
  have hvalid : ∀ i < maxWmmapInfo,
      ((parent.inheritFirst maxWmmapInfo).arr i).valid ≠ 0#32 ↔ (parent.arr i).Inherited := by
    intro i hi
    by_cases hinh : (parent.arr i).Inherited
    · rw [harr i hi hinh]
      exact iff_of_true hinh.1 hinh
    · rw [parent.inheritFirst_arr, if_neg fun h => hinh h.2]
      exact iff_of_false (fun h => h rfl) hinh
  constructor
  · intro h
    have hiff : ∀ i < maxWmmapInfo,
        (parent.arr i).Inherited ↔ i < parent.inheritedBelow maxWmmapInfo := fun i hi => by
      rw [← hvalid i hi, h.shape.2.2 i hi, htotal]
      exact Int.ofNat_lt
    refine ⟨fun i j hij hj hinh => ?_, fun i j hij hj hi hinh => ?_⟩
    · have := (hiff j hj).mp hinh
      exact (hiff i (by omega)).mpr (by omega)
    · have hsorted := h.sorted i j hij (by rw [hcount]; exact (hiff j hj).mp hinh)
      rw [harr i (by omega) hi, harr j hj hinh] at hsorted
      exact hsorted
  · rintro ⟨hpre, hsort⟩
    have hiff := hpre.inherited_iff le_rfl
    have hslot : ∀ i < parent.inheritedBelow maxWmmapInfo, (parent.arr i).Inherited := fun i hi =>
      (hiff i (by omega)).mpr hi
    refine ⟨⟨by omega, by omega, fun i hi => ?_⟩, fun i j hij hj => ?_, fun i hi => ?_,
      fun i hi hinh => ?_, fun i hi hinh => ?_⟩
    · rw [hvalid i hi, hiff i hi, htotal]
      exact Int.ofNat_lt.symm
    · rw [hcount] at hj
      rw [harr i (by omega) (hslot i (by omega)), harr j (by omega) (hslot j hj)]
      exact hsort i j hij (by omega) (hslot i (by omega)) (hslot j hj)
    · rw [hcount] at hi
      exact harr i (by omega) (hslot i hi)
    · rw [← harr i hi hinh]
      refine Maps.findStart_of_lt ?_
      rw [htotal, Int.toNat_natCast]
      exact (hiff i hi).mp hinh
    · have hlt : (i : Int) < (parent.inheritFirst maxWmmapInfo).total := by
        rw [htotal]
        exact Int.ofNat_lt.mpr ((hiff i hi).mp hinh)
      obtain ⟨haddr, hlength⟩ := Maps.inheritFirst_info parent hinh hi
      refine ⟨hlt, fun w => ?_⟩
      simp only [sysGetwmapinfo, if_pos hlt, haddr, hlength]
      exact ⟨trivial, trivial⟩

theorem fork_maps {s s' : Sys} {i j : Fin nproc} (hlive : (s.proc i).state.live = true)
    (h : fork s i = .ok (some j, s')) :
    (s'.proc j).maps = (s.proc i).maps.inheritFirst maxWmmapInfo := by
  obtain ⟨s1, d, k, k', np, np', -, -, -, -, hinit, -, hfe, -, -, hmaps, -⟩ := fork_child hlive h
  rw [hmaps, forkEntries_maps hinit hfe]

/-- **When the child's table is in order**: if the entries passed on are the first ones of the
parent, in order. The statement is about forks that return a child. A parent with a mapping in a
4 MB region of which it has touched no page has no page table there, and its `fork` reads a PTE
through a null pointer (`badDeref`): such forks do not return, and are not in it. -/
theorem fork_table_iff (s s' : Sys) (i j : Fin nproc) (hlive : (s.proc i).state.live = true)
    (h : fork s i = .ok (some j, s')) :
    (s.proc i).maps.WellInherited (s'.proc j).maps ↔
      (s.proc i).maps.InheritsPrefix ∧ (s.proc i).maps.InheritsSorted := by
  rw [fork_maps hlive h]
  exact (s.proc i).maps.wellInherited_iff

instance (m : Maps) : Decidable m.InheritsPrefix :=
  decidable_of_iff (∀ j < maxWmmapInfo, ∀ i < j, (m.arr j).Inherited → (m.arr i).Inherited)
    ⟨fun h i j hij hj => h j hj i hij, fun h j hj i hij => h i j hij hj⟩

instance (m : Maps) : Decidable m.InheritsSorted :=
  decidable_of_iff (∀ j < maxWmmapInfo, ∀ i < j + 1, (m.arr i).Inherited → (m.arr j).Inherited →
      (m.arr i).start ≤ (m.arr j).start)
    ⟨fun h i j hij hj => h j hj i (by omega), fun h j hj i hij => h i j (by omega) hj⟩

/-- One shared page. -/
def onePage : List (Word × Word) := [(4096#32, mapAnonymous ||| mapShared)]

theorem fork_table_iff_one :
    ∃ s t t', userinit (Kmem.initial 200) (fun _ => 0#8) = .ok s ∧
      run step s (wmapActions 0 onePage ++ [(0, .call (.fault 0x60000000#32 noFile))]) = .ok t ∧
      fork t 0 = .ok (some 1, t') ∧ (t'.proc 1).maps.total = 1 ∧
      (t.proc 0).maps.WellInherited (t'.proc 1).maps := by
  obtain ⟨s, hs, hboot, hnd, hroom⟩ := exists_booted
  obtain ⟨t, t', hr, ht, hf⟩ := hboot.loadFork KernelImage.sample_linked hnd hroom
    onePage rfl 0x60000000#32 (l := 0) (by decide +kernel) (by decide +kernel)
    (by decide) (by decide) (by decide +kernel) (by decide +kernel) (by decide +kernel)
  refine ⟨s, t, t', hs, hr, hf, ?_, ?_⟩
  · rw [fork_maps ht.live hf, ht.maps]
    decide +kernel
  · refine (fork_table_iff t t' 0 1 ht.live hf).mpr ?_
    rw [ht.maps]
    decide +kernel

/-- A page that is not passed on, and behind it a shared one. -/
def skippedFirst : List (Word × Word) :=
  [(4096#32, mapAnonymous), (4096#32, mapAnonymous ||| mapShared)]

/-- The child counts one mapping, but its first slot is empty: it cannot find the mapping it got. -/
theorem fork_leaves_hole :
    ∃ s t t', userinit (Kmem.initial 200) (fun _ => 0#8) = .ok s ∧
      run step s (wmapActions 0 skippedFirst ++ [(0, .call (.fault 0x60001000#32 noFile))]) = .ok t ∧
      (t.proc 0).maps.Shape ∧ fork t 0 = .ok (some 1, t') ∧ (t'.proc 1).maps.total = 1 ∧
      ((t'.proc 1).maps.arr 0).valid = 0#32 ∧
      (t'.proc 1).maps.arr 1 = (t.proc 0).maps.arr 1 ∧
      ((t'.proc 1).maps.arr 1).start = 0x60001000#32 ∧
      (t'.proc 1).maps.findStart 0x60001000#32 = none ∧
      ¬ (t.proc 0).maps.WellInherited (t'.proc 1).maps := by
  obtain ⟨s, hs, hboot, hnd, hroom⟩ := exists_booted
  obtain ⟨t, t', hr, ht, hf⟩ := hboot.loadFork KernelImage.sample_linked hnd hroom
    skippedFirst rfl 0x60001000#32 (l := 1) (by decide +kernel) (by decide +kernel)
    (by decide) (by decide) (by decide +kernel) (by decide +kernel) (by decide +kernel)
  have hchild := fork_maps ht.live hf
  refine ⟨s, t, t', hs, hr, ?_, hf, ?_, ?_, ?_, ?_, ?_, fun hwell => ?_⟩
  · rw [ht.maps]
    decide +kernel
  · rw [hchild, ht.maps]
    decide +kernel
  · rw [hchild, ht.maps]
    decide +kernel
  · rw [hchild, ht.maps]
    decide +kernel
  · rw [hchild, ht.maps]
    decide +kernel
  · rw [hchild, ht.maps]
    decide +kernel
  · rw [hchild, Maps.wellInherited_iff, ht.maps] at hwell
    exact absurd hwell.1 (by decide +kernel)

/-! ## The child's pages -/

/-- The pages that `fork` of the process needs at most. -/
def Proc.forkNeeds (p : Proc) : Nat :=
  85 + 2 * ((p.sz.toNat + 4095) / 4096) + 2 * p.maps.forkPages (List.range maxWmmapInfo)

/-- The child in slot `j` has the pages of the mappings that the parent in slot `i` passed on, copies
of those that are private, and the parent's page table is as it was. -/
structure PagesDuplicated (s s' : Sys) (i j : Fin nproc) : Prop where
  parent : (s'.proc i).pgdir = (s.proc i).pgdir
  present_eq : ∀ x < maxWmmapInfo, ((s.proc i).maps.arr x).Inherited →
    ∀ n, ((s.proc i).maps.arr x).Inside n →
      present ((s'.proc j).pgdir.entry n) = present ((s.proc i).pgdir.entry n)
  copied : ∀ x < maxWmmapInfo, ((s.proc i).maps.arr x).Inherited →
    hasFlag ((s.proc i).maps.arr x).flags mapPrivate = true →
    ∀ n, ((s.proc i).maps.arr x).Inside n → present ((s.proc i).pgdir.entry n) = true →
      p2v (pteAddr ((s'.proc j).pgdir.entry n)) ∈ s.kmem.freelist ∧
        p2v (pteAddr ((s'.proc j).pgdir.entry n)) ∉ s'.kmem.freelist ∧
        s'.kmem.mem (p2v (pteAddr ((s'.proc j).pgdir.entry n)))
          = s.kmem.mem (p2v (pteAddr ((s.proc i).pgdir.entry n)))
  shared : ∀ x < maxWmmapInfo, ((s.proc i).maps.arr x).Inherited →
    hasFlag ((s.proc i).maps.arr x).flags mapPrivate = false →
    ∀ n, ((s.proc i).maps.arr x).Inside n → present ((s.proc i).pgdir.entry n) = true →
      pteAddr ((s'.proc j).pgdir.entry n) = pteAddr ((s.proc i).pgdir.entry n)

/-- What `fork` makes of every page of the mappings passed on, loaded or not. -/
theorem fork_duplicates {s s' : Sys} {i j : Fin nproc} (him : s.kmem.image.Linked)
    (hnd : s.kmem.freelist.Nodup) (hlive : (s.proc i).state.live = true)
    (hsz : (s.proc i).sz.toNat ≤ 0x80000000)
    (hpaged : ∀ x < maxWmmapInfo, ((s.proc i).maps.arr x).Inherited →
      ((s.proc i).maps.arr x).Paged)
    (hroom : (s.proc i).forkNeeds ≤ s.kmem.freelist.length)
    (h : fork s i = .ok (some j, s')) :
    (s'.proc i).pgdir = (s.proc i).pgdir ∧
      ∀ x < maxWmmapInfo, ((s.proc i).maps.arr x).Inherited →
        ∀ n, ((s.proc i).maps.arr x).Inside n →
          Duplicate ((s.proc i).maps.arr x) (s.proc i).pgdir s.kmem s'.kmem
            (s'.proc j).pgdir n := by
  obtain ⟨s1, d, k, k', np, np', ha, -, -, hc, -, -, hfe, hk', hpi, -, hdir⟩ := fork_child hlive h
  unfold Proc.forkNeeds at hroom
  have hd1 := (allocproc_took ha).toDrawn
  have hlen1 := hd1.length
  have hd2 := copyuvm_drawn (by rw [hd1.image]; exact him) hsz (by omega) hc
  have hd := hd1.trans hd2
  have hlen := hd.length
  have hpages := forkEntries_pages (fun x hx => hpaged x (List.mem_range.mp hx)) (hd.nodup hnd)
    (by omega) hfe
  refine ⟨by rw [hpi], fun x hx hinh n hn => ?_⟩
  rw [hk', hdir]
  exact (hpages.copy x (List.mem_range.mpr hx) hinh n hn).earlier hd

/-- **When the child gets the parent's pages**: if every page of the mappings passed on is loaded. -/
theorem fork_pages_iff (s s' : Sys) (i j : Fin nproc) (him : s.kmem.image.Linked)
    (hk : s.kmem.Sound) (hnd : s.kmem.freelist.Nodup) (hlive : (s.proc i).state.live = true)
    (hsz : (s.proc i).sz.toNat ≤ 0x80000000)
    (hpaged : ∀ x < maxWmmapInfo, ((s.proc i).maps.arr x).Inherited →
      ((s.proc i).maps.arr x).Paged)
    (howned : ∀ x < maxWmmapInfo, ((s.proc i).maps.arr x).Inherited →
      ∀ n, ((s.proc i).maps.arr x).Inside n → present ((s.proc i).pgdir.entry n) = true →
        p2v (pteAddr ((s.proc i).pgdir.entry n)) ∉ s.kmem.freelist)
    (hroom : (s.proc i).forkNeeds ≤ s.kmem.freelist.length)
    (h : fork s i = .ok (some j, s')) :
    PagesDuplicated s s' i j ↔
      ∀ x < maxWmmapInfo, ((s.proc i).maps.arr x).Inherited →
        ∀ n, ((s.proc i).maps.arr x).Inside n → present ((s.proc i).pgdir.entry n) = true := by
  obtain ⟨hparent, hdup⟩ := fork_duplicates him hnd hlive hsz hpaged hroom h
  constructor
  · intro hall x hx hinh n hn
    rw [← hall.present_eq x hx hinh n hn]
    exact (hdup x hx hinh n hn).present
  · intro hloaded
    refine ⟨hparent, fun x hx hinh n hn => ?_, fun x hx hinh hpriv n hn hp => ?_,
      fun x hx hinh hpriv n hn hp => ?_⟩
    · rw [(hdup x hx hinh n hn).present, hloaded x hx hinh n hn]
    · cases hdup x hx hinh n hn with
      | copied mem _ hmem hnot hentry hbytes =>
        have hal := KernelImage.aligned_of_isPage (hk mem hmem)
        rw [hentry, p2v_pteAddr_or hal (by decide)]
        exact ⟨hmem, hnot, hbytes (howned x hx hinh n hn hp)⟩
      | shared hpriv' _ =>
        rw [hpriv] at hpriv'
        cases hpriv'
    · cases hdup x hx hinh n hn with
      | copied _ hpriv' _ _ _ _ =>
        rw [hpriv] at hpriv'
        cases hpriv'
      | shared _ hentry =>
        rw [hentry, pteAddr_or (by rw [pteAddr_toNat]; omega) (by decide)]

/-- One private page. -/
def onePrivate : List (Word × Word) := [(4096#32, mapAnonymous ||| mapPrivate)]

theorem fork_pages_iff_private :
    ∃ s t t', userinit (Kmem.initial 200) (fun _ => 0#8) = .ok s ∧
      run step s (wmapActions 0 onePrivate ++ [(0, .call (.fault 0x60000000#32 noFile))]) = .ok t ∧
      fork t 0 = .ok (some 1, t') ∧ present ((t.proc 0).pgdir.entry 0x60000) = true ∧
      PagesDuplicated t t' 0 1 := by
  obtain ⟨s, hs, hboot, hnd, hroom⟩ := exists_booted
  obtain ⟨t, t', hr, ht, hf⟩ := hboot.loadFork KernelImage.sample_linked hnd hroom
    onePrivate rfl 0x60000000#32 (l := 0) (by decide +kernel) (by decide +kernel)
    (by decide) (by decide) (by decide +kernel) (by decide +kernel) (by decide +kernel)
  have harr : (t.proc 0).maps.arr = (wmapAll 1 Maps.init onePrivate).arr := by
    rw [ht.maps]
    rfl
  -- the only page of the only mapping
  have honly : ∀ x < maxWmmapInfo, ((wmapAll 1 Maps.init onePrivate).arr x).Inherited →
      vpn ((wmapAll 1 Maps.init onePrivate).arr x).start = 0x60000 ∧
        ((wmapAll 1 Maps.init onePrivate).arr x).stopPage = 0x60001 ∧
        ((wmapAll 1 Maps.init onePrivate).arr x).UnderTable 0x60000000#32 := by decide +kernel
  have hpage : ∀ x < maxWmmapInfo, ((t.proc 0).maps.arr x).Inherited →
      ∀ n, ((t.proc 0).maps.arr x).Inside n → n = 0x60000 := by
    intro x hx hinh n hn
    rw [harr] at hinh hn
    obtain ⟨hfirst, hstop, hu⟩ := honly x hx hinh
    rw [MemBlock.inside_iff hu.aligned] at hn
    omega
  refine ⟨s, t, t', hs, hr, hf, ht.present, ?_⟩
  refine (fork_pages_iff t t' 0 1 (by rw [ht.image]; exact KernelImage.sample_linked) ht.sound
    ht.nodup ht.live (by rw [ht.sz]; decide) (fun x hx hinh => ?_) (fun x hx hinh n hn hp => ?_) ?_
    hf).mpr fun x hx hinh n hn => ?_
  · rw [harr] at hinh ⊢
    exact (honly x hx hinh).2.2.toPaged
  · rw [hpage x hx hinh n hn]
    exact ht.owned
  · have hneeds : (t.proc 0).maps.forkPages (List.range maxWmmapInfo) = 1 := by
      rw [Maps.forkPages_congr harr]
      decide +kernel
    have hsz : ((t.proc 0).sz.toNat + 4095) / 4096 = 1 := by
      rw [ht.sz]
      decide
    have := ht.room
    unfold Proc.forkNeeds
    omega
  · rw [hpage x hx hinh n hn]
    exact ht.present

/-- Two shared pages. -/
def twoShared : List (Word × Word) := [(8192#32, mapAnonymous ||| mapShared)]

/-- The second page was never touched; the child has physical page zero there. -/
theorem fork_invents_page :
    ∃ s t t', userinit (Kmem.initial 200) (fun _ => 0#8) = .ok s ∧
      run step s (wmapActions 0 twoShared ++ [(0, .call (.fault 0x60000000#32 noFile))]) = .ok t ∧
      fork t 0 = .ok (some 1, t') ∧ ((t.proc 0).maps.arr 0).Inherited ∧
      ((t.proc 0).maps.arr 0).Inside 0x60001 ∧
      present ((t.proc 0).pgdir.entry 0x60001) = false ∧
      present ((t'.proc 1).pgdir.entry 0x60001) = true ∧
      pteAddr ((t'.proc 1).pgdir.entry 0x60001) = 0#32 ∧ ¬ PagesDuplicated t t' 0 1 := by
  obtain ⟨s, hs, hboot, hnd, hroom⟩ := exists_booted
  obtain ⟨t, t', hr, ht, hf⟩ := hboot.loadFork KernelImage.sample_linked hnd hroom
    twoShared rfl 0x60000000#32 (l := 0) (by decide +kernel) (by decide +kernel)
    (by decide) (by decide) (by decide +kernel) (by decide +kernel) (by decide +kernel)
  have harr : (t.proc 0).maps.arr = (wmapAll 1 Maps.init twoShared).arr := by
    rw [ht.maps]
    rfl
  have hunder : ∀ x < maxWmmapInfo, ((wmapAll 1 Maps.init twoShared).arr x).Inherited →
      ((wmapAll 1 Maps.init twoShared).arr x).UnderTable 0x60000000#32 := by decide +kernel
  have hinh : ((t.proc 0).maps.arr 0).Inherited := by
    rw [harr]
    decide +kernel
  have hin : ((t.proc 0).maps.arr 0).Inside 0x60001 := by
    rw [harr]
    unfold MemBlock.Inside
    decide +kernel
  have hzero : (t.proc 0).pgdir.entry 0x60001 = 0#32 :=
    ht.rest 0x60001 (by decide) (by decide) (by decide)
  have hneeds : (t.proc 0).forkNeeds ≤ t.kmem.freelist.length := by
    have hpages : (t.proc 0).maps.forkPages (List.range maxWmmapInfo) = 2 := by
      rw [Maps.forkPages_congr harr]
      decide +kernel
    have hsz : ((t.proc 0).sz.toNat + 4095) / 4096 = 1 := by
      rw [ht.sz]
      decide
    have := ht.room
    unfold Proc.forkNeeds
    omega
  obtain ⟨-, hdup⟩ := fork_duplicates (by rw [ht.image]; exact KernelImage.sample_linked)
    ht.nodup ht.live (by rw [ht.sz]; decide)
    (fun x hx hinh => by rw [harr] at hinh ⊢; exact (hunder x hx hinh).toPaged) hneeds hf
  have hpage := hdup 0 (by decide) hinh 0x60001 hin
  have habsent : present ((t.proc 0).pgdir.entry 0x60001) = false := by
    rw [hzero]
    exact present_zero
  have hpresent : present ((t'.proc 1).pgdir.entry 0x60001) = true := hpage.present
  refine ⟨s, t, t', hs, hr, hf, hinh, hin, habsent, hpresent, ?_, fun hall => ?_⟩
  · cases hpage with
    | copied _ hpriv _ _ _ _ =>
      rw [harr] at hpriv
      exact absurd hpriv (by decide +kernel)
    | shared _ hentry =>
      rw [hentry, hzero]
      decide
  · have := hall.present_eq 0 (by decide) hinh 0x60001 hin
    rw [hpresent, habsent] at this
    cases this

end Xv6Mmap
