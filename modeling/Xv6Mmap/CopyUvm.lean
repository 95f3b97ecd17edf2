import Xv6Mmap.Account

/-!
# Copying an address space (`vm.c:118-137`, `vm.c:314-346`)

`copyuvm` builds a page table from the kernel part up, and at every page and every table it may run
out of memory. The account of `Account.lean` says where its pages are at each of these points.

* `mapLoop_builds`, `setupRows_builds`: the kernel part, row by row. `kernelMap` is what the rows of
  `kmap` stand for.
* `Copied` is the state of the loop of `copyuvm`; `Copied.snoc` is one turn of it, with the new page
  in the caller's hands until it is mapped, and `copyLoop_copies` the whole loop.
* A directory that covers the same tables as the finished one has at most as many
  (`PgDir.Within.tabCount_le`), so the number of free pages decides the outcome before the call.
* **`copyuvm_copies_or_cleans_up`**: a copy on pages of its own, or a free list as before.
-/

namespace Xv6Mmap

open Lib

/-! ## The tables of a directory -/

/-- Every table of `d` is one of `F`. -/
def PgDir.Within (d : PgDir) (F : Finset Nat) : Prop := ∀ i, (d.pde i).isSome = true → i ∈ F

/-- The number of page tables. -/
def PgDir.tabCount (d : PgDir) : Nat := d.tabPages.card

/-- The number of pages below `MIN_ADDR`. -/
def PgDir.userCount (d : PgDir) : Nat := d.userPages.card

section Within

variable {d d' : PgDir} {F : Finset Nat} {n : Nat}

theorem PgDir.Within.walked (h : d.Within F) (hw : d.Walked d' n) (hn : n / 1024 ∈ F) :
    d'.Within F := by
  intro i hi
  have habs := hw.absent i
  by_cases he : i = n / 1024
  · exact he ▸ hn
  · refine h i ?_
    rw [decide_eq_true he, Bool.and_true] at habs
    rw [← Option.not_isNone] at hi ⊢
    rwa [← habs]

theorem PgDir.Within.setEntry {w : Word} (h : d.Within F) : (d.setEntry n w).Within F := by
  intro i hi
  refine h i ?_
  have := PgDir.isNone_setEntry (d := d) (n := n) (w := w) i
  rw [← Option.not_isNone] at hi ⊢
  rwa [← this]

theorem PgDir.tabCount_eq (d : PgDir) :
    d.tabCount = ((Finset.range 1024).filter fun i => (d.pde i).isSome = true).card := by
  unfold PgDir.tabCount PgDir.tabPages
  rw [card_holdings, Finset.card_filter]
  refine Finset.sum_congr rfl fun i _ => ?_
  cases hi : d.pde i with
  | none => rw [PgDir.tabAt_of_none hi]; rfl
  | some t => rw [PgDir.tabAt_of_some hi]; rfl

theorem PgDir.userCount_eq (d : PgDir) :
    d.userCount = ((Finset.range 0x60000).filter fun n => present (d.entry n) = true).card := by
  unfold PgDir.userCount PgDir.userPages
  rw [card_holdings, Finset.card_filter]
  refine Finset.sum_congr rfl fun n _ => ?_
  cases hp : present (d.entry n) with
  | false => rw [PgDir.userAt_of_absent hp]; rfl
  | true => rw [PgDir.userAt_of_present hp]; rfl

theorem PgDir.Within.tabCount_le (h : d.Within F) : d.tabCount ≤ F.card := by
  rw [PgDir.tabCount_eq]
  exact Finset.card_le_card fun i hi => h i (Finset.mem_filter.mp hi).2

theorem PgDir.Within.tabCount_lt (h : d.Within F) {i : Nat} (hi : i ∈ F) (hnone : d.pde i = none) :
    d.tabCount < F.card := by
  rw [PgDir.tabCount_eq]
  refine Finset.card_lt_card ⟨fun j hj => h j (Finset.mem_filter.mp hj).2, fun hsub => ?_⟩
  have := (Finset.mem_filter.mp (hsub hi)).2
  rw [hnone] at this
  cases this

theorem PgDir.Within.tabCount_of_all (h : d.Within F) (hF : ∀ i ∈ F, i < 1024)
    (hall : ∀ i ∈ F, (d.pde i).isSome = true) : d.tabCount = F.card := by
  rw [PgDir.tabCount_eq]
  refine congrArg Finset.card (Finset.ext fun i => ?_)
  rw [Finset.mem_filter, Finset.mem_range]
  exact ⟨fun hi => h i hi.2, fun hi => ⟨hF i hi, hall i hi⟩⟩

theorem PgDir.userCount_of_iff {c : Nat} (hc : c ≤ 0x60000)
    (h : ∀ n < 0x60000, present (d.entry n) = true ↔ n < c) : d.userCount = c := by
  rw [PgDir.userCount_eq]
  have : (Finset.range 0x60000).filter (fun n => present (d.entry n) = true) = Finset.range c := by
    ext n
    rw [Finset.mem_filter, Finset.mem_range, Finset.mem_range]
    exact ⟨fun hn => (h n hn.1).mp hn.2, fun hn => ⟨by omega, (h n (by omega)).mpr hn⟩⟩
  rw [this, Finset.card_range]

theorem Builds.length {k₀ k : Kmem} {hand : Multiset Word} (h : Builds k₀ hand k d) :
    k₀.freelist.length = 1 + d.tabCount + d.userCount + hand.card + k.freelist.length := by
  have hc := congrArg Multiset.card h.pages
  unfold PgDir.held at hc
  simp only [Multiset.coe_card, Multiset.card_add, Multiset.card_singleton] at hc
  unfold PgDir.tabCount PgDir.userCount
  omega

end Within

/-! ## Mapping above the user part -/

/-- A walk in a table under construction: it succeeds, or there is no free page for the table. -/
theorem Builds.walk_cases {k₀ k : Kmem} {hand : Multiset Word} {d : PgDir} (va : Word)
    (h : Builds k₀ hand k d) :
    (∃ k' d', walkpgdir k d va true = (true, k', d') ∧ Builds k₀ hand k' d' ∧
      d.Walked d' (vpn va)) ∨
    (walkpgdir k d va true = (false, k, d) ∧ k.freelist = [] ∧ d.pde (vpn va / 1024) = none) := by
  by_cases hroom : d.lacks (vpn va) ≤ k.freelist.length
  · obtain ⟨k', d', hw, -, hwalked⟩ := walkpgdir_took hroom
    exact .inl ⟨k', d', hw, h.walk hw, hwalked⟩
  · have hone := d.lacks_le_one (vpn va)
    exact .inr ⟨walkpgdir_fails (by omega), List.eq_nil_of_length_eq_zero (by omega),
      PgDir.pde_of_lacks (by omega)⟩

/-- Mapping pages above the user part: all of them, or up to one whose table cannot be had. -/
theorem mapLoop_builds {k₀ : Kmem} {hand : Multiset Word} {F : Finset Nat} {last : Word}
    (perm pa : Word) {j fuel : Nat} {k : Kmem} {d : PgDir} {a : Word} (hfuel : j < fuel) (hal : a.toNat % 4096 = 0)
    (hlast : last.toNat = a.toNat + 4096 * j) (huser : 0x60000 ≤ vpn a)
    (habs : ∀ i ≤ j, present (d.entry (vpn a + i)) = false)
    (hF : ∀ n, vpn a ≤ n → n ≤ vpn a + j → n / 1024 ∈ F) (hb : Builds k₀ hand k d)
    (hin : d.Within F) :
    ∃ b k' d', mapLoop last perm fuel k d a pa = .ok (b, k', d') ∧ Builds k₀ hand k' d' ∧
      d'.Within F ∧ (∀ n, n < vpn a → d'.entry n = d.entry n) ∧
      (b = true → d.Mapped d' (vpn a) j pa perm) ∧
      (b = false → k'.freelist = [] ∧ ∃ i ∈ F, d'.pde i = none) := by
  have hrule := mapLoop_rule last perm pa (vpn a + j)
    (I := fun n k' d' => vpn a ≤ n ∧ Builds k₀ hand k' d' ∧ d'.Within F ∧
      ∀ m, m < vpn a → d'.entry m = d.entry m)
    (Q := fun k' d' => Builds k₀ hand k' d' ∧ d'.Within F ∧
      (∀ m, m < vpn a → d'.entry m = d.entry m) ∧ k'.freelist = [] ∧ ∃ i ∈ F, d'.pde i = none)
    (fun w hle ⟨hlo, hb', hin', hbelow⟩ hw => by
      have hwalked := (walkpgdir_walked hw).2
      refine ⟨by omega, (hb'.walk hw).setEntry (by omega),
        (hin'.walked hwalked (hF _ hlo hle)).setEntry, fun m hm => ?_⟩
      rw [PgDir.entry_setEntry_of_ne (by omega), hwalked.entry, hbelow m hm])
    (fun hle ⟨hlo, hb', hin', hbelow⟩ hw => by
      cases walkpgdir_ends hw with
      | full hnone ha => exact ⟨hb', hin', hbelow, kalloc_eq_none ha, _, hF _ hlo hle, hnone⟩)
    fuel hfuel hal hlast rfl habs ⟨le_rfl, hb, hin, fun _ _ => rfl⟩
  obtain ⟨k', d', hloop, ⟨-, hb', hin', hbelow⟩, hmap⟩ | ⟨k', d', hloop, hb', hin', hbelow, hnil⟩ :=
    hrule
  · exact ⟨true, k', d', hloop, hb', hin', hbelow, fun _ => hmap, nofun⟩
  · exact ⟨false, k', d', hloop, hb', hin', hbelow, nofun, fun _ => hnil⟩

/-! ## The kernel part -/

/-- What a row of `kmap` maps virtual page `n` to. -/
def Kmap.translate (r : Kmap) (n : Nat) : Option (Word × Word) :=
  if vpn r.virt ≤ n ∧ n ≤ lastPage r.virt (r.physEnd - r.physStart) then
    some (r.physStart + BitVec.ofNat 32 (4096 * (n - vpn r.virt)), r.perm ||| pteP)
  else none

/-- What the rows of `kmap` map virtual page `n` to. -/
def rowsMap (rows : List Kmap) (n : Nat) : Option (Word × Word) := rows.findSome? (·.translate n)

/-- The kernel mappings. -/
def kernelMap (im : KernelImage) : Nat → Option (Word × Word) := rowsMap (kmap im)

/-- A row of `kmap` that covers the pages `lo … lo + j`, with tables of `F`. -/
structure Kmap.Covers (r : Kmap) (F : Finset Nat) (lo j : Nat) : Prop where
  virt : r.virt.toNat = 4096 * lo
  size : (r.physEnd - r.physStart).toNat = 4096 * (j + 1)
  start : r.physStart.toNat % 4096 = 0
  perm : r.perm.toNat < 4096
  kernel : 0x80000 ≤ lo
  top : lo + j < 1048576
  tabs : ∀ n, lo ≤ n → n ≤ lo + j → n / 1024 ∈ F

/-- Rows that cover pages from `lo` on, each above the ones before. -/
def RowsFrom (F : Finset Nat) : Nat → List Kmap → Prop
  | _, [] => True
  | base, r :: rows => ∃ lo j, base ≤ lo ∧ r.Covers F lo j ∧ RowsFrom F (lo + j + 1) rows

section Kernel

variable {F : Finset Nat} {r : Kmap} {rows : List Kmap} {lo j n : Nat}

theorem Kmap.Covers.vpn_eq (h : r.Covers F lo j) : vpn r.virt = lo := by
  have := h.virt
  unfold vpn
  omega

theorem Kmap.Covers.last_eq (h : r.Covers F lo j) :
    lastPage r.virt (r.physEnd - r.physStart) = lo + j := by
  have := h.virt
  have := h.size
  unfold lastPage
  omega

theorem Kmap.Covers.translate_eq (h : r.Covers F lo j) (n : Nat) :
    r.translate n = if lo ≤ n ∧ n ≤ lo + j then
      some (r.physStart + BitVec.ofNat 32 (4096 * (n - lo)), r.perm ||| pteP) else none := by
  unfold Kmap.translate
  rw [h.vpn_eq, h.last_eq]

theorem rowsMap_below : ∀ {rows : List Kmap} {lo : Nat}, RowsFrom F lo rows → n < lo →
    rowsMap rows n = none
  | [], _, _, _ => rfl
  | r :: rows, lo, ⟨lo', j, hle, hr, hrows⟩, hn => by
    unfold rowsMap
    rw [List.findSome?_cons, hr.translate_eq, if_neg (by omega)]
    exact rowsMap_below hrows (by omega)

theorem PgDir.translate_eq_none {d : PgDir} :
    d.translate n = none ↔ present (d.entry n) = false := by
  rw [← PgDir.isSome_translate, Option.isSome_eq_false_iff, Option.isNone_iff_eq_none]

theorem Kmap.Covers.translate_mapped {d d' : PgDir} (h : r.Covers F lo j)
    (hmap : d.Mapped d' lo j r.physStart r.perm) (n : Nat) :
    d'.translate n = (r.translate n).or (d.translate n) := by
  rw [h.translate_eq]
  split
  case isTrue hn =>
    have hin := hmap.inside (n - lo) (by omega)
    rw [show lo + (n - lo) = n by omega] at hin
    exact PgDir.translate_of_entry hin (aligned_add_pages h.start _) h.perm
  case isFalse hn => exact PgDir.translate_congr (hmap.outside n (by omega))

end Kernel

/-- The free list has the pages of `k` again, and no page in use was written. -/
structure Restored (k k' : Kmem) : Prop where
  image : k'.image = k.image
  perm : k'.freelist.Perm k.freelist
  bytes : ∀ v, v ∉ k.freelist → k'.mem v = k.mem v

theorem Builds.restore {k₀ k : Kmem} {d : PgDir} (h : Builds k₀ 0 k d) (him : k₀.image.Linked)
    (hk : k₀.Sound) : ∃ k', freevm k d = .ok k' ∧ Restored k₀ k' := by
  obtain ⟨k', hf, himage, hpages, hbytes⟩ := h.settle him hk
  rw [zero_add, Multiset.coe_eq_coe] at hpages
  exact ⟨k', hf, himage, hpages.symm, hbytes⟩

/-- The loop of `setupkvm`: the rows are mapped, or there were not enough pages for their tables
and everything is free again. -/
theorem setupRows_builds {k₀ : Kmem} {F : Finset Nat} (him : k₀.image.Linked) (hk : k₀.Sound) :
    ∀ {rows : List Kmap} {lo : Nat} {k : Kmem} {d : PgDir}, RowsFrom F lo rows →
      Builds k₀ 0 k d → d.Within F → (∀ n, n < 0x80000 ∨ lo ≤ n → present (d.entry n) = false) →
      (∃ d' k', setupRows rows k d = .ok (some d', k') ∧ Builds k₀ 0 k' d' ∧ d'.Within F ∧
        ∀ n, d'.translate n = (rowsMap rows n).or (d.translate n)) ∨
      ∃ k', setupRows rows k d = .ok (none, k') ∧ Restored k₀ k' ∧
        k₀.freelist.length < 1 + F.card
  | [], _, k, d, _, hb, hin, _ => .inl ⟨d, k, rfl, hb, hin, fun _ => rfl⟩
  | r :: rows, lo, k, d, ⟨lo', j, hle, hr, hrows⟩, hb, hin, habs => by
    have hvirt := hr.virt
    have hsize := hr.size
    have htop := hr.top
    have hkernel := hr.kernel
    have hlast := lastPage_aligned (show r.virt.toNat % 4096 = 0 by omega) hsize (by omega)
    obtain ⟨b, k1, d1, hmap, hb1, hin1, hbelow, htrue, hfalse⟩ := mapLoop_builds
      r.perm r.physStart (show j < 1048576 by omega) (by omega) hlast
      (by rw [hr.vpn_eq]; omega) (fun i hi => by rw [hr.vpn_eq]; exact habs _ (.inr (by omega)))
      (fun n h1 h2 => hr.tabs n (hr.vpn_eq ▸ h1) (hr.vpn_eq ▸ h2)) hb hin
    rw [hr.vpn_eq] at hbelow htrue
    have hpages : mappages k d r.virt (r.physEnd - r.physStart) r.physStart r.perm
        = .ok (b, k1, d1) := by
      unfold mappages
      rw [pgRoundDown_of_aligned (show r.virt.toNat % 4096 = 0 by omega)]
      exact hmap
    rw [setupRows, hpages]
    cases b with
    | true =>
      have hmapped := htrue rfl
      have htrans := hr.translate_mapped hmapped
      rcases setupRows_builds him hk hrows hb1 hin1 (fun n hn => by
          rw [hmapped.outside n (by omega)]
          exact habs n (by omega)) with ⟨d', k', hset, hb', hin', htr⟩ | hfail
      · refine .inl ⟨d', k', hset, hb', hin', fun n => ?_⟩
        rw [htr n, htrans n, rowsMap, rowsMap, List.findSome?_cons]
        cases hn : r.translate n with
        | none => rw [Option.none_or]
        | some x =>
          rw [hr.translate_eq] at hn
          have hle : n < lo' + j + 1 := by
            by_contra hgt
            rw [if_neg (by omega)] at hn
            cases hn
          have := rowsMap_below hrows hle
          unfold rowsMap at this
          rw [this]
          rfl
      · exact .inr hfail
    | false =>
      obtain ⟨hnil, i, hi, hnone⟩ := hfalse rfl
      obtain ⟨k', hf, hback⟩ := hb1.restore him hk
      refine .inr ⟨k', by dsimp only; rw [hf], hback, ?_⟩
      have huser : d1.userCount = 0 := PgDir.userCount_of_iff (by omega) fun n hn => by
        rw [hbelow n (by omega), habs n (.inl (by omega))]
        exact iff_of_false Bool.false_ne_true (Nat.not_lt_zero n)
      have hlen := hb1.length
      have := hin1.tabCount_lt hi hnone
      rw [hnil, huser, Multiset.card_zero, List.length_nil] at hlen
      omega

/-! ## `setupkvm` -/

/-- The page tables of the kernel part and of the first `sz` bytes. -/
def copyTabs (sz : Word) : Finset Nat :=
  Finset.range ((upPage sz + 1023) / 1024) ∪ (Finset.Ico 512 568 ∪ Finset.Ico 1016 1024)

theorem card_copyTabs {sz : Word} (hsz : upPage sz ≤ 0x60000) :
    (copyTabs sz).card = (upPage sz + 1023) / 1024 + 64 := by
  unfold copyTabs
  rw [Finset.card_union_of_disjoint, Finset.card_range, Finset.card_union_of_disjoint, Nat.card_Ico,
    Nat.card_Ico]
  · rw [Finset.disjoint_left]
    intro i hi hi'
    rw [Finset.mem_Ico] at hi hi'
    omega
  · rw [Finset.disjoint_left]
    intro i hi hi'
    rw [Finset.mem_range] at hi
    rw [Finset.mem_union, Finset.mem_Ico, Finset.mem_Ico] at hi'
    omega

variable {im : KernelImage}

/-- The four rows of `kmap`, one above the other, with the kernel's data from page `c` on. -/
theorem kmap_covers (him : im.Linked) (sz : Word) :
    ∃ c, 0x80101 ≤ c ∧ c ≤ 0x8DFFF ∧
      (⟨kernBase, 0#32, extMem, pteW⟩ : Kmap).Covers (copyTabs sz) 0x80000 255 ∧
      (⟨kernLink, v2p kernLink, v2p im.data, 0#32⟩ : Kmap).Covers (copyTabs sz) 0x80100
        (c - 0x80101) ∧
      (⟨im.data, v2p im.data, phystop, pteW⟩ : Kmap).Covers (copyTabs sz) c (0x8DFFF - c) ∧
      (⟨devSpace, devSpace, 0#32, pteW⟩ : Kmap).Covers (copyTabs sz) 0xFE000 8191 := by
  obtain ⟨hlo, hde, hhi⟩ := him.bounds
  have hal := him.aligned
  obtain ⟨c, hc⟩ : ∃ c, im.data.toNat = 4096 * c := ⟨im.data.toNat / 4096, by omega⟩
  have htab : ∀ n, 0x80000 ≤ n → n < 0x8E000 ∨ 0xFE000 ≤ n → n < 0x100000 →
      n / 1024 ∈ copyTabs sz := fun n h1 h2 h3 => by
    unfold copyTabs
    rw [Finset.mem_union, Finset.mem_union, Finset.mem_Ico, Finset.mem_Ico]
    omega
  have hphys : (v2p im.data).toNat = 4096 * (c - 0x80000) := by
    unfold v2p kernBase
    bv_omega
  refine ⟨c, by omega, by omega, ⟨by decide, by decide, by decide, by decide, le_rfl, by omega, ?_⟩,
    ⟨rfl, ?_, (by decide : (v2p kernLink).toNat % 4096 = 0),
      (by decide : (0#32 : Word).toNat < 4096), by omega, by omega, ?_⟩,
    ⟨hc, ?_, ?_, (by decide : pteW.toNat < 4096), by omega, by omega, ?_⟩,
    ⟨by decide, by decide, by decide, by decide, by omega, by omega, ?_⟩⟩
  · exact fun n h1 h2 => htab n (by omega) (by omega) (by omega)
  · change (v2p im.data - v2p kernLink).toNat = _
    unfold v2p kernLink kernBase extMem
    bv_omega
  · exact fun n h1 h2 => htab n (by omega) (by omega) (by omega)
  · change (phystop - v2p im.data).toNat = _
    unfold v2p kernBase phystop
    bv_omega
  · change (v2p im.data).toNat % 4096 = 0
    omega
  · exact fun n h1 h2 => htab n (by omega) (by omega) (by omega)
  · exact fun n h1 h2 => htab n (by omega) (by omega) (by omega)

theorem kmap_rowsFrom (him : im.Linked) (sz : Word) :
    RowsFrom (copyTabs sz) 0x80000 (kmap im) := by
  obtain ⟨c, hc1, hc2, h1, h2, h3, h4⟩ := kmap_covers him sz
  exact ⟨_, _, le_rfl, h1, _, _, by omega, h2, _, _, by omega, h3, _, _, by omega, h4, trivial⟩

theorem kernelMap_user (him : im.Linked) {n : Nat} (hn : n < 0x80000) :
    kernelMap im n = none :=
  rowsMap_below (kmap_rowsFrom him 0#32) hn

/-- The kernel maps all of physical memory and the devices. -/
theorem kernelMap_isSome (him : im.Linked) {n : Nat}
    (hn : 0x80000 ≤ n ∧ n < 0x8E000 ∨ 0xFE000 ≤ n ∧ n < 0x100000) :
    (kernelMap im n).isSome = true := by
  obtain ⟨c, hc1, hc2, h1, h2, h3, h4⟩ := kmap_covers him 0#32
  unfold kernelMap rowsMap
  rw [List.isSome_findSome?, List.any_eq_true]
  have hin : ∀ {r : Kmap} {lo j : Nat}, r.Covers (copyTabs 0#32) lo j → lo ≤ n ∧ n ≤ lo + j →
      (r.translate n).isSome = true := fun hr hn => by
    rw [hr.translate_eq, if_pos hn]
    rfl
  by_cases hlow : n < 0x80100
  · exact ⟨_, List.mem_cons_self, hin h1 (by omega)⟩
  by_cases htext : n < c
  · exact ⟨_, List.mem_cons_of_mem _ List.mem_cons_self, hin h2 (by omega)⟩
  by_cases hdata : n < 0x8E000
  · exact ⟨_, List.mem_cons_of_mem _ (List.mem_cons_of_mem _ List.mem_cons_self),
      hin h3 (by omega)⟩
  · refine ⟨_, ?_, hin h4 (by omega)⟩
    exact List.mem_cons_of_mem _ (List.mem_cons_of_mem _ (List.mem_cons_of_mem _
      List.mem_cons_self))

theorem setupkvm_builds {k : Kmem} (him : k.image.Linked) (hk : k.Sound) (sz : Word) :
    (∃ d k', setupkvm k = .ok (some d, k') ∧ Builds k 0 k' d ∧ d.Within (copyTabs sz) ∧
      ∀ n, d.translate n = kernelMap k.image n) ∨
    ∃ k', setupkvm k = .ok (none, k') ∧ Restored k k' ∧
      k.freelist.length < 1 + (copyTabs sz).card := by
  unfold setupkvm
  cases ha : kalloc k .pgdir with
  | none =>
    refine .inr ⟨k, rfl, ⟨rfl, .refl _, fun _ _ => rfl⟩, ?_⟩
    rw [kalloc_eq_none ha, List.length_nil]
    omega
  | some r =>
    obtain ⟨page, k1⟩ := r
    obtain ⟨rest, hf, rfl⟩ := kalloc_eq_some ha
    have hmem : page ∈ k.freelist := by
      rw [hf]
      exact List.mem_cons_self
    have hb : Builds k 0 (({ k with freelist := rest, log := .alloc page .pgdir :: k.log } :
        Kmem).memset page 0#8) (PgDir.empty page) := by
      refine ⟨rfl, ?_, fun v hv => ?_⟩
      · rw [PgDir.held_empty, zero_add, hf, ← Multiset.cons_coe, ← Multiset.singleton_add]
        rfl
      · have hne : v ≠ page := fun he => hv (he ▸ hmem)
        exact Function.update_of_ne hne ..
    rcases setupRows_builds him hk (kmap_rowsFrom him sz) hb (fun i hi => by cases hi)
        (fun n _ => by rw [PgDir.entry_empty, present_zero]) with
      ⟨d, k', hset, hb', hin, htr⟩ | hfail
    · refine .inl ⟨d, k', hset, hb', hin, fun n => ?_⟩
      have hnone : (PgDir.empty page).translate n = none :=
        PgDir.translate_eq_none.mpr (by rw [PgDir.entry_empty, present_zero])
      rw [htr n, hnone, Option.or_none]
      rfl
    · exact .inr hfail

/-! ## The user part -/

/-- The flags of a present entry have the present bit. -/
theorem pteFlags_or_pteP {pte : Word} (h : present pte = true) :
    pteFlags pte ||| pteP = pteFlags pte := by
  have hbit : pte &&& pteP = pteP := by
    unfold present hasFlag at h
    rw [bne_iff_ne] at h
    have hmod : (pte &&& pteP).toNat = pte.toNat % 2 := by
      rw [BitVec.toNat_and]
      exact Nat.and_one_is_mod _
    refine BitVec.eq_of_toNat_eq ?_
    rw [hmod, show pteP.toNat = 1 from rfl]
    have : pte.toNat % 2 ≠ 0 := fun hz => h (BitVec.eq_of_toNat_eq (hmod.trans hz))
    omega
  unfold pteFlags
  nth_rewrite 1 [← hbit]
  rw [← BitVec.and_or_distrib_left, show (0xFFF#32 : Word) ||| pteP = 0xFFF#32 by decide]

/-- The first `c` pages are copied, the others are as `setupkvm` left them. -/
structure Copied (k₀ : Kmem) (pgdir : PgDir) (F : Finset Nat) (c : Nat) (k : Kmem) (d : PgDir) :
    Prop where
  builds : Builds k₀ 0 k d
  within : d.Within F
  user : ∀ n < c, d.entry n =
    v2p (physPage (d.entry n)) ||| pteFlags (pgdir.entry n) ||| pteP
  bytes : ∀ n < c, k.mem (physPage (d.entry n)) = k₀.mem (physPage (pgdir.entry n))
  rest : ∀ n, c ≤ n → d.translate n = kernelMap k₀.image n

section Copy

variable {k₀ k : Kmem} {pgdir d : PgDir} {F : Finset Nat} {c : Nat} {sz : Word}

theorem Copied.present_iff (h : Copied k₀ pgdir F c k d) (him : k₀.image.Linked) {n : Nat}
    (hn : n < 0x80000) : present (d.entry n) = true ↔ n < c := by
  by_cases hc : n < c
  · rw [h.user n hc]
    exact iff_of_true (present_or _ _) hc
  · have := h.rest n (by omega)
    rw [kernelMap_user him hn, PgDir.translate_eq_none] at this
    rw [this]
    exact iff_of_false Bool.false_ne_true hc

theorem Copied.userCount (h : Copied k₀ pgdir F c k d) (him : k₀.image.Linked)
    (hc : c ≤ 0x60000) : d.userCount = c :=
  PgDir.userCount_of_iff hc fun _ hn => h.present_iff him (by omega)

theorem Copied.fresh (h : Copied k₀ pgdir F c k d) (hc : c ≤ 0x60000) {n : Nat} (hn : n < c) :
    physPage (d.entry n) ∈ d.held := by
  refine PgDir.mem_held.mpr (.inr (.inr (PgDir.mem_userPages.mpr ⟨n, by omega, ?_, rfl⟩)))
  rw [h.user n hn]
  exact present_or _ _

theorem Builds.disjoint {hand : Multiset Word} (h : Builds k₀ hand k d) (hnd : k₀.freelist.Nodup) :
    (∀ v ∈ d.held, v ∉ hand ∧ v ∉ k.freelist) ∧ ∀ v ∈ hand, v ∉ k.freelist := by
  have hnd' : (d.held + (hand + (k.freelist : Multiset Word))).Nodup := by
    rw [← h.pages]
    exact Multiset.coe_nodup.mpr hnd
  obtain ⟨-, hrest, hdis⟩ := Multiset.nodup_add.mp hnd'
  obtain ⟨-, -, hdis'⟩ := Multiset.nodup_add.mp hrest
  refine ⟨fun v hv => ?_, fun v hv hf => Multiset.disjoint_left.mp hdis' hv hf⟩
  have := Multiset.disjoint_left.mp hdis hv
  rwa [Multiset.mem_add, not_or] at this

/-- One turn of `copyuvm`'s loop, with a page and a table for it. -/
theorem Copied.snoc {k1 k2 : Kmem} {d2 : PgDir} {mem va : Word} (h : Copied k₀ pgdir F c k d)
    (hk : k₀.Sound) (hnd : k₀.freelist.Nodup) (hc : c < 0x60000) (hva : vpn va = c)
    (huse : physPage (pgdir.entry c) ∉ k₀.freelist) (him : k₀.image.Linked)
    (ha : kalloc k .user = some (mem, k1))
    (hw : walkpgdir (k1.memmove mem (physPage (pgdir.entry c))) d va true = (true, k2, d2))
    (hwalked : d.Walked d2 c) (hF : c / 1024 ∈ F) :
    Copied k₀ pgdir F (c + 1) k2
      (d2.setEntry c (v2p mem ||| pteFlags (pgdir.entry c) ||| pteP)) := by
  set w := v2p mem ||| pteFlags (pgdir.entry c) ||| pteP with hweq
  have hmem : mem ∈ k₀.freelist := h.builds.mem_of_kalloc ha
  have hphys : physPage w = mem :=
    p2v_pteAddr_or (KernelImage.aligned_of_isPage (hk _ hmem)) (pteFlags_lt _)
  have habs : present (d2.entry c) = false := by
    have := h.rest c le_rfl
    rw [kernelMap_user him (by omega), PgDir.translate_eq_none] at this
    rw [hwalked.entry, this]
  -- the account, with the new page in hand until it is mapped
  have hb1 := (h.builds.take ha).write hmem (k1.mem (physPage (pgdir.entry c)))
  have hb2 : Builds k₀ ({mem} + 0) k2 d2 := hb1.walk hw
  have hb3 : Builds k₀ 0 k2 (d2.setEntry c w) :=
    Builds.setEntry_user (by rw [hphys]; exact hb2) hc hwalked.hasTab habs (present_or _ _)
  have hself : (d2.setEntry c w).entry c = w := PgDir.entry_setEntry_self hwalked.hasTab
  have hother : ∀ n, n ≠ c → (d2.setEntry c w).entry n = d.entry n := fun n hn => by
    rw [PgDir.entry_setEntry_of_ne hn, hwalked.entry]
  have hdrawn := (walkpgdir_drawn hw).1
  have hkeep : ∀ v, v ∉ k1.freelist → v ≠ mem → k2.mem v = k1.mem v := fun v hv hne =>
    (hdrawn.bytes v hv).trans (Function.update_of_ne hne ..)
  have hk1 : k1.mem = k.mem := by
    obtain ⟨rest, -, rfl⟩ := kalloc_eq_some ha
    rfl
  have hdis1 := hb1.disjoint hnd
  refine ⟨hb3, (h.within.walked hwalked hF).setEntry, fun n hn => ?_, fun n hn => ?_,
    fun n hn => ?_⟩
  · by_cases he : n = c
    · rw [he, hself, hphys]
    · rw [hother n he]
      exact h.user n (by omega)
  · by_cases he : n = c
    · have hnotfree : mem ∉ k1.freelist :=
        hdis1.2 mem (Multiset.mem_add.mpr (.inl (Multiset.mem_singleton_self mem)))
      rw [he, hself, hphys, hdrawn.bytes mem hnotfree, ← h.builds.bytes _ huse, ← hk1]
      exact Function.update_self ..
    · have hheld := h.fresh (by omega) (show n < c by omega)
      obtain ⟨hhand, hfree⟩ := hdis1.1 _ hheld
      rw [hother n he, hkeep _ hfree, hk1]
      · exact h.bytes n (by omega)
      · rintro rfl
        exact hhand (Multiset.mem_add.mpr (.inl (Multiset.mem_singleton_self _)))
  · rw [PgDir.translate_congr (hother n (by omega))]
    exact h.rest n (by omega)

theorem copyLoop_copies (him : k₀.image.Linked) (hk : k₀.Sound) (hnd : k₀.freelist.Nodup)
    (hsz : sz ≤ minAddr) (hpres : ∀ n < upPage sz, present (pgdir.entry n) = true)
    (huse : ∀ n < upPage sz, physPage (pgdir.entry n) ∉ k₀.freelist) :
    ∀ (j fuel : Nat) {k : Kmem} {d : PgDir} {i : Word}, j < fuel → i.toNat % 4096 = 0 →
      vpn i + j = upPage sz → Copied k₀ pgdir (copyTabs sz) (vpn i) k d →
      (∃ d' k', copyLoop pgdir sz fuel k d i = .ok (some d', k') ∧
        Copied k₀ pgdir (copyTabs sz) (upPage sz) k' d') ∨
      ∃ k', copyLoop pgdir sz fuel k d i = .ok (none, k') ∧ Restored k₀ k' ∧
        k₀.freelist.length < 1 + (copyTabs sz).card + upPage sz := by
  have hszN : sz.toNat ≤ 0x60000000 := BitVec.le_def.mp hsz
  have hup : upPage sz ≤ 0x60000 := by
    unfold upPage
    omega
  intro j
  induction j with
  | zero =>
    intro fuel k d i hfuel hal hend h
    obtain ⟨fuel, rfl⟩ : ∃ f, fuel = f + 1 := ⟨fuel - 1, by omega⟩
    have hstop : ¬ i < sz := (lt_iff_vpn_lt hal).not.mpr (by omega)
    rw [Nat.add_zero] at hend
    refine .inl ⟨d, k, ?_, hend ▸ h⟩
    rw [copyLoop, if_neg hstop]
  | succ j ih =>
    intro fuel k d i hfuel hal hend h
    obtain ⟨fuel, rfl⟩ : ∃ f, fuel = f + 1 := ⟨fuel - 1, by omega⟩
    have hgo : i < sz := (lt_iff_vpn_lt hal).mpr (by omega)
    have hgoN := BitVec.lt_def.mp hgo
    have hp := hpres (vpn i) (by omega)
    have huser := h.userCount him (by omega)
    have hF : vpn i / 1024 ∈ copyTabs sz :=
      Finset.mem_union_left _ (Finset.mem_range.mpr (by omega))
    rw [copyLoop, if_pos hgo, if_pos (PgDir.hasTab_of_present hp)]
    dsimp only
    rw [if_pos hp]
    cases ha : kalloc k .user with
    | none =>
      obtain ⟨k', hf, hback⟩ := h.builds.restore him hk
      refine .inr ⟨k', by dsimp only; rw [hf], hback, ?_⟩
      have hlen := h.builds.length
      have := h.within.tabCount_le
      rw [kalloc_eq_none ha, huser, Multiset.card_zero, List.length_nil] at hlen
      omega
    | some r =>
      obtain ⟨mem, k1⟩ := r
      have hmem : mem ∈ k₀.freelist := h.builds.mem_of_kalloc ha
      have hb1 : Builds k₀ ({mem} + 0) (k1.memmove mem (physPage (pgdir.entry (vpn i)))) d :=
        (h.builds.take ha).write hmem _
      have hsrc : p2v (pteAddr (pgdir.entry (vpn i))) = physPage (pgdir.entry (vpn i)) := rfl
      dsimp only
      rw [mappages_page hal, hsrc]
      rcases hb1.walk_cases i with ⟨k2, d2, hw, hb2, hwalked⟩ | ⟨hw, hnil, hnone⟩
      · have habs : present (d2.entry (vpn i)) = false := by
          have := h.present_iff him (show vpn i < 0x80000 by omega)
          rw [hwalked.entry, ← Bool.not_eq_true, this]
          omega
        have hnext := toNat_add_pgSize (a := i) (by omega)
        have hvpn := vpn_add_pgSize (a := i) (by omega)
        have hsnoc := h.snoc hk hnd (by omega) rfl (huse _ (by omega)) him ha hw hwalked hF
        rw [hw]
        simp only [habs, Bool.false_eq_true, if_false]
        exact ih fuel (by omega) (by omega) (by omega) (by rw [hvpn]; exact hsnoc)
      · -- no page for the table: the data page goes back, then all that was built
        rw [hw]
        dsimp only
        have hpage : (k1.memmove mem (physPage (pgdir.entry (vpn i)))).image.isPage mem = true := by
          rw [hb1.image]
          exact hk mem hmem
        have hfree : kfree (k1.memmove mem (physPage (pgdir.entry (vpn i)))) mem = .ok _ :=
          if_pos hpage
        obtain ⟨k', hf, hback⟩ := (hb1.giveBack hfree).restore him hk
        refine .inr ⟨k', by rw [hfree]; dsimp only; rw [hf], hback, ?_⟩
        have hlen := hb1.length
        have := h.within.tabCount_lt hF hnone
        rw [hnil, huser, Multiset.card_add, Multiset.card_singleton, Multiset.card_zero,
          List.length_nil] at hlen
        omega

theorem Copied.tabCount (h : Copied k₀ pgdir (copyTabs sz) (upPage sz) k d)
    (him : k₀.image.Linked) (hsz : upPage sz ≤ 0x60000) : d.tabCount = (copyTabs sz).card := by
  refine h.within.tabCount_of_all (fun i hi => ?_) fun i hi => ?_
  · unfold copyTabs at hi
    rw [Finset.mem_union, Finset.mem_union, Finset.mem_range, Finset.mem_Ico, Finset.mem_Ico] at hi
    omega
  have hpres : present (d.entry (1024 * i)) = true := by
    unfold copyTabs at hi
    rw [Finset.mem_union, Finset.mem_union, Finset.mem_range, Finset.mem_Ico, Finset.mem_Ico] at hi
    rcases hi with hi | hi
    · exact (h.present_iff him (by omega)).mpr (by omega)
    · rw [← PgDir.isSome_translate, h.rest _ (by omega)]
      exact kernelMap_isSome him (by omega)
  have htab := PgDir.hasTab_of_present hpres
  unfold PgDir.hasTab at htab
  rwa [Nat.mul_div_cancel_left i (by decide)] at htab

end Copy

/-! ## `copyuvm` -/

/-- `d'` is a copy of the first `sz` bytes of `pgdir`, made with pages that were free in `k`. -/
structure IsCopy (k : Kmem) (pgdir : PgDir) (sz : Word) (k' : Kmem) (d' : PgDir) : Prop where
  flags : ∀ n < upPage sz, (d'.translate n).map Prod.snd = (pgdir.translate n).map Prod.snd
  bytes : ∀ n < upPage sz, k'.mem (physPage (d'.entry n)) = k.mem (physPage (pgdir.entry n))
  kernel : ∀ n, upPage sz ≤ n → d'.translate n = kernelMap k.image n
  fresh : ∀ n < upPage sz, physPage (d'.entry n) ∈ k.freelist
  inj : ∀ n < upPage sz, ∀ m < upPage sz, physPage (d'.entry n) = physPage (d'.entry m) → n = m
  parent : ∀ v, v ∉ k.freelist → k'.mem v = k.mem v

/-- The pages that a copy of `sz` bytes takes: the directory, the tables of the kernel part, one
page for each page and one for each table of them. -/
def copyNeed (sz : Word) : Nat := 65 + upPage sz + (upPage sz + 1023) / 1024

theorem Copied.isCopy {k k' : Kmem} {pgdir d' : PgDir} {sz : Word}
    (h : Copied k pgdir (copyTabs sz) (upPage sz) k' d') (hnd : k.freelist.Nodup) (hk : k.Sound)
    (hsz : upPage sz ≤ 0x60000) (hpres : ∀ n < upPage sz, present (pgdir.entry n) = true) :
    IsCopy k pgdir sz k' d' := by
  have hfresh : ∀ n < upPage sz, physPage (d'.entry n) ∈ k.freelist := fun n hn =>
    h.builds.mem_of_held (h.fresh hsz hn)
  refine ⟨fun n hn => ?_, h.bytes, h.rest, hfresh, fun n hn m hm he => ?_, h.builds.bytes⟩
  · have hal : (v2p (physPage (d'.entry n))).toNat % 4096 = 0 :=
      v2p_aligned (KernelImage.aligned_of_isPage (hk _ (hfresh n hn)))
    rw [PgDir.translate_of_entry (h.user n hn) hal (pteFlags_lt _), Option.map_some,
      pteFlags_or_pteP (hpres n hn), PgDir.translate, if_pos (hpres n hn)]
    rfl
  have hnd' : d'.userPages.Nodup := by
    have hall : (d'.held + (0 + (k'.freelist : Multiset Word))).Nodup := by
      rw [← h.builds.pages]
      exact Multiset.coe_nodup.mpr hnd
    have hheld := (Multiset.nodup_add.mp hall).1
    unfold PgDir.held at hheld
    exact (Multiset.nodup_add.mp (Multiset.nodup_add.mp hheld).2.1).2.1
  unfold PgDir.userPages at hnd'
  have hin : ∀ q < upPage sz, physPage (d'.entry q) ∈ d'.userAt q := fun q hq => by
    rw [PgDir.userAt_of_present (by rw [h.user q hq]; exact present_or _ _)]
    exact Multiset.mem_singleton_self _
  have hm' := hin m hm
  rw [← he] at hm'
  exact holdings_inj hnd' (Finset.mem_range.mpr (by omega)) (Finset.mem_range.mpr (by omega))
    (hin n hn) hm'

/-- `copyuvm`, up to the account of the pages it takes. -/
theorem copyuvm_spec {k : Kmem} {pgdir : PgDir} {sz : Word} (him : k.image.Linked) (hk : k.Sound)
    (hnd : k.freelist.Nodup) (hsz : sz ≤ minAddr)
    (hpres : ∀ n < upPage sz, present (pgdir.entry n) = true)
    (huse : ∀ n < upPage sz, physPage (pgdir.entry n) ∉ k.freelist) :
    (copyNeed sz ≤ k.freelist.length ∧ ∃ d' k', copyuvm k pgdir sz = .ok (some d', k') ∧
      IsCopy k pgdir sz k' d') ∨
    (k.freelist.length < copyNeed sz ∧ ∃ k', copyuvm k pgdir sz = .ok (none, k') ∧
      Restored k k') := by
  have hszN : sz.toNat ≤ 0x60000000 := BitVec.le_def.mp hsz
  have hup : upPage sz ≤ 0x60000 := by
    unfold upPage
    omega
  have hcard := card_copyTabs hup
  unfold copyuvm copyNeed
  rcases setupkvm_builds him hk sz with ⟨d, k1, hset, hb, hin, htr⟩ | ⟨k', hset, hback, hlt⟩
  · rw [hset]
    dsimp only
    have hstart : Copied k pgdir (copyTabs sz) (vpn 0#32) k1 d :=
      ⟨hb, hin, fun n hn => absurd hn (Nat.not_lt_zero n), fun n hn => absurd hn (Nat.not_lt_zero n),
        fun n _ => htr n⟩
    rcases copyLoop_copies him hk hnd hsz hpres huse (upPage sz) 1048577 (i := 0#32) (by omega)
        (by decide) (by rw [show vpn 0#32 = 0 from rfl, Nat.zero_add]) hstart with
      ⟨d', k', hloop, hcopied⟩ | ⟨k', hloop, hback, hlt⟩
    · refine .inl ⟨?_, d', k', hloop, hcopied.isCopy hnd hk hup hpres⟩
      have hlen := hcopied.builds.length
      rw [hcopied.tabCount him hup, hcopied.userCount him hup] at hlen
      omega
    · exact .inr ⟨by omega, k', hloop, hback⟩
  · rw [hset]
    exact .inr ⟨by omega, k', rfl, hback⟩

/-- **`copyuvm` copies, or leaves nothing behind**: with enough free pages it returns a directory
with the parent's pages, flags and contents and the kernel mappings, on pages of its own; otherwise
it returns null and the free list has the pages it had. -/
theorem copyuvm_copies_or_cleans_up (k : Kmem) (pgdir : PgDir) (sz : Word) (him : k.image.Linked)
    (hk : k.Sound) (hnd : k.freelist.Nodup) (hsz : sz ≤ minAddr)
    (hpres : ∀ n < upPage sz, present (pgdir.entry n) = true)
    (huse : ∀ n < upPage sz, physPage (pgdir.entry n) ∉ k.freelist) :
    (copyNeed sz ≤ k.freelist.length → ∃ d' k', copyuvm k pgdir sz = .ok (some d', k') ∧
      IsCopy k pgdir sz k' d' ∧
      ∀ n < upPage sz, ∀ m < upPage sz, physPage (d'.entry n) ≠ physPage (pgdir.entry m)) ∧
    (k.freelist.length < copyNeed sz → ∃ k', copyuvm k pgdir sz = .ok (none, k') ∧
      Restored k k') := by
  rcases copyuvm_spec him hk hnd hsz hpres huse with
    ⟨hneed, d', k', hcopy, his⟩ | ⟨hneed, hfail⟩
  · refine ⟨fun _ => ⟨d', k', hcopy, his, fun n hn m hm he => ?_⟩, fun h => by omega⟩
    exact huse m hm (he ▸ his.fresh n hn)
  · exact ⟨fun h => by omega, fun _ => hfail⟩

/-- A directory with one page, which is read-only. -/
def PgDir.readOnly : PgDir :=
  ((PgDir.empty 0x8DF02000#32).addTab 0 0x8DF01000#32).setEntry 0
    (v2p 0x8DF00000#32 ||| pteU ||| pteP)

/-- One page takes 67, for the directory, 64 tables of the kernel, the page and its table. -/
theorem copyuvm_copies_or_cleans_up_one :
    (∃ d' k', copyuvm (Kmem.initial 67) PgDir.readOnly 0x800#32 = .ok (some d', k') ∧
      IsCopy (Kmem.initial 67) PgDir.readOnly 0x800#32 k' d' ∧
      ∀ n < upPage 0x800#32, ∀ m < upPage 0x800#32,
        physPage (d'.entry n) ≠ physPage (PgDir.readOnly.entry m)) ∧
    ∃ k', copyuvm (Kmem.initial 66) PgDir.readOnly 0x800#32 = .ok (none, k') ∧
      Restored (Kmem.initial 66) k' := by
  have hone : ∀ {n}, n < upPage 0x800#32 → n = 0 := fun h => Nat.lt_one_iff.mp h
  have hpres : ∀ n < upPage 0x800#32, present (PgDir.readOnly.entry n) = true := fun n hn => by
    rw [hone hn]
    decide
  constructor
  · exact (copyuvm_copies_or_cleans_up (Kmem.initial 67) PgDir.readOnly 0x800#32
      KernelImage.sample_linked (Kmem.initial_sound (by decide)) (Kmem.initial_nodup (by decide))
      (by decide) hpres (fun n hn => by rw [hone hn]; decide)).1 (by decide)
  · exact (copyuvm_copies_or_cleans_up (Kmem.initial 66) PgDir.readOnly 0x800#32
      KernelImage.sample_linked (Kmem.initial_sound (by decide)) (Kmem.initial_nodup (by decide))
      (by decide) hpres (fun n hn => by rw [hone hn]; decide)).2 (by decide)

end Xv6Mmap
