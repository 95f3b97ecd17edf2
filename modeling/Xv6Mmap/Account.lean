import Mathlib.Tactic.Abel
import Xv6Mmap.Grow
import Xv6Mmap.Lib.Ledger

/-!
# The pages of a page table under construction (`vm.c:282-299`)

While a page table is built, every page taken from the allocator is the directory itself, one of its
tables, one of its user pages, or in the hands of the caller. `Builds` is that account, with the
pages in the caller's hands as a parameter, and every step of the construction keeps it. `freevm`
settles it: the pages of the directory are free again, whatever part of the table was built.
-/

namespace Xv6Mmap

open Lib
open Function (update update_self update_of_ne)

/-! ## What a directory holds -/

namespace PgDir

variable {d d' : PgDir} {n : Nat}

/-- The page that directory entry `i` points to. -/
def tabAt (d : PgDir) (i : Nat) : Multiset Word :=
  match (d.pde i).map PgTab.page with
  | none => 0
  | some v => {v}

/-- The page that virtual page `n` is mapped to. -/
def userAt (d : PgDir) (n : Nat) : Multiset Word :=
  if present (d.entry n) then {physPage (d.entry n)} else 0

/-- The page tables. -/
@[irreducible] def tabPages (d : PgDir) : Multiset Word := holdings (Finset.range 1024) d.tabAt

/-- The pages below `MIN_ADDR`. -/
@[irreducible] def userPages (d : PgDir) : Multiset Word := holdings (Finset.range 0x60000) d.userAt

/-- The pages that `freevm` gives back. -/
def held (d : PgDir) : Multiset Word := {d.page} + (d.tabPages + d.userPages)

theorem tabAt_congr {i : Nat} (h : (d'.pde i).map PgTab.page = (d.pde i).map PgTab.page) :
    d'.tabAt i = d.tabAt i := by
  unfold tabAt
  rw [h]

theorem tabPages_congr (h : ∀ i, (d'.pde i).map PgTab.page = (d.pde i).map PgTab.page) :
    d'.tabPages = d.tabPages := by
  unfold tabPages
  exact holdings_congr fun i _ => tabAt_congr (h i)

theorem userAt_congr (h : d'.entry n = d.entry n) : d'.userAt n = d.userAt n := by
  unfold userAt
  rw [h]

theorem userPages_congr (h : ∀ n < 0x60000, d'.entry n = d.entry n) :
    d'.userPages = d.userPages := by
  unfold userPages
  exact holdings_congr fun n hn => userAt_congr (h n (Finset.mem_range.mp hn))

theorem tabAt_of_some {i : Nat} {t : PgTab} (h : d.pde i = some t) : d.tabAt i = {t.page} := by
  unfold tabAt
  rw [h]
  rfl

theorem tabAt_of_none {i : Nat} (h : d.pde i = none) : d.tabAt i = 0 := by
  unfold tabAt
  rw [h]
  rfl

theorem userAt_of_present (h : present (d.entry n) = true) : d.userAt n = {physPage (d.entry n)} :=
  if_pos h

theorem userAt_of_absent (h : present (d.entry n) = false) : d.userAt n = 0 :=
  if_neg (by rw [h]; exact Bool.false_ne_true)

theorem mem_held {v : Word} :
    v ∈ d.held ↔ v = d.page ∨ v ∈ d.tabPages ∨ v ∈ d.userPages := by
  unfold held
  rw [Multiset.mem_add, Multiset.mem_add, Multiset.mem_singleton]

theorem mem_userPages {v : Word} :
    v ∈ d.userPages ↔ ∃ n < 0x60000, present (d.entry n) = true ∧ physPage (d.entry n) = v := by
  unfold userPages
  rw [mem_holdings]
  refine exists_congr fun n => and_congr Finset.mem_range ?_
  cases hp : present (d.entry n) with
  | true =>
    rw [userAt_of_present hp, Multiset.mem_singleton]
    exact ⟨fun h => ⟨rfl, h.symm⟩, fun h => h.2.symm⟩
  | false =>
    rw [userAt_of_absent hp]
    exact iff_of_false (Multiset.notMem_zero v) fun h => Bool.false_ne_true h.1

theorem held_empty (page : Word) : (PgDir.empty page).held = {page} := by
  unfold held tabPages userPages
  rw [holdings_zero fun i _ => tabAt_of_none rfl,
    holdings_zero fun n _ => userAt_of_absent (by rw [entry_empty, present_zero]), add_zero, add_zero]
  rfl

theorem held_addTab {i : Nat} {page : Word} (hi : i < 1024) (h : d.pde i = none) :
    (d.addTab i page).held = {page} + d.held := by
  have htabs : (d.addTab i page).tabPages = {page} + d.tabPages := by
    unfold tabPages
    refine holdings_gain (Finset.mem_range.mpr hi) (fun j _ hj => tabAt_congr ?_) ?_
    · exact congrArg _ (update_of_ne hj ..)
    · rw [tabAt_of_none h, add_zero, tabAt_of_some (update_self ..)]
  have hpage : (d.addTab i page).page = d.page := rfl
  unfold held
  rw [htabs, userPages_congr fun n _ => entry_addTab h, hpage]
  abel

theorem held_setEntry {w : Word} (h : 0x60000 ≤ n) : (d.setEntry n w).held = d.held := by
  unfold held
  rw [page_setEntry, tabPages_congr tabPage_setEntry,
    userPages_congr fun m hm => entry_setEntry_of_ne (by omega)]

theorem held_setEntry_user {w : Word} (hn : n < 0x60000) (htab : d.hasTab n = true)
    (habs : present (d.entry n) = false) (hw : present w = true) :
    (d.setEntry n w).held = {physPage w} + d.held := by
  have huser : (d.setEntry n w).userPages = {physPage w} + d.userPages := by
    unfold userPages
    refine holdings_gain (Finset.mem_range.mpr hn)
      (fun m _ hm => userAt_congr (entry_setEntry_of_ne hm)) ?_
    have hself : (d.setEntry n w).entry n = w := entry_setEntry_self htab
    rw [userAt_of_absent habs, add_zero, userAt_of_present (by rw [hself]; exact hw), hself]
  unfold held
  rw [huser, page_setEntry, tabPages_congr tabPage_setEntry]
  abel

theorem coe_presentFrom (d : PgDir) (n : Nat) :
    (((d.presentFrom 0 n).map fun p => physPage (d.entry p) : List Word) : Multiset Word)
      = holdings (Finset.range n) d.userAt := by
  induction n with
  | zero => exact (holdings_zero fun i hi => by cases hi).symm
  | succ n ih =>
    have hlast : d.presentFrom 0 (n + 1) = d.presentFrom 0 n ++ [n].filter fun q =>
        present (d.entry q) := by
      unfold presentFrom
      rw [List.range'_1_concat, List.filter_append, Nat.zero_add]
    unfold holdings at ih ⊢
    rw [hlast, List.map_append, ← Multiset.coe_add, ih, Finset.sum_range_succ]
    refine congrArg _ ?_
    cases hp : present (d.entry n) with
    | true =>
      rw [userAt_of_present hp, List.filter_cons, if_pos hp]
      rfl
    | false =>
      rw [userAt_of_absent hp, List.filter_cons, if_neg (by rw [hp]; exact Bool.false_ne_true)]
      rfl

end PgDir

/-! ## The account -/

/-- The pages that were free in `k₀` are in `d`, in `hand`, or still free, and no other page was
written. -/
structure Builds (k₀ : Kmem) (hand : Multiset Word) (k : Kmem) (d : PgDir) : Prop where
  image : k.image = k₀.image
  pages : (k₀.freelist : Multiset Word) = d.held + (hand + k.freelist)
  bytes : ∀ v, v ∉ k₀.freelist → k.mem v = k₀.mem v

namespace Builds

variable {k₀ k k' : Kmem} {hand : Multiset Word} {d d' : PgDir} {v : Word}

theorem mem_of_held (h : Builds k₀ hand k d) (hv : v ∈ d.held) : v ∈ k₀.freelist := by
  rw [← Multiset.mem_coe, h.pages]
  exact Multiset.mem_add.mpr (.inl hv)

theorem mem_of_hand (h : Builds k₀ hand k d) (hv : v ∈ hand) : v ∈ k₀.freelist := by
  rw [← Multiset.mem_coe, h.pages]
  exact Multiset.mem_add.mpr (.inr (Multiset.mem_add.mpr (.inl hv)))

theorem mem_of_free (h : Builds k₀ hand k d) (hv : v ∈ k.freelist) : v ∈ k₀.freelist := by
  rw [← Multiset.mem_coe, h.pages]
  exact Multiset.mem_add.mpr (.inr (Multiset.mem_add.mpr (.inr hv)))

theorem write (h : Builds k₀ hand k d) (hv : v ∈ k₀.freelist) (bytes : Page) :
    Builds k₀ hand { k with mem := update k.mem v bytes } d where
  image := h.image
  pages := h.pages
  bytes u hu := by
    have hne : u ≠ v := fun he => hu (he ▸ hv)
    exact (update_of_ne hne ..).trans (h.bytes u hu)

theorem take {who : Caller} (h : Builds k₀ hand k d) (ha : kalloc k who = some (v, k')) :
    Builds k₀ ({v} + hand) k' d := by
  obtain ⟨rest, hf, rfl⟩ := kalloc_eq_some ha
  refine ⟨h.image, ?_, h.bytes⟩
  rw [h.pages, hf, ← Multiset.cons_coe, ← Multiset.singleton_add]
  abel

theorem mem_of_kalloc {who : Caller} (h : Builds k₀ hand k d)
    (ha : kalloc k who = some (v, k')) : v ∈ k₀.freelist :=
  h.mem_of_free (Xv6Mmap.mem_of_kalloc ha)

theorem giveBack (h : Builds k₀ ({v} + hand) k d) (hf : kfree k v = .ok k') :
    Builds k₀ hand k' d := by
  obtain ⟨-, rfl⟩ := kfree_eq_ok hf
  refine ⟨h.image, ?_, (h.write (h.mem_of_hand ?_) _).bytes⟩
  · rw [h.pages]
    change _ = d.held + (hand + ((v :: k.freelist : List Word) : Multiset Word))
    rw [← Multiset.cons_coe, ← Multiset.singleton_add]
    abel
  · exact Multiset.mem_add.mpr (.inl (Multiset.mem_singleton_self v))

theorem walk {va : Word} {b : Bool} (h : Builds k₀ hand k d)
    (hw : walkpgdir k d va true = (b, k', d')) : Builds k₀ hand k' d' := by
  cases walkpgdir_ends hw with
  | found | full => exact h
  | added page k1 htab ha =>
    have hva := va.isLt
    have hk := (h.take ha).write (h.mem_of_kalloc ha) fun _ => 0#8
    refine ⟨hk.image, hk.pages.trans ?_, hk.bytes⟩
    rw [PgDir.held_addTab (by unfold vpn; omega) htab]
    change _ = {page} + d.held + (hand + (k1.freelist : Multiset Word))
    abel

theorem setEntry {n : Nat} {w : Word} (h : Builds k₀ hand k d) (hn : 0x60000 ≤ n) :
    Builds k₀ hand k (d.setEntry n w) :=
  ⟨h.image, by rw [PgDir.held_setEntry hn]; exact h.pages, h.bytes⟩

/-- A page in the caller's hands becomes a user page. -/
theorem setEntry_user {n : Nat} {w : Word} (h : Builds k₀ ({physPage w} + hand) k d)
    (hn : n < 0x60000) (htab : d.hasTab n = true) (habs : present (d.entry n) = false)
    (hw : present w = true) : Builds k₀ hand k (d.setEntry n w) := by
  refine ⟨h.image, ?_, h.bytes⟩
  rw [PgDir.held_setEntry_user hn htab habs hw, h.pages]
  abel

end Builds

/-! ## Settling it -/

/-- Freeing the tables of the directory entries `i … i + n - 1`. -/
theorem freeTabs_gives {d : PgDir} :
    ∀ {n i : Nat} {k : Kmem},
      (∀ v ∈ holdings (Finset.Ico i (i + n)) d.tabAt, k.image.isPage v = true) →
      ∃ k', freeTabs d n i k = .ok k' ∧ k'.image = k.image ∧
        (k'.freelist : Multiset Word) = holdings (Finset.Ico i (i + n)) d.tabAt + k.freelist ∧
        ∀ v, v ∉ holdings (Finset.Ico i (i + n)) d.tabAt → k'.mem v = k.mem v
  | 0, i, k, _ => by
    refine ⟨k, rfl, rfl, ?_, fun _ _ => rfl⟩
    rw [Nat.add_zero, holdings, Finset.Ico_self, Finset.sum_empty, zero_add]
  | n + 1, i, k, hpages => by
    have hsplit : holdings (Finset.Ico i (i + (n + 1))) d.tabAt
        = d.tabAt i + holdings (Finset.Ico (i + 1) (i + 1 + n)) d.tabAt := by
      unfold holdings
      rw [Finset.sum_eq_sum_Ico_succ_bot (by omega), show i + (n + 1) = i + 1 + n by omega]
    rw [hsplit] at hpages ⊢
    rw [freeTabs]
    cases ht : d.pde i with
    | none =>
      rw [PgDir.tabAt_of_none ht, zero_add] at hpages ⊢
      exact freeTabs_gives hpages
    | some t =>
      rw [PgDir.tabAt_of_some ht] at hpages ⊢
      have hpage : k.image.isPage t.page = true :=
        hpages _ (Multiset.mem_add.mpr (.inl (Multiset.mem_singleton_self _)))
      have hf : kfree k t.page = .ok _ := if_pos hpage
      dsimp only
      rw [hf]
      obtain ⟨k', hfree, him, hlist, hbytes⟩ := freeTabs_gives (n := n) (i := i + 1)
        (k := { k.memset t.page 1#8 with
          freelist := t.page :: k.freelist
          log := .free t.page :: k.log })
        (d := d) fun v hv => hpages v (Multiset.mem_add.mpr (.inr hv))
      refine ⟨k', hfree, him, ?_, fun v hv => ?_⟩
      · rw [hlist, ← Multiset.cons_coe, ← Multiset.singleton_add]
        abel
      · rw [Multiset.mem_add, not_or] at hv
        rw [hbytes v hv.2]
        exact update_of_ne (fun he => hv.1 (Multiset.mem_singleton.mpr he)) ..

/-- **`freevm` gives back all that a directory holds**, each page once. -/
theorem Builds.settle {k₀ k : Kmem} {hand : Multiset Word} {d : PgDir} (h : Builds k₀ hand k d)
    (him : k₀.image.Linked) (hk : k₀.Sound) :
    ∃ k', freevm k d = .ok k' ∧ k'.image = k₀.image ∧
      (k₀.freelist : Multiset Word) = hand + k'.freelist ∧
      ∀ v, v ∉ k₀.freelist → k'.mem v = k₀.mem v := by
  have hheld : ∀ v ∈ d.held, k₀.image.isPage v = true := fun v hv => hk v (h.mem_of_held hv)
  have hup : upPage minAddr - upPage 0#32 = 0x60000 := by decide
  obtain ⟨k1, d1, heach, hback⟩ := deallocEach_givesBack him h.image (p := 0) (d := d)
    (n := 0x60000) fun q _ hlt hp => by
      have hmem := PgDir.mem_userPages.mpr ⟨q, by omega, hp, rfl⟩
      exact hheld _ (PgDir.mem_held.mpr (.inr (.inr hmem)))
  have hde : deallocuvm k d minAddr 0#32 = .ok (0#32, k1, d1) := by
    rw [deallocuvm_eq_each (by decide) (by decide), hup,
      show upPage 0#32 = 0 from rfl, heach]
  have htabs : d1.tabPages = d.tabPages := PgDir.tabPages_congr hback.tabPage
  have hmemTab : ∀ v ∈ d1.tabPages, v ∈ d.held := fun v hv => by
    rw [htabs] at hv
    exact PgDir.mem_held.mpr (.inr (.inl hv))
  have hico : holdings (Finset.Ico 0 (0 + 1024)) d1.tabAt = d1.tabPages := by
    rw [Nat.zero_add, ← Finset.range_eq_Ico]
    unfold PgDir.tabPages
    rfl
  obtain ⟨k2, hfree, him2, hlist, hbytes⟩ := freeTabs_gives (d := d1) (n := 1024) (i := 0) (k := k1)
    fun v hv => by
      rw [hback.image, h.image]
      rw [hico] at hv
      exact hheld v (hmemTab v hv)
  rw [hico] at hlist hbytes
  have hpage : k2.image.isPage d1.page = true := by
    rw [him2, hback.image, h.image, hback.page]
    exact hheld _ (PgDir.mem_held.mpr (.inl rfl))
  have hf : kfree k2 d1.page = .ok _ := if_pos hpage
  have hall : freevm k d = kfree k2 d1.page := by
    unfold freevm
    rw [hde]
    dsimp only
    rw [hfree]
  refine ⟨_, hall.trans hf, him2.trans (hback.image.trans h.image), ?_, fun v hv => ?_⟩
  · have huser := PgDir.coe_presentFrom d 0x60000
    have hmid : (k1.freelist : Multiset Word) = d.userPages + k.freelist := by
      unfold PgDir.userPages
      rw [hback.freelist, ← Multiset.coe_add, Multiset.coe_reverse, huser]
    change _ = hand + ((d1.page :: k2.freelist : List Word) : Multiset Word)
    rw [h.pages, PgDir.held, ← Multiset.cons_coe, ← Multiset.singleton_add, hlist, hmid, htabs,
      hback.page]
    abel
  · have hv' : v ∉ d.held := fun hmem => hv (h.mem_of_held hmem)
    rw [PgDir.mem_held, not_or, not_or] at hv'
    have hne : v ≠ d1.page := hback.page ▸ hv'.1
    have huser : ∀ p ∈ d.presentFrom 0 0x60000, physPage (d.entry p) ≠ v := fun p hp he => by
      obtain ⟨hrange, hpres⟩ := List.mem_filter.mp hp
      have hlt := (List.mem_range'_1.mp hrange).2
      exact hv'.2.2 (PgDir.mem_userPages.mpr ⟨p, by omega, hpres, he⟩)
    refine (update_of_ne hne ..).trans ?_
    rw [hbytes v (by rw [htabs]; exact hv'.2.1), hback.bytes v huser, h.bytes v hv]

end Xv6Mmap
