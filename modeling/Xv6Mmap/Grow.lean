import Xv6Mmap.Dealloc
import Xv6Mmap.MapPages

/-!
# Growing user memory (`vm.c:220-250`)

`allocuvm` takes one page after another, and it can run out of them in two ways: for a data page or
for a page table. Each has its own way back, through a range that is mapped in part.

* `Grows` is the state after some pages of the range were mapped, with the pages that were taken as
  two lists; `Grows.snoc` adds one, `Grows.rollBack` is `deallocuvm` from there.
* `allocLoop_grows` is the loop, by induction on the pages still to come.
* **`allocuvm_grows_or_rolls_back`**: which of the two happens is decided by the number of free
  pages before the call, and a failed call leaves no page behind but the new page tables.
-/

namespace Xv6Mmap

open Function (update_self update_of_ne)

/-- The entry of a user page that lives in `mem`. -/
def userEntry (mem : Word) : Word := v2p mem ||| (pteW ||| pteU) ||| pteP

theorem physPage_userEntry {mem : Word} (h : mem.toNat % 4096 = 0) :
    physPage (userEntry mem) = mem :=
  p2v_pteAddr_or h (by decide)

/-- From page `lo` on the pages `data` were mapped, zero-filled, one after another; `tabs` are the
page tables that were added for them. -/
structure Grows (k : Kmem) (d : PgDir) (lo : Nat) (data tabs : List Word) (k' : Kmem) (d' : PgDir) :
    Prop where
  image : k'.image = k.image
  page : d'.page = d.page
  perm : k.freelist.Perm (data ++ tabs ++ k'.freelist)
  inside : ∀ i (hi : i < data.length), d'.entry (lo + i) = userEntry data[i]
  outside : ∀ n, n < lo ∨ lo + data.length ≤ n → d'.entry n = d.entry n
  zero : ∀ v ∈ data, k'.mem v = fun _ => 0#8
  bytes : ∀ v, v ∉ k.freelist → k'.mem v = k.mem v
  newTab : ∀ v ∈ tabs, ∃ i t, d.pde i = none ∧ d'.pde i = some t ∧ t.page = v
  oldTab : ∀ i t, d.pde i = some t → ∃ t', d'.pde i = some t' ∧ t'.page = t.page

theorem Grows.nil (k : Kmem) (d : PgDir) (lo : Nat) : Grows k d lo [] [] k d :=
  ⟨rfl, rfl, .refl _, fun _ h => absurd h (Nat.not_lt_zero _), fun _ _ => rfl, nofun, fun _ _ => rfl,
    nofun, fun _ t ht => ⟨t, ht, rfl⟩⟩

section Grows

variable {k k' : Kmem} {d d' : PgDir} {lo : Nat} {data tabs : List Word}

/-- The tables `ts` that a successful walk adds: none or one. -/
structure AddsTabs (k : Kmem) (d : PgDir) (ts : List Word) (k' : Kmem) (d' : PgDir) : Prop where
  image : k'.image = k.image
  page : d'.page = d.page
  freelist : k.freelist = ts ++ k'.freelist
  bytes : ∀ v, v ∉ ts → k'.mem v = k.mem v
  newTab : ∀ v ∈ ts, ∃ i t, d.pde i = none ∧ d'.pde i = some t ∧ t.page = v
  oldTab : ∀ i t, d.pde i = some t → d'.pde i = some t

theorem walkpgdir_addsTabs {va : Word} (h : walkpgdir k d va true = (true, k', d')) :
    ∃ ts, AddsTabs k d ts k' d' := by
  cases walkpgdir_ends h with
  | found => exact ⟨[], rfl, rfl, rfl, fun _ _ => rfl, nofun, fun _ _ ht => ht⟩
  | added page k1 htab ha =>
    obtain ⟨rest, hf, rfl⟩ := kalloc_eq_some ha
    refine ⟨[page], rfl, rfl, hf, fun v hv => ?_, fun v hv => ?_, fun i t ht => ?_⟩
    · exact update_of_ne (List.ne_of_not_mem_cons hv) ..
    · refine ⟨_, ⟨page, fun _ => 0#32⟩, htab, update_self .., ?_⟩
      exact (List.mem_singleton.mp hv).symm
    · have hne : i ≠ vpn va / 1024 := by
        rintro rfl
        rw [htab] at ht
        cases ht
      exact (update_of_ne hne ..).trans ht

theorem PgDir.pde_setEntry {n i : Nat} {w : Word} {t : PgTab} (h : d.pde i = some t) :
    ∃ t', (d.setEntry n w).pde i = some t' ∧ t'.page = t.page := by
  have hpage := PgDir.tabPage_setEntry (d := d) (n := n) (w := w) i
  rw [h, Option.map_some] at hpage
  exact Option.map_eq_some_iff.mp hpage

/-- One more page: `mem` is allocated, zeroed and mapped behind the others. -/
theorem Grows.snoc {k₀ k1 k2 : Kmem} {d₀ d2 : PgDir} {mem va : Word}
    (h : Grows k₀ d₀ lo data tabs k d) (hnd : k₀.freelist.Nodup)
    (ha : kalloc k .user = some (mem, k1))
    (hw : walkpgdir (k1.memset mem 0#8) d va true = (true, k2, d2))
    (hva : vpn va = lo + data.length) :
    ∃ tabs', Grows k₀ d₀ lo (data ++ [mem]) tabs' k2 (d2.setEntry (vpn va) (userEntry mem)) := by
  obtain ⟨ts, hts⟩ := walkpgdir_addsTabs hw
  obtain ⟨hentry, htab⟩ := walkpgdir_entry hw
  obtain ⟨rest, hf, rfl⟩ := kalloc_eq_some ha
  have hrest : rest = ts ++ k2.freelist := hts.freelist
  have hperm : k₀.freelist.Perm (data ++ [mem] ++ (tabs ++ ts) ++ k2.freelist) := by
    have hp := h.perm
    rw [hf, hrest] at hp
    refine hp.trans ?_
    simp only [List.append_assoc, List.cons_append, List.nil_append]
    exact List.Perm.append_left _ (List.perm_middle)
  have hnd' := hperm.nodup_iff.mp hnd
  have hmem0 : ∀ v, v = mem ∨ v ∈ ts → v ∈ k₀.freelist := fun v hv => by
    rw [hperm.mem_iff]
    rcases hv with rfl | hv
    · simp
    · simp [hv]
  have hdisj : ∀ v ∈ data ++ [mem], v ∉ ts := by
    intro v hv hv'
    rw [List.append_assoc, List.nodup_append] at hnd'
    exact hnd'.2.2 v hv v (by simp [hv']) rfl
  have hne : ∀ v ∈ data, v ≠ mem := by
    intro v hv he
    rw [List.append_assoc, List.append_assoc, List.nodup_append] at hnd'
    exact hnd'.2.2 v hv v (by simp [he]) rfl
  refine ⟨tabs ++ ts, hts.image.trans h.image, ?_, hperm, fun i hi => ?_, fun n hn => ?_,
    fun v hv => ?_, fun v hv => ?_, fun v hv => ?_, fun i t ht => ?_⟩
  · rw [PgDir.page_setEntry, hts.page, h.page]
  · rw [List.length_append, List.length_singleton] at hi
    by_cases hlast : i = data.length
    · subst hlast
      rw [← hva, PgDir.entry_setEntry_self (htab rfl), List.getElem_concat_length]
      rfl
    · have hi : i < data.length := by omega
      rw [PgDir.entry_setEntry_of_ne (by omega), hentry, h.inside i hi, List.getElem_append_left hi]
  · rw [List.length_append, List.length_singleton] at hn
    rw [PgDir.entry_setEntry_of_ne (by omega), hentry, h.outside n (by omega)]
  · rw [hts.bytes v (hdisj v hv)]
    rcases List.mem_append.mp hv with hv | hv
    · exact (update_of_ne (hne v hv) ..).trans (h.zero v hv)
    · rw [List.mem_singleton.mp hv]
      exact update_self ..
  · have hvmem : v ≠ mem := fun he => hv (hmem0 v (.inl he))
    rw [hts.bytes v fun hv' => hv (hmem0 v (.inr hv'))]
    exact (update_of_ne hvmem ..).trans (h.bytes v hv)
  · rcases List.mem_append.mp hv with hv | hv
    · obtain ⟨i, t, hnone, ht, hpage⟩ := h.newTab v hv
      obtain ⟨t', ht', hpage'⟩ := PgDir.pde_setEntry (n := vpn va) (w := userEntry mem)
        (hts.oldTab i t ht)
      exact ⟨i, t', hnone, ht', hpage'.trans hpage⟩
    · obtain ⟨i, t, hnone, ht, hpage⟩ := hts.newTab v hv
      obtain ⟨t', ht', hpage'⟩ := PgDir.pde_setEntry (n := vpn va) (w := userEntry mem) ht
      refine ⟨i, t', ?_, ht', hpage'.trans hpage⟩
      cases hold : d₀.pde i with
      | none => rfl
      | some t0 =>
        obtain ⟨t1, ht1, -⟩ := h.oldTab i t0 hold
        rw [hnone] at ht1
        cases ht1
  · obtain ⟨t1, ht1, hpage⟩ := h.oldTab i t ht
    obtain ⟨t', ht', hpage'⟩ := PgDir.pde_setEntry (n := vpn va) (w := userEntry mem)
      (hts.oldTab i t1 ht1)
    exact ⟨t', ht', hpage'.trans hpage⟩

end Grows

/-! ## Rolling back -/

/-- What a failed call leaves: every page that was free is free or one of the page tables `tabs`
that were added, and every translation is what it was. -/
structure RolledBack (k : Kmem) (d : PgDir) (tabs : List Word) (k' : Kmem) (d' : PgDir) : Prop where
  perm : k.freelist.Perm (tabs ++ k'.freelist)
  translate : ∀ n, d'.translate n = d.translate n
  bytes : ∀ v, v ∉ k.freelist → k'.mem v = k.mem v
  newTab : ∀ v ∈ tabs, ∃ i t, d.pde i = none ∧ d'.pde i = some t ∧ t.page = v

section Alloc

variable {k₀ k : Kmem} {d₀ d : PgDir} {lo : Nat} {data tabs : List Word} {oldsz newsz : Word}

theorem present_userEntry (mem : Word) : present (userEntry mem) = true := present_or _ _

/-- The present pages of the range are those that were mapped. -/
theorem Grows.presentFrom (h : Grows k₀ d₀ lo data tabs k d) {n : Nat} (hlen : data.length ≤ n)
    (habs : ∀ q, lo ≤ q → q < lo + n → present (d₀.entry q) = false) :
    d.presentFrom lo n = List.range' lo data.length := by
  obtain ⟨m, rfl⟩ : ∃ m, n = data.length + m := ⟨n - data.length, by omega⟩
  unfold PgDir.presentFrom
  rw [← List.range'_append_1, List.filter_append, List.filter_eq_self.mpr, List.filter_eq_nil_iff.mpr,
    List.append_nil]
  · intro q hq
    obtain ⟨hlo, hhi⟩ := List.mem_range'_1.mp hq
    rw [h.outside q (by omega), habs q (by omega) (by omega)]
    exact Bool.false_ne_true
  · intro q hq
    obtain ⟨hlo, hhi⟩ := List.mem_range'_1.mp hq
    have hin := h.inside (q - lo) (by omega)
    rw [show lo + (q - lo) = q by omega] at hin
    rw [hin]
    exact present_userEntry _

theorem Grows.physPages (h : Grows k₀ d₀ lo data tabs k d) (hk : k₀.Sound) :
    (List.range' lo data.length).map (fun q => physPage (d.entry q)) = data := by
  refine List.ext_getElem (by simp) fun i hi hi' => ?_
  rw [List.getElem_map, List.getElem_range', Nat.one_mul, h.inside i hi', physPage_userEntry]
  refine KernelImage.aligned_of_isPage (hk _ ?_)
  rw [h.perm.mem_iff, List.append_assoc]
  exact List.mem_append_left _ (List.getElem_mem hi')

/-- `deallocuvm` of the whole range, after some of its pages were mapped. -/
theorem Grows.rollBack (h : Grows k₀ d₀ lo data tabs k d) (him : k₀.image.Linked) (hk : k₀.Sound)
    (hlo : upPage oldsz = lo) (hlen : lo + data.length ≤ upPage newsz) (hle : oldsz ≤ newsz)
    (hlt : newsz < kernBase)
    (habs : ∀ n, lo ≤ n → n < upPage newsz → present (d₀.entry n) = false)
    (k1 : Kmem) (hk1 : k1.image = k₀.image) :
    ∃ k' d', deallocuvm k1 d newsz oldsz = .ok (oldsz, k', d') ∧
      k'.freelist = data.reverse ++ k1.freelist ∧ k'.image = k₀.image ∧
      (∀ v, v ∉ data → k'.mem v = k1.mem v) ∧ (∀ n, d'.translate n = d₀.translate n) ∧
      ∀ i, (d'.pde i).map PgTab.page = (d.pde i).map PgTab.page := by
  have hpages := h.presentFrom (n := upPage newsz - lo) (by omega) fun q hq hlt =>
    habs q hq (by omega)
  have hphys := h.physPages hk
  have hpresent : ∀ q, lo ≤ q → q < lo + (upPage newsz - lo) → present (d.entry q) = true →
      q ∈ List.range' lo data.length := fun q hq hlt hp => by
    rw [← hpages]
    exact List.mem_filter.mpr ⟨List.mem_range'_1.mpr ⟨hq, hlt⟩, hp⟩
  have hmem : ∀ q ∈ List.range' lo data.length, physPage (d.entry q) ∈ data := fun q hq => by
    have := List.mem_map_of_mem (f := fun q => physPage (d.entry q)) hq
    rwa [hphys] at this
  obtain ⟨k', d', heach, hback⟩ := deallocEach_givesBack him hk1 (p := lo) (d := d)
    (n := upPage newsz - lo) fun q hq hlt hp => by
      refine hk _ ?_
      rw [h.perm.mem_iff, List.append_assoc]
      exact List.mem_append_left _ (hmem q (hpresent q hq hlt hp))
  rw [hpages] at hback
  refine ⟨k', d', ?_, ?_, hback.image.trans hk1, fun v hv => ?_, fun n => ?_, hback.tabPage⟩
  · rw [deallocuvm_eq_each (Nat.le_of_lt hlt) hle, hlo, heach]
  · rw [hback.freelist, hphys]
  · refine hback.bytes v fun q hq he => hv ?_
    rw [← he]
    exact hmem q hq
  · by_cases hn : n ∈ List.range' lo data.length
    · obtain ⟨hn1, hn2⟩ := List.mem_range'_1.mp hn
      unfold PgDir.translate
      rw [hback.cleared n hn, present_zero, habs n hn1 (by omega)]
      rfl
    · refine PgDir.translate_congr ?_
      rw [hback.kept n hn]
      refine h.outside n ?_
      rw [List.mem_range'_1] at hn
      omega

theorem Grows.rolledBack {k' : Kmem} {d' : PgDir} (h : Grows k₀ d₀ lo data tabs k d)
    (hfree : (data ++ k.freelist).Perm k'.freelist)
    (htrans : ∀ n, d'.translate n = d₀.translate n)
    (hbytes : ∀ v, v ∉ k₀.freelist → k'.mem v = k₀.mem v)
    (htab : ∀ i, (d'.pde i).map PgTab.page = (d.pde i).map PgTab.page) :
    RolledBack k₀ d₀ tabs k' d' := by
  refine ⟨?_, htrans, hbytes, fun v hv => ?_⟩
  · refine h.perm.trans (List.Perm.trans ?_ (hfree.append_left tabs))
    rw [← List.append_assoc]
    exact List.perm_append_comm.append_right _
  · obtain ⟨i, t, hnone, ht, hpage⟩ := h.newTab v hv
    have hmap := htab i
    rw [ht, Option.map_some] at hmap
    obtain ⟨t', ht', hpage'⟩ := Option.map_eq_some_iff.mp hmap
    exact ⟨i, t', hnone, ht', hpage'.trans hpage⟩

/-- The loop of `allocuvm` with `j` pages to go: with a page for each of them and for each table
they lack it maps them all, and otherwise everything is taken back. -/
theorem allocLoop_grows (him : k₀.image.Linked) (hk : k₀.Sound) (hnd : k₀.freelist.Nodup)
    (hlo : upPage oldsz = lo) (hle : oldsz ≤ newsz) (hlt : newsz < kernBase)
    (habs : ∀ n, lo ≤ n → n < upPage newsz → present (d₀.entry n) = false) :
    ∀ (j fuel : Nat) {k : Kmem} {d : PgDir} {a : Word} {data tabs : List Word}, j < fuel →
      a.toNat % 4096 = 0 → vpn a = lo + data.length → vpn a + j = upPage newsz →
      Grows k₀ d₀ lo data tabs k d →
      (j + d.missing (vpn a) (upPage newsz) ≤ k.freelist.length ∧
        ∃ data' tabs' k' d', allocLoop oldsz newsz fuel k d a = .ok (newsz, k', d') ∧
          lo + data'.length = upPage newsz ∧ Grows k₀ d₀ lo data' tabs' k' d') ∨
      (k.freelist.length < j + d.missing (vpn a) (upPage newsz) ∧
        ∃ tabs' k' d', allocLoop oldsz newsz fuel k d a = .ok (0#32, k', d') ∧
          RolledBack k₀ d₀ tabs' k' d') := by
  have hltN : newsz.toNat < 0x80000000 := BitVec.lt_def.mp hlt
  intro j
  induction j with
  | zero =>
    intro fuel k d a data tabs hfuel hal hva hend h
    obtain ⟨fuel, rfl⟩ : ∃ f, fuel = f + 1 := ⟨fuel - 1, by omega⟩
    have hstop : ¬ a < newsz := (lt_iff_vpn_lt hal).not.mpr (by omega)
    refine .inl ⟨by rw [PgDir.missing_of_le (by omega)]; omega, data, tabs, k, d, ?_, by omega, h⟩
    rw [allocLoop, if_neg hstop]
  | succ j ih =>
    intro fuel k d a data tabs hfuel hal hva hend h
    obtain ⟨fuel, rfl⟩ : ∃ f, fuel = f + 1 := ⟨fuel - 1, by omega⟩
    have hgo : a < newsz := (lt_iff_vpn_lt hal).mpr (by omega)
    have hgoN := BitVec.lt_def.mp hgo
    have hroll := h.rollBack him hk hlo (by omega) hle hlt habs
    have hdata : ∀ v, v ∉ k₀.freelist → v ∉ data := fun v hv hv' => hv <| by
      rw [h.perm.mem_iff, List.append_assoc]
      exact List.mem_append_left _ hv'
    rw [allocLoop, if_pos hgo]
    cases ha : kalloc k .user with
    | none =>
      have hnil := kalloc_eq_none ha
      obtain ⟨k', d', hde, hfree, him', hmem, htrans, htab⟩ := hroll k h.image
      refine .inr ⟨by rw [hnil, List.length_nil]; omega, tabs, k', d', by rw [hde], ?_⟩
      refine h.rolledBack ?_ htrans (fun v hv => ?_) htab
      · rw [hfree]
        exact (List.reverse_perm data).symm.append_right _
      · rw [hmem v (hdata v hv), h.bytes v hv]
    | some r =>
      obtain ⟨mem, k1⟩ := r
      obtain ⟨rest, hf, hk1⟩ := kalloc_eq_some ha
      have hmem0 : mem ∈ k₀.freelist := by
        rw [h.perm.mem_iff, hf]
        simp
      have hlen : (k1.memset mem 0#8).freelist = rest := by rw [hk1]; rfl
      rw [hf, List.length_cons]
      dsimp only
      rw [mappages_page hal]
      by_cases hroom : d.lacks (vpn a) ≤ rest.length
      · obtain ⟨k2, d2, hw, htook, hwalked⟩ := @walkpgdir_took (k1.memset mem 0#8) d a
          (by rw [hlen]; exact hroom)
        have habsent : present (d2.entry (vpn a)) = false := by
          rw [hwalked.entry, h.outside _ (by omega), habs _ (by omega) (by omega)]
        have hcount := htook.count
        rw [hlen] at hcount
        obtain ⟨tabs', hgrows⟩ := h.snoc hnd ha hw hva
        have hnext := toNat_add_pgSize (a := a) (by omega)
        have hvpn := vpn_add_pgSize (a := a) (by omega)
        have hmiss := PgDir.missing_eq hwalked (show vpn a < upPage newsz by omega)
        rw [hw]
        simp only [habsent, Bool.false_eq_true, if_false]
        have hih := ih fuel (a := a + pgSize) (by omega) (by omega)
          (by rw [hvpn, List.length_append, List.length_singleton]; omega) (by omega) hgrows
        rw [hvpn, PgDir.missing_congr fun i => PgDir.isNone_setEntry i] at hih
        rcases hih with ⟨hneed, hok⟩ | ⟨hneed, hfail⟩
        · exact .inl ⟨by omega, hok⟩
        · exact .inr ⟨by omega, hfail⟩
      · -- no page for the table: the data page goes back after the others
        have hmiss := d.lacks_le_missing (show vpn a < upPage newsz by omega)
        rw [walkpgdir_fails (k := k1.memset mem 0#8) (by rw [hlen]; omega)]
        dsimp only
        obtain ⟨k', d', hde, hfree, him', hmem, htrans, htab⟩ :=
          hroll (k1.memset mem 0#8) (by rw [hk1]; exact h.image)
        have hpage : k'.image.isPage mem = true := by
          rw [him']
          exact hk mem hmem0
        refine .inr ⟨by omega, tabs, _, d', by rw [hde]; dsimp only; rw [kfree, if_pos hpage], ?_⟩
        refine h.rolledBack ?_ htrans (fun v hv => ?_) htab
        · rw [hf]
          refine List.perm_middle.trans (List.Perm.cons mem ?_)
          rw [hfree, hlen]
          exact (List.reverse_perm data).symm.append_right _
        · have hne : v ≠ mem := fun he => hv (he ▸ hmem0)
          refine (update_of_ne hne ..).trans ?_
          rw [hmem v (hdata v hv), hk1]
          exact (update_of_ne hne ..).trans (h.bytes v hv)

end Alloc

/-! ## `allocuvm` -/

/-- The pages that growing from `oldsz` to `newsz` takes: one for every page of the range, and one
for every table that these lack. -/
def PgDir.growNeed (d : PgDir) (oldsz newsz : Word) : Nat :=
  upPage newsz - upPage oldsz + d.missing (upPage oldsz) (upPage newsz)

/-- `allocuvm` maps the whole range when there are enough free pages, and otherwise rolls back. -/
theorem allocuvm_spec {k : Kmem} {d : PgDir} {oldsz newsz : Word} (him : k.image.Linked)
    (hk : k.Sound) (hnd : k.freelist.Nodup) (hle : oldsz ≤ newsz) (hlt : newsz < kernBase)
    (habs : ∀ n, upPage oldsz ≤ n → n < upPage newsz → present (d.entry n) = false) :
    (d.growNeed oldsz newsz ≤ k.freelist.length ∧ ∃ data tabs k' d',
      allocuvm k d oldsz newsz = .ok (newsz, k', d') ∧
      upPage oldsz + data.length = upPage newsz ∧ Grows k d (upPage oldsz) data tabs k' d') ∨
    (k.freelist.length < d.growNeed oldsz newsz ∧ ∃ tabs k' d',
      allocuvm k d oldsz newsz = .ok (0#32, k', d') ∧ RolledBack k d tabs k' d') := by
  rw [BitVec.le_def] at hle
  have hltN : newsz.toNat < 0x80000000 := BitVec.lt_def.mp hlt
  have hup := pgRoundUp_eq (show oldsz.toNat ≤ 0x80000000 by omega)
  have hvpn := vpn_pgRoundUp (show oldsz.toNat ≤ 0x80000000 by omega)
  have hpages : upPage oldsz ≤ upPage newsz ∧ upPage newsz ≤ 0x80000 := by
    unfold upPage
    omega
  have heq : allocuvm k d oldsz newsz = allocLoop oldsz newsz 1048577 k d (pgRoundUp oldsz) := by
    unfold allocuvm
    rw [if_neg (by rw [BitVec.le_def]; exact Nat.not_le.mpr hltN),
      if_neg (by rw [BitVec.lt_def]; omega)]
  have hloop := allocLoop_grows him hk hnd rfl (BitVec.le_def.mpr hle) hlt habs
    (upPage newsz - upPage oldsz) 1048577 (a := pgRoundUp oldsz) (by omega) (by omega)
    (by rw [hvpn]; rfl) (by omega) (.nil k d _)
  rwa [hvpn, ← heq] at hloop

/-- **`allocuvm` grows or rolls back**: with enough free pages it returns `newsz`, and the pages of
the range have been added, on distinct pages that are zero; otherwise it returns zero with the
translations it found and every page on the free list again but for the new page tables. -/
theorem allocuvm_grows_or_rolls_back (k : Kmem) (d : PgDir) (oldsz newsz : Word)
    (him : k.image.Linked) (hk : k.Sound) (hnd : k.freelist.Nodup) (hle : oldsz ≤ newsz)
    (hlt : newsz < kernBase)
    (habs : ∀ n, upPage oldsz ≤ n → n < upPage newsz → present (d.entry n) = false) :
    (d.growNeed oldsz newsz ≤ k.freelist.length → ∃ data tabs k' d',
      allocuvm k d oldsz newsz = .ok (newsz, k', d') ∧
      upPage oldsz + data.length = upPage newsz ∧ data.Nodup ∧
      Grows k d (upPage oldsz) data tabs k' d') ∧
    (k.freelist.length < d.growNeed oldsz newsz → ∃ tabs k' d',
      allocuvm k d oldsz newsz = .ok (0#32, k', d') ∧ RolledBack k d tabs k' d') := by
  rcases allocuvm_spec him hk hnd hle hlt habs with
    ⟨hneed, data, tabs, k', d', hok, hlen, hgrows⟩ | ⟨hneed, hfail⟩
  · refine ⟨fun _ => ⟨data, tabs, k', d', hok, hlen, ?_, hgrows⟩, fun h => by omega⟩
    have hnd' := hgrows.perm.nodup_iff.mp hnd
    rw [List.append_assoc] at hnd'
    exact (List.nodup_append.mp hnd').1
  · exact ⟨fun h => by omega, fun _ => hfail⟩

/-- Growing an empty address space by two pages with three free pages, and with two: the table is
then the second page, and there is none left for the second page of the range. -/
theorem allocuvm_grows_or_rolls_back_two :
    (∃ data tabs k' d', allocuvm (Kmem.initial 3) (PgDir.empty 0#32) 0#32 0x1800#32
        = .ok (0x1800#32, k', d') ∧
      upPage 0#32 + data.length = upPage 0x1800#32 ∧ data.Nodup ∧
      Grows (Kmem.initial 3) (PgDir.empty 0#32) (upPage 0#32) data tabs k' d') ∧
    ∃ tabs k' d', allocuvm (Kmem.initial 2) (PgDir.empty 0#32) 0#32 0x1800#32
        = .ok (0#32, k', d') ∧
      RolledBack (Kmem.initial 2) (PgDir.empty 0#32) tabs k' d' := by
  have habs : ∀ n, upPage 0#32 ≤ n → n < upPage 0x1800#32 →
      present ((PgDir.empty 0#32).entry n) = false := fun n _ _ => by
    rw [PgDir.entry_empty, present_zero]
  constructor
  · exact (allocuvm_grows_or_rolls_back (Kmem.initial 3) (PgDir.empty 0#32) 0#32 0x1800#32
      KernelImage.sample_linked (Kmem.initial_sound (by decide)) (Kmem.initial_nodup (by decide))
      (by decide) (by decide) habs).1 (by decide)
  · exact (allocuvm_grows_or_rolls_back (Kmem.initial 2) (PgDir.empty 0#32) 0#32 0x1800#32
      KernelImage.sample_linked (Kmem.initial_sound (by decide)) (Kmem.initial_nodup (by decide))
      (by decide) (by decide) habs).2 (by decide)

end Xv6Mmap
