import Xv6Mmap.Copyout
import Xv6Mmap.FsBlocks
import Xv6Mmap.Holdings

/-!
# Page tables in memory (`vm.c:36-81`, `trap.c:82-136`)

The fault handler once more, with the page directory and the page tables in the pages they are in.
There a store to such a page is a change of the translation: `kalloc` and `memset` of a page that is a
table, and a file that is read into a page mapped over one. `Vm` keeps the tables as values and sees
none of this.

* `dirAt k pd` is the directory that the MMU finds from page `pd` on. The functions are those of `Vm`
  and `Trap` on the memory; of `p->pgdir` they use the pointer, `p.pgdir.page`.
* `Holds k d km`: the memory `km` has the tables of `d` in it and is `k` otherwise, and no page of
  them is free or used twice.
* The results are simulations (`Lib.Agree`): from memories related by `Holds` both models return, halt
  or panic alike, as long as no page that is a table is written by a file (`Mirrors.pgflt`). At the
  start of a page this cannot happen.

Out of scope: `sys_wunmap` and the write-back on these memories, `p->arr[i]` and `p->wmapinfo`, which
stay values (`Proc.maps`), and the TLB.
-/

namespace Xv6Mmap

open Lib
open Function (update update_self update_of_ne)

namespace Kmem

/-! ## The words of a page -/

/-- The entry `i` of the page table or directory in page `v`. -/
def word (k : Kmem) (v : Word) (i : Nat) : Word :=
  if i < 1024 then BitVec.ofNat 32 (Fs.wordAt (k.mem v) i) else 0#32

/-- `v[i] = w`. -/
def setWord (k : Kmem) (v : Word) (i : Nat) (w : Word) : Kmem :=
  { k with mem := update k.mem v (Fs.setWord (k.mem v) i w.toNat) }

/-- The directory in page `pd`, with the tables its entries point to. -/
def dirAt (k : Kmem) (pd : Word) : PgDir where
  page := pd
  pde i :=
    if present (k.word pd i) then
      some ⟨p2v (pteAddr (k.word pd i)), k.word (p2v (pteAddr (k.word pd i)))⟩
    else none

/-! ## The functions on memory -/

/-- `walkpgdir(pgdir, va, alloc)`: the page table; the pointer returned is to its entry `PTX(va)`. -/
def walkpgdir (k : Kmem) (pd va : Word) (alloc : Bool) : Option Word × Kmem :=
  let pde := k.word pd (pdx va)
  if present pde then (some (p2v (pteAddr pde)), k)
  else if alloc then
    match kalloc k .pgtab with
    | none => (none, k)
    | some (pgtab, k) =>
      (some pgtab, (k.memset pgtab 0#8).setWord pd (pdx va) (v2p pgtab ||| pteP ||| pteW ||| pteU))
  else (none, k)

/-- The loop of `mappages`. -/
def mapLoop (pd last perm : Word) : Nat → Kmem → Word → Word → Except Halt (Bool × Kmem)
  | 0, _, _, _ => .error .deadlock
  | fuel + 1, k, a, pa =>
    match k.walkpgdir pd a true with
    | (none, k) => .ok (false, k)
    | (some pgtab, k) =>
      if present (k.word pgtab (ptx a)) then .error (.panic "remap")
      else
        let k := k.setWord pgtab (ptx a) (pa ||| perm ||| pteP)
        if a = last then .ok (true, k) else mapLoop pd last perm fuel k (a + pgSize) (pa + pgSize)

/-- `mappages(pgdir, va, size, pa, perm)`. -/
def mappages (k : Kmem) (pd va size pa perm : Word) : Except Halt (Bool × Kmem) :=
  mapLoop pd (pgRoundDown (va + size - 1#32)) perm 1048576 k (pgRoundDown va) pa

/-- Copy bytes to user memory; every byte is translated anew. -/
def writeUser (pd : Word) : Kmem → Word → List Byte → Except Halt Kmem
  | k, _, [] => .ok k
  | k, va, b :: bs =>
    if present ((k.dirAt pd).entry (vpn va)) then
      writeUser pd (pokeUser k (k.dirAt pd) va b) (va + 1#32) bs
    else .error .deadlock

/-- `fileread` into the page just mapped. -/
def loadFile (k : Kmem) (p : Proc) (mapping : MemBlock) (va : Word) (io : FileIo) :
    Except Halt Kmem :=
  if hasFlag mapping.flags mapAnonymous then .ok k
  else
    match p.ofileAt mapping.fd with
    | .file _ =>
      match io.input with
      | none => .error .blocked
      | some bytes => writeUser p.pgdir.page k va (bytes.take 4096)
    | _ => .error .badDeref

/-- The `T_PGFLT` case of `trap`. -/
def pgflt (k : Kmem) (p : Proc) (va : Word) (io : FileIo) : Except Halt (Kmem × Proc) :=
  match p.maps.faultSlot va with
  | none => .ok (k, p)
  | some location =>
    let mapping := p.maps.arr location
    match kalloc k (.fault mapping.rid) with
    | none => .error (.panic "kalloc")
    | some (mem, k) =>
      match (k.memset mem 0#8).mappages p.pgdir.page va pgSize (v2p mem) (pteW ||| pteU) with
      | .error e => .error e
      | .ok (mapped, k) =>
        match if mapped then .ok k else kfree k mem with
        | .error e => .error e
        | .ok k =>
          match k.loadFile p mapping va io with
          | .error e => .error e
          | .ok k => .ok (k, { p with maps := p.maps.load location va })

end Kmem

/-! ## The pages of a directory -/

namespace PgDir

/-- The directory or one of its tables is in page `v`. -/
def Occupies (d : PgDir) (v : Word) : Prop := v = d.page ∨ ∃ i t, d.pde i = some t ∧ t.page = v

/-- The directory and its tables are in different pages, none of them free. -/
structure Apart (d : PgDir) (free : List Word) : Prop where
  dir : ∀ i t, d.pde i = some t → t.page ≠ d.page
  tab : ∀ i j t u, d.pde i = some t → d.pde j = some u → t.page = u.page → i = j
  free : ∀ v, d.Occupies v → v ∉ free

variable {d : PgDir} {n i : Nat} {w v page : Word} {free : List Word}

theorem occupies_iff :
    d.Occupies v ↔ v = d.page ∨ ∃ i, (d.pde i).map PgTab.page = some v := by
  simp only [Occupies, Option.map_eq_some_iff]

theorem occupies_setEntry : (d.setEntry n w).Occupies v ↔ d.Occupies v := by
  simp only [occupies_iff, tabPage_setEntry, page_setEntry]

theorem pde_addTab {j : Nat} {t : PgTab} (h : (d.addTab i page).pde j = some t) :
    (j = i ∧ t.page = page) ∨ d.pde j = some t := by
  change update d.pde i (some ⟨page, fun _ => 0#32⟩) j = some t at h
  by_cases hj : j = i
  · rw [hj, update_self] at h
    cases h
    exact .inl ⟨hj, rfl⟩
  · exact .inr (by rwa [update_of_ne hj] at h)

theorem occupies_addTab (h : (d.addTab i page).Occupies v) : d.Occupies v ∨ v = page := by
  obtain rfl | ⟨j, t, ht, rfl⟩ := h
  · exact .inl (.inl rfl)
  · exact (pde_addTab ht).symm.imp (fun hold => .inr ⟨j, t, hold, rfl⟩) And.right

theorem Occupies.addTab (h : d.Occupies v) (hnone : d.pde i = none) :
    (d.addTab i page).Occupies v := by
  obtain rfl | ⟨j, t, ht, rfl⟩ := h
  · exact .inl rfl
  · refine .inr ⟨j, t, (update_of_ne ?_ ..).trans ht, rfl⟩
    rintro rfl
    rw [hnone] at ht
    cases ht

theorem Apart.setEntry (h : d.Apart free) : (d.setEntry n w).Apart free := by
  have hpage : ∀ j t, (d.setEntry n w).pde j = some t → ∃ u, d.pde j = some u ∧ u.page = t.page := by
    intro j t ht
    have hmap := tabPage_setEntry (d := d) (n := n) (w := w) j
    rw [ht, Option.map_some] at hmap
    exact Option.map_eq_some_iff.mp hmap.symm
  refine ⟨fun j t ht => ?_, fun j j' t t' ht ht' heq => ?_, fun v hv => ?_⟩
  · obtain ⟨u, hu, hut⟩ := hpage j t ht
    rw [page_setEntry, ← hut]
    exact h.dir j u hu
  · obtain ⟨u, hu, hut⟩ := hpage j t ht
    obtain ⟨u', hu', hut'⟩ := hpage j' t' ht'
    exact h.tab j j' u u' hu hu' (by rw [hut, hut', heq])
  · exact h.free v (occupies_setEntry.mp hv)

/-- A table in a page that was free. -/
theorem Apart.addTab (h : d.Apart free) (hpage : page ∈ free) {rest : List Word}
    (hrest : rest ⊆ free) (hnot : page ∉ rest) : (d.addTab i page).Apart rest := by
  have hout : ¬ d.Occupies page := fun ho => h.free page ho hpage
  refine ⟨fun j t ht => ?_, fun j j' t t' ht ht' heq => ?_, fun v hv => ?_⟩
  · rcases pde_addTab ht with ⟨-, hp⟩ | hold
    · exact fun he => hout (.inl (hp ▸ he))
    · exact h.dir j t hold
  · rcases pde_addTab ht with ⟨rfl, hp⟩ | hold <;> rcases pde_addTab ht' with ⟨rfl, hp'⟩ | hold'
    · rfl
    · exact absurd (.inr ⟨j', t', hold', by rw [← heq, hp]⟩) hout
    · exact absurd (.inr ⟨j, t, hold, by rw [heq, hp']⟩) hout
    · exact h.tab j j' t t' hold hold' heq
  · rcases occupies_addTab hv with ho | rfl
    · exact fun hmem => h.free v ho (hrest hmem)
    · exact hnot

end PgDir

/-! ## What the MMU finds after a store -/

namespace Kmem

variable {k k' : Kmem} {pd v w : Word} {i j n : Nat} {free : List Word}

theorem word_setWord_self (h : i < 1024) : (k.setWord v i w).word v i = w := by
  simp only [word, setWord, if_pos h, update_self]
  rw [Fs.wordAt_setWord_self _ _ w.isLt, BitVec.ofNat_toNat, BitVec.setWidth_eq]

theorem word_setWord_of_ne {u : Word} (h : u ≠ v ∨ j ≠ i) :
    (k.setWord v i w).word u j = k.word u j := by
  by_cases hu : u = v
  · simp only [word, setWord, hu, update_self]
    rw [Fs.wordAt_setWord_of_ne _ _ (h.resolve_left fun hne => hne hu)]
  · simp only [word, setWord, update_of_ne hu]

theorem word_congr (h : k'.mem v = k.mem v) : k'.word v = k.word v := by
  unfold word
  rw [h]

theorem dirAt_pde (i : Nat) : (k.dirAt pd).pde i =
    if present (k.word pd i) then
      some ⟨p2v (pteAddr (k.word pd i)), k.word (p2v (pteAddr (k.word pd i)))⟩
    else none :=
  rfl

/-- The table of a directory is the one in its page. -/
theorem pte_of_dirAt {t : PgTab} (h : (k.dirAt pd).pde i = some t) : t.pte = k.word t.page := by
  rw [dirAt_pde] at h
  split at h
  · cases h
    rfl
  · cases h

theorem dirAt_congr (h : ∀ v, (k.dirAt pd).Occupies v → k'.mem v = k.mem v) :
    k'.dirAt pd = k.dirAt pd := by
  have hpd := word_congr (h pd (.inl rfl))
  refine congrArg (PgDir.mk pd) (funext fun i => ?_)
  by_cases hp : present (k.word pd i) = true
  · have ht : (k.dirAt pd).pde i = some _ := if_pos hp
    rw [hpd, if_pos hp, if_pos hp, word_congr (h _ (.inr ⟨i, _, ht, rfl⟩))]
  · rw [hpd, if_neg hp, if_neg hp]

/-- A store to an entry of a table. -/
theorem dirAt_setWord {t : PgTab} (ht : (k.dirAt pd).pde (n / 1024) = some t)
    (hap : (k.dirAt pd).Apart free) :
    (k.setWord t.page (n % 1024) w).dirAt pd = (k.dirAt pd).setEntry n w := by
  have hpd : (k.setWord t.page (n % 1024) w).word pd = k.word pd :=
    funext fun j => word_setWord_of_ne (.inl (hap.dir _ t ht).symm)
  unfold PgDir.setEntry
  rw [ht]
  refine congrArg (PgDir.mk pd) (funext fun j => ?_)
  rw [hpd]
  by_cases hj : j = n / 1024
  · subst hj
    rw [dirAt_pde] at ht
    by_cases hp : present (k.word pd (n / 1024)) = true
    · rw [if_pos hp] at ht
      rw [if_pos hp, update_self]
      cases ht
      refine congrArg (fun f => some (PgTab.mk _ f)) (funext fun m => ?_)
      by_cases hm : m = n % 1024
      · rw [hm, update_self, word_setWord_self (Nat.mod_lt _ (by decide))]
      · rw [update_of_ne hm, word_setWord_of_ne (.inr hm)]
    · rw [if_neg hp] at ht
      cases ht
  · rw [update_of_ne hj, dirAt_pde]
    by_cases hp : present (k.word pd j) = true
    · have hj' : (k.dirAt pd).pde j = some _ := if_pos hp
      rw [if_pos hp, if_pos hp]
      refine congrArg (fun f => some (PgTab.mk _ f)) (funext fun m => ?_)
      exact word_setWord_of_ne (.inl fun he => hj (hap.tab _ _ _ _ hj' ht he))
    · rw [if_neg hp, if_neg hp]

/-- The entry that `walkpgdir` makes for a new table. -/
theorem physPage_pde (h : v.toNat % 4096 = 0) :
    present (v2p v ||| pteP ||| pteW ||| pteU) = true ∧
      p2v (pteAddr (v2p v ||| pteP ||| pteW ||| pteU)) = v := by
  have he : v2p v ||| pteP ||| pteW ||| pteU = v2p v ||| (pteW ||| pteU) ||| pteP := by ac_rfl
  rw [he]
  exact ⟨present_or _ _, p2v_pteAddr_or h (by decide)⟩

/-- A table is added in a page that is not one of the directory's. -/
theorem dirAt_addTab (hi : i < 1024) (hv : v.toNat % 4096 = 0) (hap : (k.dirAt pd).Apart free)
    (hfree : v ∈ free) :
    ((k.memset v 0#8).setWord pd i (v2p v ||| pteP ||| pteW ||| pteU)).dirAt pd
      = (k.dirAt pd).addTab i v := by
  have hout : ¬ (k.dirAt pd).Occupies v := fun ho => hap.free v ho hfree
  have hne : v ≠ pd := fun he => hout (.inl he)
  obtain ⟨hpres, hphys⟩ := physPage_pde hv
  set k' := (k.memset v 0#8).setWord pd i (v2p v ||| pteP ||| pteW ||| pteU)
  have hzero : k'.word v = fun _ => 0#32 := by
    have : k'.mem v = fun _ => 0#8 := (update_of_ne hne ..).trans (update_self ..)
    funext j
    unfold word
    rw [this, Fs.wordAt_zero]
    exact ite_self _
  refine congrArg (PgDir.mk pd) (funext fun j => ?_)
  by_cases hj : j = i
  · rw [hj, update_self, word_setWord_self hi, if_pos hpres, hphys, hzero]
  · have hpd : k'.word pd j = k.word pd j := by
      rw [word_setWord_of_ne (.inr hj)]
      exact congrFun (word_congr (update_of_ne hne.symm ..)) j
    rw [update_of_ne hj, dirAt_pde, hpd]
    by_cases hp : present (k.word pd j) = true
    · have hj' : (k.dirAt pd).pde j = some _ := if_pos hp
      have hmem : k'.mem (p2v (pteAddr (k.word pd j))) = k.mem (p2v (pteAddr (k.word pd j))) :=
        (update_of_ne (hap.dir j _ hj') ..).trans
          (update_of_ne (fun he => hout (.inr ⟨j, _, hj', he⟩)) ..)
      rw [if_pos hp, if_pos hp, word_congr hmem]
    · rw [if_neg hp, if_neg hp]

end Kmem

/-! ## The memory holds the tables -/

/-- The memory `km` has the directory `d` and its tables in it, and is `k` in all else. -/
structure Holds (k : Kmem) (d : PgDir) (km : Kmem) : Prop where
  image : km.image = k.image
  freelist : km.freelist = k.freelist
  log : km.log = k.log
  dir : km.dirAt d.page = d
  mem : ∀ v, ¬ d.Occupies v → km.mem v = k.mem v
  apart : d.Apart k.freelist
  aligned : ∀ v ∈ k.freelist, v.toNat % 4096 = 0

/-- Tables have been added, in pages that were free. -/
structure NewTabs (k : Kmem) (d : PgDir) (k' : Kmem) (d' : PgDir) : Prop where
  page : d'.page = d.page
  freelist : k'.freelist <:+ k.freelist
  occupies : ∀ v, d'.Occupies v → d.Occupies v ∨ v ∈ k.freelist ∧ v ∉ k'.freelist

theorem NewTabs.trans {k k' k'' : Kmem} {d d' d'' : PgDir} (h : NewTabs k d k' d')
    (h' : NewTabs k' d' k'' d'') : NewTabs k d k'' d'' where
  page := h'.page.trans h.page
  freelist := h'.freelist.trans h.freelist
  occupies v hv := by
    rcases h'.occupies v hv with ho | ⟨hin, hout⟩
    · exact (h.occupies v ho).imp_right fun hf => ⟨hf.1, fun hmem => hf.2 (h'.freelist.subset hmem)⟩
    · exact .inr ⟨h.freelist.subset hin, hout⟩

theorem NewTabs.setEntry {k k' : Kmem} {d d' : PgDir} (h : NewTabs k d k' d') (n : Nat) (w : Word) :
    NewTabs k d k' (d'.setEntry n w) :=
  ⟨PgDir.page_setEntry.trans h.page, h.freelist, fun v hv => h.occupies v (PgDir.occupies_setEntry.mp hv)⟩

theorem walkpgdir_newTabs {k k' : Kmem} {d d' : PgDir} {va : Word} {b : Bool}
    (hnd : k.freelist.Nodup) (h : walkpgdir k d va true = (b, k', d')) : NewTabs k d k' d' := by
  cases walkpgdir_ends h with
  | found | full => exact ⟨rfl, List.suffix_refl _, fun _ hv => .inl hv⟩
  | added page k1 hnone ha =>
    refine ⟨rfl, (kalloc_drawn ha).freelist, fun v hv => ?_⟩
    refine (PgDir.occupies_addTab hv).imp_right ?_
    rintro rfl
    exact ⟨mem_of_kalloc ha, show v ∉ k1.freelist from kalloc_not_mem hnd ha⟩

namespace Holds

variable {k k' km : Kmem} {d d' : PgDir} {v w va : Word} {n : Nat} {t : PgTab} {who : Caller} {b : Bool}

theorem write (h : Holds k d km) (hout : ¬ d.Occupies v) (bytes : Page) :
    Holds { k with mem := update k.mem v bytes } d { km with mem := update km.mem v bytes } := by
  refine ⟨h.image, h.freelist, h.log, ?_, fun u hu => ?_, h.apart, h.aligned⟩
  · refine (Kmem.dirAt_congr fun u hu => ?_).trans h.dir
    rw [h.dir] at hu
    refine update_of_ne ?_ ..
    rintro rfl
    exact hout hu
  · by_cases he : u = v
    · simp only [he, update_self]
    · simp only [update_of_ne he, h.mem u hu]

theorem memset (h : Holds k d km) (hout : ¬ d.Occupies v) (c : Byte) :
    Holds (k.memset v c) d (km.memset v c) :=
  h.write hout _

theorem kalloc (h : Holds k d km) (ha : kalloc k who = some (v, k')) :
    ¬ d.Occupies v ∧ ∃ km', Xv6Mmap.kalloc km who = some (v, km') ∧ Holds k' d km' := by
  refine ⟨fun ho => h.apart.free v ho (mem_of_kalloc ha), ?_⟩
  obtain ⟨rest, hfree, rfl⟩ := kalloc_eq_some ha
  refine ⟨{ km with freelist := rest, log := .alloc v who :: km.log }, ?_, ?_⟩
  · unfold Xv6Mmap.kalloc
    rw [h.freelist, hfree]
  · have hsub : rest ⊆ k.freelist := hfree ▸ List.subset_cons_self v rest
    exact ⟨h.image, rfl, congrArg (List.cons _) h.log, h.dir, h.mem,
      ⟨h.apart.dir, h.apart.tab, fun u hu hmem => h.apart.free u hu (hsub hmem)⟩,
      fun u hu => h.aligned u (hsub hu)⟩

theorem kalloc_none (h : Holds k d km) (ha : Xv6Mmap.kalloc k who = none) :
    Xv6Mmap.kalloc km who = none := by
  unfold Xv6Mmap.kalloc
  rw [h.freelist, kalloc_eq_none ha]

theorem kfree (h : Holds k d km) (hout : ¬ d.Occupies v) :
    Agree (fun k' km' => Holds k' d km') (kfree k v) (kfree km v) := by
  unfold Xv6Mmap.kfree
  rw [h.image]
  by_cases hp : k.image.isPage v = true
  · rw [if_pos hp, if_pos hp]
    have hm := h.memset hout 1#8
    refine ⟨hm.image, congrArg (List.cons _) h.freelist, congrArg (List.cons _) h.log, hm.dir, hm.mem,
      ⟨h.apart.dir, h.apart.tab, fun u hu hmem => ?_⟩, fun u hu => ?_⟩
    · rcases List.mem_cons.mp hmem with rfl | hmem
      · exact hout hu
      · exact h.apart.free u hu hmem
    · rcases List.mem_cons.mp hu with rfl | hu
      · exact KernelImage.aligned_of_isPage hp
      · exact h.aligned u hu
  · rw [if_neg hp, if_neg hp]
    rfl

theorem setEntry (h : Holds k d km) (ht : d.pde (n / 1024) = some t) (w : Word) :
    Holds k (d.setEntry n w) (km.setWord t.page (n % 1024) w) := by
  have hdir := h.dir
  refine ⟨h.image, h.freelist, h.log, ?_, fun v hv => ?_, h.apart.setEntry, h.aligned⟩
  · rw [PgDir.page_setEntry]
    rw [← hdir] at ht
    rw [Kmem.dirAt_setWord ht (hdir ▸ h.apart), hdir]
  · rw [PgDir.occupies_setEntry] at hv
    exact (update_of_ne (fun he => hv (.inr ⟨_, t, ht, he.symm⟩)) ..).trans (h.mem v hv)

/-- The entry of a page, in its table. -/
theorem entry (h : Holds k d km) (ht : d.pde (vpn va / 1024) = some t) :
    d.entry (vpn va) = km.word t.page (ptx va) := by
  unfold PgDir.entry
  rw [ht, ptx_eq]
  rw [← h.dir] at ht
  exact congrFun (Kmem.pte_of_dirAt ht) _

theorem walk (h : Holds k d km) (hnd : k.freelist.Nodup)
    (hw : walkpgdir k d va true = (b, k', d')) :
    ∃ km', km.walkpgdir d.page va true
        = (if b then (d'.pde (vpn va / 1024)).map PgTab.page else none, km') ∧ Holds k' d' km' := by
  have hpde : (km.dirAt d.page).pde (vpn va / 1024) = d.pde (vpn va / 1024) := by rw [h.dir]
  rw [Kmem.dirAt_pde] at hpde
  unfold Kmem.walkpgdir
  rw [pdx_eq]
  cases walkpgdir_ends hw with
  | found htab =>
    by_cases hp : present (km.word d.page (vpn va / 1024)) = true
    · rw [if_pos hp] at hpde
      exact ⟨km, by simp only [if_pos hp, ← hpde, Option.map_some, if_true], h⟩
    · rw [if_neg hp] at hpde
      rw [PgDir.hasTab, ← hpde] at htab
      cases htab
  | full hnone ha =>
    have hp : ¬ present (km.word d.page (vpn va / 1024)) = true := by
      intro hp
      rw [if_pos hp, hnone] at hpde
      cases hpde
    exact ⟨km, by simp only [if_neg hp, h.kalloc_none ha, if_true, Bool.false_eq_true, if_false], h⟩
  | added page k1 hnone ha =>
    have hp : ¬ present (km.word d.page (vpn va / 1024)) = true := by
      intro hp
      rw [if_pos hp, hnone] at hpde
      cases hpde
    obtain ⟨hout, km1, ham, hk1⟩ := h.kalloc ha
    have hfree := mem_of_kalloc ha
    have hm := hk1.memset hout 0#8
    have hlt : vpn va / 1024 < 1024 := by
      have := va.isLt
      unfold vpn
      omega
    refine ⟨(km1.memset page 0#8).setWord d.page (vpn va / 1024)
      (v2p page ||| pteP ||| pteW ||| pteU), ?_, ?_⟩
    · simp only [if_neg hp, ham, if_true, PgDir.addTab, update_self, Option.map_some]
    · have hdir : km1.dirAt d.page = d := hk1.dir
      have hap : (km1.dirAt d.page).Apart k.freelist := hdir.symm ▸ h.apart
      have hadd := Kmem.dirAt_addTab hlt (h.aligned page hfree) hap hfree
      rw [hdir] at hadd
      refine ⟨hm.image, hm.freelist, hm.log, hadd, fun v hv => ?_,
        h.apart.addTab hfree (kalloc_drawn ha).freelist.subset
          (show page ∉ k1.freelist from kalloc_not_mem hnd ha), hm.aligned⟩
      have hne : v ≠ d.page := fun he => hv (.inl he)
      exact (update_of_ne hne ..).trans (hm.mem v fun ho => hv (ho.addTab hnone))

theorem mapLoop (last perm : Word) :
    ∀ (fuel : Nat) {k km : Kmem} {d : PgDir} (a pa : Word), Holds k d km → k.freelist.Nodup →
      Agree (fun r r' => r'.1 = r.1 ∧ Holds r.2.1 r.2.2 r'.2 ∧ NewTabs k d r.2.1 r.2.2)
        (mapLoop last perm fuel k d a pa) (Kmem.mapLoop d.page last perm fuel km a pa) := by
  intro fuel
  induction fuel with
  | zero => exact fun _ _ _ _ => rfl
  | succ fuel ih =>
    intro k km d a pa h hnd
    rcases hw : walkpgdir k d a true with ⟨b, k1, d1⟩
    obtain ⟨km1, hwm, h1⟩ := h.walk hnd hw
    have hg := walkpgdir_newTabs hnd hw
    rw [mapLoop_succ, hw, Kmem.mapLoop, hwm]
    cases b with
    | false => exact ⟨rfl, h1, hg⟩
    | true =>
      obtain ⟨t, ht⟩ := Option.isSome_iff_exists.mp ((walkpgdir_entry hw).2 rfl)
      dsimp only
      rw [if_pos rfl, ht, Option.map_some, h1.entry ht]
      dsimp only
      by_cases hp : present (km1.word t.page (ptx a)) = true
      · rw [if_pos hp, if_pos hp]
        rfl
      rw [if_neg hp, if_neg hp, ptx_eq]
      have h2 := h1.setEntry ht (pa ||| perm ||| pteP)
      have hg2 := hg.setEntry (vpn a) (pa ||| perm ||| pteP)
      by_cases hl : a = last
      · rw [if_pos hl, if_pos hl]
        exact ⟨rfl, h2, hg2⟩
      rw [if_neg hl, if_neg hl]
      have hrest := ih (a + pgSize) (pa + pgSize) h2 (hnd.sublist hg.freelist.sublist)
      rw [hg2.page] at hrest
      refine hrest.mono fun r r' hr => ?_
      exact ⟨hr.1, hr.2.1, hg2.trans hr.2.2⟩

theorem poke (h : Holds k d km) (hout : ¬ d.Occupies (physPage (d.entry (vpn va)))) (c : Byte) :
    Holds (pokeUser k d va c) d (pokeUser km (km.dirAt d.page) va c) := by
  rw [h.dir]
  unfold pokeUser
  change ¬ d.Occupies (p2v (pteAddr (d.entry (vpn va)))) at hout
  dsimp only
  rw [h.mem _ hout]
  exact h.write hout _

theorem writeUser :
    ∀ (bs : List Byte) {k km : Kmem} {va : Word}, Holds k d km →
      (∀ i < bs.length, (∀ j ≤ i, present (d.entry (vpn (addr va j))) = true) →
        ¬ d.Occupies (physPage (d.entry (vpn (addr va i))))) →
      Agree (fun k' km' => Holds k' d km') (writeUser d k va bs)
        (Kmem.writeUser d.page km va bs) := by
  intro bs
  induction bs with
  | nil => exact fun h _ => h
  | cons c bs ih =>
    intro k km va h hout
    rw [Xv6Mmap.writeUser, Kmem.writeUser, h.dir]
    by_cases hp : present (d.entry (vpn va)) = true
    · rw [if_pos hp, if_pos hp]
      have hstep : ∀ j, addr va (j + 1) = addr (va + 1#32) j := fun j => by
        rw [Nat.add_comm, ← addr_add]
        rfl
      have hpoke := h.poke (hout 0 (Nat.succ_pos _) fun j hj => by
        rw [Nat.le_zero.mp hj, addr_zero]
        exact hp) c
      rw [h.dir, addr_zero] at hpoke
      refine ih hpoke fun i hi hall => ?_
      rw [← hstep]
      refine hout (i + 1) (Nat.succ_lt_succ hi) fun j hj => ?_
      cases j with
      | zero => rwa [addr_zero]
      | succ j =>
        rw [hstep]
        exact hall j (Nat.le_of_succ_le_succ hj)
    · rw [if_neg hp, if_neg hp]
      rfl

end Holds

/-! ## The fault handler -/

/-- The memory and the process on the left, with the page tables in the memory. -/
def Mirrors (r r' : Kmem × Proc) : Prop :=
  ∃ d, r.2 = { r'.2 with pgdir := d } ∧ Holds r.1 d r'.1 ∧ d.page = r'.2.pgdir.page

/-- What the file delivers at `va` goes to no page of the directory. -/
def PgDir.Spares (d : PgDir) (mapping : MemBlock) (va : Word) (io : FileIo) : Prop :=
  hasFlag mapping.flags mapAnonymous = false → ∀ bytes, io.input = some bytes →
    ∀ i < (bytes.take 4096).length, (∀ j ≤ i, present (d.entry (vpn (addr va j))) = true) →
      ¬ d.Occupies (physPage (d.entry (vpn (addr va i))))

section Handler

variable {k k' km : Kmem} {p p' q : Proc} {d : PgDir} {va : Word} {io : FileIo}

theorem Holds.loadFile (h : Holds k d km) {mapping : MemBlock}
    (hfd : p.ofileAt mapping.fd = q.ofileAt mapping.fd) (hpage : d.page = q.pgdir.page)
    (hspare : d.Spares mapping va io) :
    Agree (fun k' km' => Holds k' d km') (loadFile k d p mapping va io)
      (km.loadFile q mapping va io) := by
  unfold Xv6Mmap.loadFile Kmem.loadFile
  by_cases hanon : hasFlag mapping.flags mapAnonymous = true
  · rw [if_pos hanon, if_pos hanon]
    exact h
  rw [if_neg hanon, if_neg hanon, hfd]
  cases q.ofileAt mapping.fd with
  | null | wild => rfl
  | file slot =>
    dsimp only
    cases hin : io.input with
    | none => rfl
    | some bytes =>
      rw [← hpage]
      exact h.writeUser _ (hspare (Bool.eq_false_iff.mpr hanon) bytes hin)

/-- The page from `kalloc` is none of the directory's, also after `mappages` has added tables. -/
theorem NewTabs.not_occupies {who : Caller} {mem : Word} {k₁ k₂ : Kmem} {d' : PgDir} {c : Byte}
    (hg : NewTabs (k₁.memset mem c) d k₂ d') (hap : d.Apart k.freelist) (hnd : k.freelist.Nodup)
    (ha : kalloc k who = some (mem, k₁)) : ¬ d'.Occupies mem := fun ho =>
  (hg.occupies mem ho).elim (fun ho => hap.free mem ho (mem_of_kalloc ha))
    fun hin => kalloc_not_mem hnd ha hin.1

/-- **The handler with the tables in memory** does what it does with tables as values, if the file is
read into no page of theirs. -/
theorem Mirrors.pgflt (h : Mirrors (k, p) (km, q)) (va : Word) (io : FileIo) (hnd : k.freelist.Nodup)
    (hspare : ∀ l mem k₁ b k₂ d', p.maps.faultSlot va = some l →
      kalloc k (.fault (p.maps.arr l).rid) = some (mem, k₁) →
      mappages (k₁.memset mem 0#8) p.pgdir va pgSize (v2p mem) (pteW ||| pteU) = .ok (b, k₂, d') →
      NewTabs (k₁.memset mem 0#8) p.pgdir k₂ d' → d'.Spares (p.maps.arr l) va io) :
    Agree Mirrors (pgflt k p va io) (km.pgflt q va io) := by
  obtain ⟨d, rfl, hh, hpage⟩ := h
  unfold Xv6Mmap.pgflt Kmem.pgflt
  cases hslot : q.maps.faultSlot va with
  | none => exact ⟨d, rfl, hh, hpage⟩
  | some l =>
    dsimp only
    cases ha : kalloc k (.fault (q.maps.arr l).rid) with
    | none =>
      rw [hh.kalloc_none ha]
      rfl
    | some r =>
      obtain ⟨mem, k₁⟩ := r
      obtain ⟨hout, km₁, ham, h1⟩ := hh.kalloc ha
      rw [ham]
      dsimp only
      have hmap := (h1.memset hout 0#8).mapLoop (pgRoundDown (va + pgSize - 1#32)) (pteW ||| pteU)
        1048576 (pgRoundDown va) (v2p mem) ((kalloc_drawn ha).nodup hnd)
      rw [hpage] at hmap
      obtain ⟨e, hx, hy⟩ | ⟨⟨b, k₂, d'⟩, ⟨b', km₂⟩, hx, hy, hb, h2, hg⟩ := hmap.cases
      · unfold Xv6Mmap.mappages Kmem.mappages
        rw [hx, hy]
        rfl
      · have hsp := hspare l mem k₁ b k₂ d' hslot ha hx hg
        unfold Xv6Mmap.mappages Kmem.mappages
        rw [hx, hy]
        dsimp only at hb ⊢
        subst hb
        have hfree : Agree (fun k' km' => Holds k' d' km') (if b' then .ok k₂ else kfree k₂ mem)
            (if b' then .ok km₂ else kfree km₂ mem) := by
          cases b' with
          | true => exact h2
          | false => exact h2.kfree (hg.not_occupies hh.apart hnd ha)
        obtain ⟨e, hx, hy⟩ | ⟨k3, km3, hx, hy, h3⟩ := hfree.cases
        · rw [hx, hy]
          rfl
        rw [hx, hy]
        have hload := h3.loadFile (p := { q with pgdir := d }) (q := q) rfl (hg.page.trans hpage) hsp
        obtain ⟨e, hx, hy⟩ | ⟨k4, km4, hx, hy, h4⟩ := hload.cases
        · dsimp only
          rw [hx, hy]
          rfl
        · dsimp only
          rw [hx, hy]
          exact ⟨d', rfl, h4, hg.page.trans hpage⟩

theorem mappages_newTabs {who : Caller} {mem pa perm : Word} {k₁ : Kmem} {b : Bool} {c : Byte}
    {d' : PgDir} (hal : va.toNat % 4096 = 0) (hnd : k.freelist.Nodup)
    (ha : kalloc k who = some (mem, k₁))
    (hmap : mappages (k₁.memset mem c) d va pgSize pa perm = .ok (b, k', d')) :
    NewTabs (k₁.memset mem c) d k' d' := by
  have hnd : (k₁.memset mem c).freelist.Nodup := (kalloc_drawn ha).nodup hnd
  obtain ⟨d₁, hw, ⟨-, rfl⟩ | ⟨-, -, rfl⟩⟩ := mappages_page_cases hal hmap
  · exact walkpgdir_newTabs hnd hw
  · exact (walkpgdir_newTabs hnd hw).setEntry _ _

end Handler

end Xv6Mmap
