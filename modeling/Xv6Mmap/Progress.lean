import Mathlib.Algebra.Order.Interval.Finset.SuccPred
import Mathlib.Data.Finset.Card
import Mathlib.Data.Nat.SuccPred
import Mathlib.Order.Interval.Finset.Nat
import Xv6Mmap.PageTable

/-!
# With enough pages, the calls return

Success lemmas: a function that is given enough free pages and a page table in order neither panics
nor fails. They are what an execution of the model is built from, since a page table of the kernel
has over sixty thousand entries and is not evaluated.

* `Kmem.Drawn k k' n`: from `k` to `k'` only allocations happened, at most `n`, and no page in use
  was written. `Took` says that they were exactly `n`.
* `PgDir.missing d lo hi` counts the tables that the pages `lo … hi - 1` lack; `missing_eq` says how
  a walk for the first of them lowers it.
* `mapLoop_rule`: an invariant of the turns of `mappages` holds in the end, or where a walk fails.
* `mapLoop_took`: with a page for every missing table the loop comes to its end, for ranges of any
  length and any number of tables.
* `setupkvm_ok`, `exists_mapped`, `inituvm_ok`, `copyuvm_ok`: one lemma a function.
-/

namespace Xv6Mmap

/-- The layout that `kernel.ld` gives: text at `KERNLINK`, then the data on a page boundary, then
the end of the kernel, all below `PHYSTOP`. -/
structure KernelImage.Linked (im : KernelImage) : Prop where
  aligned : im.data.toNat % 4096 = 0
  text : kernLink < im.data
  data : im.data ≤ im.end_
  top : im.end_ < p2v phystop

/-- Every free page is one that `kfree` accepts. -/
def Kmem.Sound (k : Kmem) : Prop := ∀ v ∈ k.freelist, k.image.isPage v = true

/-- Only allocations happened, at most `n` of them, and no page in use was written. -/
structure Kmem.Drawn (k k' : Kmem) (n : Nat) : Prop where
  image : k'.image = k.image
  freelist : k'.freelist <:+ k.freelist
  length : k.freelist.length ≤ k'.freelist.length + n
  bytes : ∀ v, v ∉ k.freelist → k'.mem v = k.mem v

namespace Kmem.Drawn

variable {k k' k'' : Kmem} {n m : Nat}

theorem refl (k : Kmem) : k.Drawn k 0 := ⟨rfl, List.suffix_refl _, le_rfl, fun _ _ => rfl⟩

theorem not_mem (h : k.Drawn k' n) {v : Word} (hv : v ∉ k.freelist) : v ∉ k'.freelist :=
  fun hmem => hv (h.freelist.subset hmem)

theorem trans (h : k.Drawn k' n) (h' : k'.Drawn k'' m) : k.Drawn k'' (n + m) where
  image := h'.image.trans h.image
  freelist := h'.freelist.trans h.freelist
  length := by
    have := h.length
    have := h'.length
    omega
  bytes v hv := (h'.bytes v (h.not_mem hv)).trans (h.bytes v hv)

theorem mono (h : k.Drawn k' n) (hnm : n ≤ m) : k.Drawn k' m :=
  ⟨h.image, h.freelist, h.length.trans (Nat.add_le_add_left hnm _), h.bytes⟩

theorem sound (h : k.Drawn k' n) (hk : k.Sound) : k'.Sound := fun v hv => by
  rw [h.image]
  exact hk v (h.freelist.subset hv)

theorem nodup (h : k.Drawn k' n) (hnd : k.freelist.Nodup) : k'.freelist.Nodup :=
  hnd.sublist h.freelist.sublist

theorem write (h : k.Drawn k' n) {v : Word} (hv : v ∈ k.freelist) (bytes : Page) :
    k.Drawn { k' with mem := Function.update k'.mem v bytes } n := by
  refine ⟨h.image, h.freelist, h.length, fun u hu => ?_⟩
  have hne : u ≠ v := fun heq => hu (heq ▸ hv)
  exact (Function.update_of_ne hne ..).trans (h.bytes u hu)

end Kmem.Drawn

/-- Only allocations happened, `n` of them, and no page in use was written. -/
structure Kmem.Took (k k' : Kmem) (n : Nat) : Prop extends k.Drawn k' n where
  count : k'.freelist.length + n = k.freelist.length

namespace Kmem.Took

variable {k k' k'' : Kmem} {n m : Nat}

theorem refl (k : Kmem) : k.Took k 0 := ⟨.refl k, rfl⟩

theorem trans (h : k.Took k' n) (h' : k'.Took k'' m) : k.Took k'' (n + m) := by
  refine ⟨h.toDrawn.trans h'.toDrawn, ?_⟩
  have := h.count
  have := h'.count
  omega

theorem write (h : k.Took k' n) {v : Word} (hv : v ∈ k.freelist) (bytes : Page) :
    k.Took { k' with mem := Function.update k'.mem v bytes } n :=
  ⟨h.toDrawn.write hv bytes, h.count⟩

end Kmem.Took

variable {k k' : Kmem} {who : Caller} {v : Word}

theorem kalloc_drawn (h : kalloc k who = some (v, k')) : k.Drawn k' 1 := by
  obtain ⟨rest, hf, rfl⟩ := kalloc_eq_some h
  refine ⟨rfl, ?_, ?_, fun _ _ => rfl⟩
  · rw [hf]
    exact List.suffix_cons v rest
  · rw [hf, List.length_cons]

theorem mem_of_kalloc {k k' : Kmem} {who : Caller} {v : Word} (h : kalloc k who = some (v, k')) :
    v ∈ k.freelist := by
  obtain ⟨rest, hf, -⟩ := kalloc_eq_some h
  exact hf ▸ List.mem_cons_self ..

theorem kalloc_took (h : kalloc k who = some (v, k')) :
    k.Took k' 1 := by
  refine ⟨kalloc_drawn h, ?_⟩
  obtain ⟨rest, hf, rfl⟩ := kalloc_eq_some h
  rw [hf, List.length_cons]

theorem kalloc_not_mem (hnd : k.freelist.Nodup)
    (h : kalloc k who = some (v, k')) : v ∉ k'.freelist := by
  obtain ⟨rest, hf, rfl⟩ := kalloc_eq_some h
  exact (List.nodup_cons.mp (hf ▸ hnd)).1

/-- What is copied to a page just taken was there before. -/
theorem kalloc_memmove (h : kalloc k who = some (v, k')) (src : Word) :
    k'.memmove v src = { k' with mem := Function.update k'.mem v (k.mem src) } := by
  obtain ⟨rest, -, rfl⟩ := kalloc_eq_some h
  rfl

theorem kalloc_ok (who : Caller) (h : 0 < k.freelist.length) :
    ∃ v k', kalloc k who = some (v, k') ∧ v ∈ k.freelist ∧ k.Drawn k' 1 := by
  cases ha : kalloc k who with
  | none => simp [kalloc_eq_none ha] at h
  | some r => exact ⟨r.1, r.2, rfl, mem_of_kalloc ha, kalloc_drawn ha⟩

theorem kfree_ok (h : k.image.isPage v = true) :
    ∃ k', kfree k v = .ok k' ∧ k'.image = k.image :=
  ⟨_, if_pos h, rfl⟩

/-! ## Page tables -/

/-- The pages below `KERNBASE` that a directory maps are ones that `kfree` accepts. -/
structure PgDir.Sound (im : KernelImage) (d : PgDir) : Prop where
  user : ∀ n < 0x80000, present (d.entry n) = true →
    im.isPage (p2v (pteAddr (d.entry n))) = true

variable {im : KernelImage} {d : PgDir}

theorem walkpgdir_drawn {k k' : Kmem} {d' : PgDir} {va : Word} {b : Bool} (h : walkpgdir k d va true = (b, k', d')) :
    k.Drawn k' 1 ∧ (0 < k.freelist.length → b = true) := by
  cases walkpgdir_ends h with
  | found => exact ⟨(Kmem.Drawn.refl k).mono (Nat.zero_le 1), fun _ => rfl⟩
  | full hnone ha =>
    refine ⟨(Kmem.Drawn.refl k).mono (Nat.zero_le 1), fun hroom => ?_⟩
    obtain ⟨v, k1, ha', -⟩ := kalloc_ok .pgtab hroom
    rw [ha] at ha'
    cases ha'
  | added page k1 hnone ha => exact ⟨(kalloc_drawn ha).write (mem_of_kalloc ha) _, fun _ => rfl⟩

/-! ## Missing tables -/

namespace PgDir

variable {d d' : PgDir} {n lo hi : Nat}

/-- The number of page tables that a walk to page `n` has to add. -/
def lacks (d : PgDir) (n : Nat) : Nat := if d.hasTab n then 0 else 1

/-- The number of page tables that the pages `lo … hi - 1` lack. -/
def missing (d : PgDir) (lo hi : Nat) : Nat :=
  (((Finset.Ico lo hi).image (· / 1024)).filter fun i => (d.pde i).isNone).card

/-- What a walk to page `n` leaves: there is a table, and nothing else has changed. -/
structure Walked (d d' : PgDir) (n : Nat) : Prop where
  page : d'.page = d.page
  entry : ∀ m, d'.entry m = d.entry m
  hasTab : d'.hasTab n = true
  absent : ∀ i, (d'.pde i).isNone = ((d.pde i).isNone && decide (i ≠ n / 1024))

theorem lacks_le_one (d : PgDir) (n : Nat) : d.lacks n ≤ 1 := by
  unfold lacks
  split <;> omega

theorem pde_of_lacks (h : 0 < d.lacks n) : d.pde (n / 1024) = none := by
  unfold lacks hasTab at h
  split at h
  · omega
  · rename_i htab
    exact Option.not_isSome_iff_eq_none.mp htab

theorem isNone_setEntry {w : Word} (i : Nat) :
    ((d.setEntry n w).pde i).isNone = (d.pde i).isNone := by
  have h := tabPage_setEntry (d := d) (n := n) (w := w) i
  have h := congrArg Option.isNone h
  rwa [Option.isNone_map, Option.isNone_map] at h

theorem missing_congr (h : ∀ i, (d'.pde i).isNone = (d.pde i).isNone) :
    d'.missing lo hi = d.missing lo hi := by
  unfold missing
  simp only [h]

theorem missing_of_le (h : hi ≤ lo) : d.missing lo hi = 0 := by
  unfold missing
  rw [Finset.Ico_eq_empty (by omega)]
  rfl

/-- A walk to the first page of a range adds its table. -/
theorem missing_eq (hw : d.Walked d' lo) (h : lo < hi) :
    d.missing lo hi = d.lacks lo + d'.missing (lo + 1) hi := by
  unfold missing lacks
  rw [← Finset.insert_Ico_add_one_left_eq_Ico h, Finset.image_insert, Finset.filter_insert]
  simp only [hw.absent]
  set tabs := (Finset.Ico (lo + 1) hi).image (· / 1024)
  cases htab : d.pde (lo / 1024) with
  | some t =>
    have hhas : d.hasTab lo = true := by rw [hasTab, htab]; rfl
    rw [if_neg (by simp), if_pos hhas, Nat.zero_add]
    refine congrArg Finset.card (Finset.filter_congr fun i _ => ?_)
    by_cases hi : i = lo / 1024
    · simp [hi, htab]
    · simp [hi]
  | none =>
    have hhas : d.hasTab lo = false := by rw [hasTab, htab]; rfl
    have herase : insert (lo / 1024) (tabs.filter fun i => (d.pde i).isNone = true)
        = insert (lo / 1024)
          (tabs.filter fun i => ((d.pde i).isNone && decide (i ≠ lo / 1024)) = true) := by
      ext i
      by_cases hi : i = lo / 1024
      · simp [hi]
      · simp [hi]
    rw [if_pos (by simp), herase, Finset.card_insert_of_notMem (by simp), hhas, Nat.add_comm]
    rfl

theorem lacks_le_missing (d : PgDir) (h : lo < hi) : d.lacks lo ≤ d.missing lo hi := by
  unfold lacks
  split
  · exact Nat.zero_le _
  · rename_i htab
    refine Finset.card_pos.mpr ⟨lo / 1024, Finset.mem_filter.mpr ⟨?_, ?_⟩⟩
    · exact Finset.mem_image_of_mem (· / 1024) (Finset.mem_Ico.mpr ⟨le_rfl, h⟩)
    · simpa [hasTab] using htab

theorem missing_le (d : PgDir) (lo j : Nat) :
    d.missing lo (lo + j + 1) ≤ (lo + j) / 1024 - lo / 1024 + 1 := by
  have hsub : (Finset.Ico lo (lo + j + 1)).image (· / 1024)
      ⊆ Finset.Icc (lo / 1024) ((lo + j) / 1024) := by
    intro i hi
    simp only [Finset.mem_image, Finset.mem_Ico, Finset.mem_Icc] at hi ⊢
    omega
  have hcard := Finset.card_le_card ((Finset.filter_subset (fun i => (d.pde i).isNone) _).trans hsub)
  rw [Nat.card_Icc] at hcard
  unfold missing
  omega

end PgDir

theorem PgDir.lacks_of_none {d : PgDir} {n : Nat} (h : d.pde (n / 1024) = none) :
    d.lacks n = 1 := by
  unfold PgDir.lacks PgDir.hasTab
  rw [h]
  rfl

section Walk

variable {k k' : Kmem} {d d' : PgDir} {va : Word}

/-- A walk that returns a pointer has taken the page of a table that was missing. -/
theorem walkpgdir_walked (h : walkpgdir k d va true = (true, k', d')) :
    k.Took k' (d.lacks (vpn va)) ∧ d.Walked d' (vpn va) := by
  cases walkpgdir_ends h with
  | found htab =>
    refine ⟨?_, rfl, fun _ => rfl, htab, fun i => ?_⟩
    · rw [PgDir.lacks, if_pos htab]
      exact .refl k
    · by_cases hi : i = vpn va / 1024
      · rw [PgDir.hasTab] at htab
        simpa [hi] using htab
      · simp [hi]
  | added page k1 hnone ha =>
    refine ⟨?_, rfl, fun n => PgDir.entry_addTab hnone, ?_, fun i => ?_⟩
    · rw [PgDir.lacks_of_none hnone]
      exact (kalloc_took ha).write (mem_of_kalloc ha) _
    · rw [PgDir.hasTab_addTab, decide_eq_true rfl, Bool.true_or]
    · by_cases hi : i = vpn va / 1024 <;> simp [PgDir.addTab, hi]

/-- A walk that may allocate, with a table there or a page left. -/
theorem walkpgdir_took (hroom : d.lacks (vpn va) ≤ k.freelist.length) :
    ∃ k' d', walkpgdir k d va true = (true, k', d') ∧ k.Took k' (d.lacks (vpn va)) ∧
      d.Walked d' (vpn va) := by
  rcases hw : walkpgdir k d va true with ⟨_ | _, k', d'⟩
  · cases walkpgdir_ends hw with
    | full hnone ha =>
      rw [PgDir.lacks_of_none hnone, kalloc_eq_none ha] at hroom
      cases hroom
  · exact ⟨k', d', rfl, walkpgdir_walked hw⟩

/-- Without a table and without a page the walk fails and changes nothing. -/
theorem walkpgdir_fails (hroom : k.freelist.length < d.lacks (vpn va)) :
    walkpgdir k d va true = (false, k, d) := by
  rcases hw : walkpgdir k d va true with ⟨_ | _, k', d'⟩
  · cases walkpgdir_ends hw
    rfl
  · have := (walkpgdir_walked hw).1.count
    omega

end Walk

/-! ## The loop of `mappages` -/

/-- What `mappages` leaves when it maps the pages `lo … lo + j`. -/
structure PgDir.Mapped (d d' : PgDir) (lo j : Nat) (pa perm : Word) : Prop where
  page : d'.page = d.page
  hasTab : d'.hasTab (lo + j) = true
  outside : ∀ n, n < lo ∨ lo + j < n → d'.entry n = d.entry n
  inside : ∀ i ≤ j, d'.entry (lo + i) = pa + BitVec.ofNat 32 (4096 * i) ||| perm ||| pteP

/-- One turn of the loop, with a table there or a page left for one. -/
theorem mapLoop_turn {last perm : Word} {fuel : Nat} {k : Kmem} {d : PgDir} {a : Word} (pa : Word)
    (hroom : d.lacks (vpn a) ≤ k.freelist.length) (habs : present (d.entry (vpn a)) = false) :
    ∃ k1 d₁, k.Took k1 (d.lacks (vpn a)) ∧ d.Walked d₁ (vpn a) ∧
      mapLoop last perm (fuel + 1) k d a pa =
        if a = last then .ok (true, k1, d₁.setEntry (vpn a) (pa ||| perm ||| pteP))
        else mapLoop last perm fuel k1 (d₁.setEntry (vpn a) (pa ||| perm ||| pteP)) (a + pgSize)
          (pa + pgSize) := by
  obtain ⟨k1, d₁, hw, htook, hwalked⟩ := walkpgdir_took hroom
  refine ⟨k1, d₁, htook, hwalked, ?_⟩
  rw [mapLoop_succ, hw]
  simp only [hwalked.entry, habs, Bool.false_eq_true, if_false]

section Mapped

variable {d d₁ d' : PgDir} {n j : Nat} {pa perm : Word}

theorem PgDir.Walked.mapped (h : d.Walked d₁ n) :
    d.Mapped (d₁.setEntry n (pa ||| perm ||| pteP)) n 0 pa perm := by
  refine ⟨?_, ?_, fun m hm => ?_, fun i hi => ?_⟩
  · rw [PgDir.page_setEntry, h.page]
  · rw [PgDir.hasTab_setEntry]
    exact h.hasTab
  · rw [PgDir.entry_setEntry_of_ne (by omega), h.entry]
  · obtain rfl : i = 0 := by omega
    rw [Nat.add_zero, PgDir.entry_setEntry_self h.hasTab, Nat.mul_zero, BitVec.add_zero]

theorem PgDir.Walked.mapped_cons (h : d.Walked d₁ n)
    (hmap : (d₁.setEntry n (pa ||| perm ||| pteP)).Mapped d' (n + 1) j (pa + pgSize) perm) :
    d.Mapped d' n (j + 1) pa perm := by
  refine ⟨?_, ?_, fun m hm => ?_, fun i hi => ?_⟩
  · rw [hmap.page, PgDir.page_setEntry, h.page]
  · have := hmap.hasTab
    rwa [show n + 1 + j = n + (j + 1) by omega] at this
  · rw [hmap.outside m (by omega), PgDir.entry_setEntry_of_ne (by omega), h.entry]
  · cases i with
    | zero =>
      rw [hmap.outside _ (by omega), Nat.add_zero, PgDir.entry_setEntry_self h.hasTab, Nat.mul_zero,
        BitVec.add_zero]
    | succ i =>
      have hin := hmap.inside i (by omega)
      rw [show n + 1 + i = n + (i + 1) by omega] at hin
      rw [hin, BitVec.add_assoc, pgSize, ← BitVec.ofNat_add, Nat.mul_succ, Nat.add_comm]

end Mapped

/-- The page after `a`, for a loop that has not reached `last`. -/
theorem page_step {a last : Word} {j : Nat} (hlast : last.toNat = a.toNat + 4096 * (j + 1)) :
    a ≠ last ∧ (a + pgSize).toNat = a.toNat + 4096 ∧ vpn (a + pgSize) = vpn a + 1 := by
  have hlt := last.isLt
  have hnext := toNat_add_pgSize (a := a) (by omega)
  refine ⟨?_, hnext, ?_⟩
  · rintro rfl
    omega
  · unfold vpn
    omega

/-- The loop, by an invariant `I` for the page it has come to and what is left where a walk
fails. -/
theorem mapLoop_rule (last perm pa : Word) (hi : Nat) {I : Nat → Kmem → PgDir → Prop}
    {Q : Kmem → PgDir → Prop}
    (hturn : ∀ {k d va k' d'} (w : Word), vpn va ≤ hi → I (vpn va) k d →
      walkpgdir k d va true = (true, k', d') → I (vpn va + 1) k' (d'.setEntry (vpn va) w))
    (hfail : ∀ {k d va}, vpn va ≤ hi → I (vpn va) k d →
      walkpgdir k d va true = (false, k, d) → Q k d) :
    ∀ (fuel : Nat) {j : Nat} {k : Kmem} {d : PgDir} {a : Word}, j < fuel → a.toNat % 4096 = 0 →
      last.toNat = a.toNat + 4096 * j → vpn a + j = hi →
      (∀ i ≤ j, present (d.entry (vpn a + i)) = false) → I (vpn a) k d →
      (∃ k' d', mapLoop last perm fuel k d a pa = .ok (true, k', d') ∧ I (hi + 1) k' d' ∧
        d.Mapped d' (vpn a) j pa perm) ∨
      ∃ k' d', mapLoop last perm fuel k d a pa = .ok (false, k', d') ∧ Q k' d' := by
  intro fuel
  induction fuel generalizing pa with
  | zero => exact fun h => absurd h (Nat.not_lt_zero _)
  | succ fuel ih =>
    intro j k d a hfuel hal hlast hend hfree hI
    rcases hw : walkpgdir k d a true with ⟨_ | _, k1, d1⟩
    · cases walkpgdir_ends hw
      exact .inr ⟨k, d, by rw [mapLoop_succ, hw], hfail (by omega) hI hw⟩
    have hwalked := (walkpgdir_walked hw).2
    have habs := hfree 0 (Nat.zero_le j)
    have hI1 := hturn (pa ||| perm ||| pteP) (by omega) hI hw
    rw [mapLoop_succ, hw]
    simp only [hwalked.entry, show present (d.entry (vpn a)) = false from habs,
      Bool.false_eq_true, if_false]
    cases j with
    | zero =>
      have heq : a = last := BitVec.eq_of_toNat_eq (by omega)
      rw [if_pos heq]
      exact .inl ⟨k1, _, rfl, hend ▸ hI1, hwalked.mapped⟩
    | succ j =>
      obtain ⟨hne, hnext, hvpn⟩ := page_step hlast
      have hfree1 : ∀ i ≤ j, present ((d1.setEntry (vpn a) (pa ||| perm ||| pteP)).entry
          (vpn (a + pgSize) + i)) = false := fun i hi => by
        rw [hvpn, PgDir.entry_setEntry_of_ne (by omega), hwalked.entry]
        have := hfree (i + 1) (by omega)
        rwa [show vpn a + 1 + i = vpn a + (i + 1) by omega]
      rw [if_neg hne]
      refine (ih _ (by omega) (by omega) (by omega) (by omega) hfree1 (by rwa [hvpn])).imp_left ?_
      rintro ⟨k', d', hloop, hI', hmap⟩
      rw [hvpn] at hmap
      exact ⟨k', d', hloop, hI', hwalked.mapped_cons hmap⟩

/-- With a page for every table that is missing the range is mapped. -/
theorem mapLoop_took {last perm : Word} (j fuel : Nat) {k : Kmem} {d : PgDir} {a pa : Word}
    (hfuel : j < fuel) (hal : a.toNat % 4096 = 0) (hlast : last.toNat = a.toNat + 4096 * j)
    (hfree : ∀ i ≤ j, present (d.entry (vpn a + i)) = false)
    (hroom : d.missing (vpn a) (vpn a + j + 1) ≤ k.freelist.length) :
    ∃ k' d', mapLoop last perm fuel k d a pa = .ok (true, k', d') ∧
      k.Took k' (d.missing (vpn a) (vpn a + j + 1)) ∧ d.Mapped d' (vpn a) j pa perm := by
  -- the tables still missing are those of the pages still to come
  have hrule := mapLoop_rule last perm pa (vpn a + j) (Q := fun _ _ => False)
    (I := fun n k' d' => ∃ t, k.Took k' t ∧
      t + d'.missing n (vpn a + j + 1) = d.missing (vpn a) (vpn a + j + 1))
    (fun w hle ⟨t, htook, hmiss⟩ hw => by
      obtain ⟨htook', hwalked⟩ := walkpgdir_walked hw
      rw [PgDir.missing_eq hwalked (by omega)] at hmiss
      refine ⟨_, htook.trans htook', ?_⟩
      rw [PgDir.missing_congr fun i => PgDir.isNone_setEntry i]
      omega)
    (fun {k' d' va} hle ⟨t, htook, hmiss⟩ hw => by
      have hcount := htook.count
      have hlacks := d'.lacks_le_missing (show vpn va < vpn a + j + 1 by omega)
      obtain ⟨k2, d2, hw', -⟩ := @walkpgdir_took k' d' va (by omega)
      rw [hw] at hw'
      cases hw')
    fuel hfuel hal hlast rfl hfree ⟨0, .refl k, Nat.zero_add _⟩
  obtain ⟨k', d', hloop, ⟨t, htook, hmiss⟩, hmap⟩ | ⟨_, _, _, hfalse⟩ := hrule
  · rw [PgDir.missing_of_le le_rfl, Nat.add_zero] at hmiss
    exact ⟨k', d', hloop, hmiss ▸ htook, hmap⟩
  · exact hfalse.elim

theorem lastPage_aligned {va size : Word} {j : Nat} (hal : va.toNat % 4096 = 0)
    (hsize : size.toNat = 4096 * (j + 1)) (hend : va.toNat + size.toNat ≤ 2 ^ 32) :
    (pgRoundDown (va + size - 1#32)).toNat = va.toNat + 4096 * j := by
  have htop : (va + size - 1#32).toNat = va.toNat + 4096 * j + 4095 := by bv_omega
  rw [pgRoundDown_toNat, htop]
  omega

theorem mappages_ok {k : Kmem} {va size : Word} (j : Nat) (pa perm : Word)
    (hal : va.toNat % 4096 = 0) (hsize : size.toNat = 4096 * (j + 1))
    (hend : va.toNat + size.toNat ≤ 2 ^ 32)
    (hfree : ∀ i ≤ j, present (d.entry (vpn va + i)) = false)
    (hroom : d.missing (vpn va) (vpn va + j + 1) ≤ k.freelist.length) :
    ∃ k' d', mappages k d va size pa perm = .ok (true, k', d') ∧
      k.Took k' (d.missing (vpn va) (vpn va + j + 1)) ∧ d.Mapped d' (vpn va) j pa perm := by
  have hlast := lastPage_aligned hal hsize hend
  unfold mappages
  rw [pgRoundDown_of_aligned hal]
  exact mapLoop_took j 1048576 (by omega) hal hlast hfree hroom

/-! ## The kernel part -/

theorem KernelImage.Linked.bounds (h : im.Linked) :
    0x80100000 < im.data.toNat ∧ im.data.toNat ≤ im.end_.toNat ∧ im.end_.toNat < 0x8E000000 := by
  obtain ⟨-, htext, hdata, htop⟩ := h
  refine ⟨?_, hdata, ?_⟩
  · exact htext
  · exact htop

/-- Nothing is mapped below `KERNBASE`, nor from page `hi` on. -/
def PgDir.ClearFrom (d : PgDir) (hi : Nat) : Prop :=
  ∀ n, n < 0x80000 ∨ hi ≤ n → d.entry n = 0#32

theorem kmapRow_ok {k : Kmem} {r : Kmap} (lo j : Nat) (hvirt : r.virt.toNat = 4096 * lo)
    (hsize : (r.physEnd - r.physStart).toNat = 4096 * (j + 1)) (hlo : 0x80000 ≤ lo)
    (hend : lo + j < 1048576) (hclear : d.ClearFrom lo)
    (hroom : (lo + j) / 1024 - lo / 1024 + 1 ≤ k.freelist.length) :
    ∃ k' d', mappages k d r.virt (r.physEnd - r.physStart) r.physStart r.perm
        = .ok (true, k', d') ∧
      k.Drawn k' ((lo + j) / 1024 - lo / 1024 + 1) ∧ d'.ClearFrom (lo + j + 1) := by
  have hvpn : vpn r.virt = lo := by
    unfold vpn
    omega
  have htabs := d.missing_le lo j
  obtain ⟨k', d', hm, hs, hmap⟩ := mappages_ok j r.physStart r.perm
    (by omega : r.virt.toNat % 4096 = 0) hsize (by omega)
    (fun i _ => by rw [hvpn, hclear _ (by omega), present_zero])
    (by rw [hvpn]; exact htabs.trans hroom)
  rw [hvpn] at hs hmap
  exact ⟨k', d', hm, hs.toDrawn.mono htabs, fun n hn => by
    rw [hmap.outside n (by omega), hclear n (by omega)]⟩

/-- `setupkvm` with 67 free pages: a directory with nothing below `KERNBASE`. -/
theorem setupkvm_ok {k : Kmem} (him : k.image.Linked) (hroom : 67 ≤ k.freelist.length) :
    ∃ d k', setupkvm k = .ok (some d, k') ∧ k.Drawn k' 67 ∧ ∀ n < 0x80000, d.entry n = 0#32 := by
  obtain ⟨hlo, hde, hhi⟩ := him.bounds
  obtain ⟨c, hc⟩ : ∃ c, k.image.data.toNat = 4096 * c :=
    ⟨k.image.data.toNat / 4096, by have := him.aligned; omega⟩
  have htext : (v2p k.image.data - v2p kernLink).toNat = 4096 * (c - 0x80101 + 1) := by
    unfold v2p kernLink kernBase extMem
    bv_omega
  have hdata : (phystop - v2p k.image.data).toNat = 4096 * (0x8DFFF - c + 1) := by
    unfold v2p kernBase phystop
    bv_omega
  obtain ⟨v, k0, ha, hmem, hs0⟩ := kalloc_ok .pgdir (by omega : 0 < k.freelist.length)
  have hs0 : k.Drawn (k0.memset v 0#8) 1 := hs0.write hmem _
  have hlen0 := hs0.length
  -- the four rows, each above the ones before
  obtain ⟨k1, d1, hm1, hs1, hc1⟩ := kmapRow_ok (k := k0.memset v 0#8) (d := PgDir.empty v)
    (r := ⟨kernBase, 0#32, extMem, pteW⟩) 0x80000 255 (by decide) (by decide) (by decide) (by decide)
    (fun _ _ => rfl) (by omega)
  have hlen1 := hs1.length
  obtain ⟨k2, d2, hm2, hs2, hc2⟩ := kmapRow_ok (k := k1)
    (r := ⟨kernLink, v2p kernLink, v2p k.image.data, 0#32⟩) 0x80100 (c - 0x80101) rfl htext
    (by decide) (by omega) hc1 (by omega)
  have hlen2 := hs2.length
  obtain ⟨k3, d3, hm3, hs3, hc3⟩ := kmapRow_ok (k := k2)
    (r := ⟨k.image.data, v2p k.image.data, phystop, pteW⟩) c (0x8DFFF - c) hc hdata (by omega)
    (by omega) (fun n hn => hc2 n (by omega)) (by omega)
  have hlen3 := hs3.length
  obtain ⟨k4, d4, hm4, hs4, hc4⟩ := kmapRow_ok (k := k3)
    (r := ⟨devSpace, devSpace, 0#32, pteW⟩) 0xFE000 8191 (by decide) (by decide)
    (by decide) (by decide) (fun n hn => hc3 n (by omega)) (by omega)
  refine ⟨d4, k4, ?_, ((((hs0.trans hs1).trans hs2).trans hs3).trans hs4).mono (by omega),
    fun n hn => hc4 n (.inl hn)⟩
  have him0 : k0.image = k.image := hs0.image
  unfold setupkvm
  simp only [ha, kmap, setupRows, him0, hm1, hm2, hm3, hm4]

theorem KernelImage.Linked.ne_zero (h : im.Linked) {pa : Word} (hp : im.isPage (p2v pa) = true) :
    pa ≠ 0#32 := by
  rintro rfl
  have := h.bounds
  simp only [KernelImage.isPage, Bool.and_eq_true, decide_eq_true_eq] at hp
  have hle : im.end_.toNat ≤ (p2v 0#32).toNat := hp.1.2
  have hz : (p2v 0#32).toNat = 0x80000000 := rfl
  omega

/-! ## User pages -/

theorem KernelImage.aligned_of_isPage {v : Word} (h : im.isPage v = true) :
    v.toNat % 4096 = 0 := by
  simp only [KernelImage.isPage, Bool.and_eq_true, decide_eq_true_eq] at h
  exact h.1.1

section Page

variable {k k' : Kmem} {d d' : PgDir} {va pa perm : Word}

theorem mapLoop_remap {last : Word} {fuel : Nat} (h : present (d.entry (vpn va)) = true) :
    mapLoop last perm (fuel + 1) k d va pa = .error (.panic "remap") := by
  have htab := PgDir.hasTab_of_present h
  rw [mapLoop_succ]
  rcases hw : walkpgdir k d va true with ⟨b, k', d'⟩
  cases walkpgdir_ends hw with
  | found => exact if_pos h
  | full hnone | added _ _ hnone =>
    rw [PgDir.hasTab, hnone] at htab
    cases htab

theorem mappages_remap {size : Word} (hal : va.toNat % 4096 = 0)
    (h : present (d.entry (vpn va)) = true) :
    mappages k d va size pa perm = .error (.panic "remap") := by
  unfold mappages
  rw [pgRoundDown_of_aligned hal]
  exact mapLoop_remap h

/-- Mapping one aligned page where nothing is mapped, with a page left for a table. -/
theorem mappages_page_ok (pa perm : Word) (hal : va.toNat % 4096 = 0)
    (habs : present (d.entry (vpn va)) = false) (hroom : 0 < k.freelist.length) :
    ∃ k' d', mappages k d va pgSize pa perm = .ok (true, k', d') ∧ k.Drawn k' 1 ∧
      d'.entry (vpn va) = pa ||| perm ||| pteP ∧ ∀ n, n ≠ vpn va → d'.entry n = d.entry n := by
  rcases hw : walkpgdir k d va true with ⟨b, k1, d1⟩
  obtain ⟨hdrawn, hb⟩ := walkpgdir_drawn hw
  obtain ⟨hentry, htab⟩ := walkpgdir_entry hw
  have hb := hb hroom
  subst hb
  refine ⟨k1, d1.setEntry (vpn va) (pa ||| perm ||| pteP), ?_, hdrawn,
    PgDir.entry_setEntry_self (htab rfl), fun n hn => ?_⟩
  · rw [mappages_page hal, hw]
    dsimp only
    rw [hentry, if_neg (by rw [habs]; exact Bool.false_ne_true)]
  · rw [PgDir.entry_setEntry_of_ne hn, hentry]

/-- A page is taken, filled with `bytes` and mapped, with one more page left for a table. -/
theorem exists_mapped (who : Caller) (perm : Word) (bytes : Page) (hal : va.toNat % 4096 = 0)
    (habs : present (d.entry (vpn va)) = false) (hroom : 2 ≤ k.freelist.length) :
    ∃ mem k1 k' d', kalloc k who = some (mem, k1) ∧
      mappages { k1 with mem := Function.update k1.mem mem bytes } d va pgSize (v2p mem) perm
        = .ok (true, k', d') ∧ mem ∈ k.freelist ∧ k.Drawn k' 2 ∧
      (k.freelist.Nodup → mem ∉ k'.freelist ∧ k'.mem mem = bytes) ∧
      d'.entry (vpn va) = v2p mem ||| perm ||| pteP ∧ ∀ n, n ≠ vpn va → d'.entry n = d.entry n := by
  obtain ⟨mem, k1, ha, hmem, hd1⟩ := kalloc_ok who (by omega : 0 < k.freelist.length)
  have hd1 := hd1.write hmem bytes
  have hlen := hd1.length
  obtain ⟨k', d', hmap, hd2, hself, hother⟩ := mappages_page_ok (d := d)
    (k := { k1 with mem := Function.update k1.mem mem bytes }) (v2p mem) perm hal habs (by omega)
  refine ⟨mem, k1, k', d', ha, hmap, hmem, hd1.trans hd2, fun hnd => ?_, hself, hother⟩
  have hnot := kalloc_not_mem hnd ha
  exact ⟨hd2.not_mem hnot, (hd2.bytes mem hnot).trans (Function.update_self ..)⟩

end Page

/-- A directory with one user page, at address zero. -/
structure PgDir.OnePage (im : KernelImage) (d : PgDir) : Prop extends d.Sound im where
  hasTab : d.hasTab 0 = true
  zero : present (d.entry 0) = true
  rest : ∀ n, 0 < n → n < 0x80000 → d.entry n = 0#32

/-- The first page is mapped in a directory that has none. -/
theorem PgDir.onePage {d' : PgDir} {mem perm : Word} (hmem : im.isPage mem = true)
    (hperm : perm.toNat < 4096) (hclear : ∀ n < 0x80000, d.entry n = 0#32)
    (hself : d'.entry (vpn 0#32) = v2p mem ||| perm ||| pteP)
    (hother : ∀ n, n ≠ vpn 0#32 → d'.entry n = d.entry n) : d'.OnePage im := by
  have hzero : present (d'.entry 0) = true := by
    rw [show 0 = vpn 0#32 from rfl, hself]
    exact present_or _ _
  have hrest : ∀ n, 0 < n → n < 0x80000 → d'.entry n = 0#32 := fun n hn hlt => by
    rw [hother n (by rw [show vpn 0#32 = 0 from rfl]; omega), hclear n hlt]
  refine ⟨⟨fun n hn hp => ?_⟩, PgDir.hasTab_of_present hzero, hzero, hrest⟩
  rcases Nat.eq_zero_or_pos n with rfl | hpos
  · rw [show 0 = vpn 0#32 from rfl, hself,
      p2v_pteAddr_or (KernelImage.aligned_of_isPage hmem) hperm]
    exact hmem
  · rw [hrest n hpos hn, present_zero] at hp
    cases hp

theorem inituvm_ok {k : Kmem} (init : Page) (hk : k.Sound)
    (hclear : ∀ n < 0x80000, d.entry n = 0#32) (hroom : 2 ≤ k.freelist.length) :
    ∃ k' d', inituvm k d init = .ok (k', d') ∧ k.Drawn k' 2 ∧ d'.OnePage k.image := by
  obtain ⟨mem, k1, k2, d2, ha, hmap, hmem, hd, -, hself, hother⟩ := exists_mapped .user
    (pteW ||| pteU) (fun _ => 0#8) (show (0#32).toNat % 4096 = 0 from rfl) (by rw [hclear _ (by decide), present_zero]) hroom
  refine ⟨{ k2 with mem := Function.update k2.mem mem init }, d2, ?_, hd.write hmem init,
    PgDir.onePage (hk mem hmem) (by decide) hclear hself hother⟩
  unfold inituvm
  simp only [ha, Kmem.memset, hmap]

theorem copyuvm_ok {k : Kmem} {pgdir : PgDir} (him : k.image.Linked) (hk : k.Sound)
    (hptab : pgdir.hasTab 0 = true) (hpzero : present (pgdir.entry 0) = true)
    (hroom : 69 ≤ k.freelist.length) :
    ∃ d k', copyuvm k pgdir pgSize = .ok (some d, k') ∧ k.Drawn k' 69 ∧ d.OnePage k.image := by
  obtain ⟨d0, k0, hset, hs0, hclear⟩ := setupkvm_ok him (by omega)
  have hlen0 := hs0.length
  obtain ⟨mem, k1, k2, d2, ha, hmap, hmem, hd, -, hself, hother⟩ := exists_mapped (k := k0)
    (d := d0) .user (pteFlags (pgdir.entry (vpn 0#32)))
    (k0.mem (p2v (pteAddr (pgdir.entry (vpn 0#32))))) (show (0#32).toNat % 4096 = 0 from rfl)
    (by rw [hclear _ (by decide), present_zero]) (by omega)
  rw [← kalloc_memmove ha] at hmap
  refine ⟨d2, k2, ?_, hs0.trans hd, PgDir.onePage (hs0.image ▸ hs0.sound hk mem hmem)
    (pteFlags_lt _) hclear hself hother⟩
  unfold copyuvm
  rw [hset]
  dsimp only
  rw [copyLoop, if_pos (by decide), if_pos (show pgdir.hasTab (vpn 0#32) = true from hptab)]
  simp only [show present (pgdir.entry (vpn 0#32)) = true from hpzero, if_true, ha, hmap]
  rw [copyLoop, if_neg (by decide)]

/-! ## A small machine -/

/-- The addresses of a small kernel. -/
def KernelImage.sample : KernelImage := ⟨0x80115000#32, 0x80108000#32⟩

theorem KernelImage.sample_linked : KernelImage.sample.Linked :=
  ⟨by decide, by decide, by decide, by decide⟩

/-- An allocator as `kinit1` and `kinit2` leave it, with `n` pages below `PHYSTOP`. -/
def Kmem.initial (n : Nat) : Kmem where
  image := KernelImage.sample
  freelist := (List.range n).map fun i => 0x8DFFF000#32 - BitVec.ofNat 32 (4096 * i)
  mem _ _ := 0#8
  log := (List.range n).map fun i => .free (0x8DFFF000#32 - BitVec.ofNat 32 (4096 * i))

theorem Kmem.initial_sound {n : Nat} (hn : n ≤ 1000) : (Kmem.initial n).Sound := by
  intro v hv
  obtain ⟨i, hi, rfl⟩ := List.mem_map.mp hv
  have hi := List.mem_range.mp hi
  have hval : (0x8DFFF000#32 - BitVec.ofNat 32 (4096 * i)).toNat = 0x8DFFF000 - 4096 * i := by
    bv_omega
  have hphys : (v2p (0x8DFFF000#32 - BitVec.ofNat 32 (4096 * i))).toNat = 0xDFFF000 - 4096 * i := by
    unfold v2p kernBase
    bv_omega
  simp only [KernelImage.isPage, Bool.and_eq_true, decide_eq_true_eq, BitVec.le_def, BitVec.lt_def,
    hval, hphys]
  refine ⟨⟨by omega, ?_⟩, ?_⟩
  · show 0x80115000 ≤ _
    omega
  · show _ < 0xE000000
    omega

theorem Kmem.initial_nodup {n : Nat} (hn : n ≤ 1000) : (Kmem.initial n).freelist.Nodup := by
  refine List.nodup_range.map_on fun i hi j hj heq => ?_
  have hi := List.mem_range.mp hi
  have hj := List.mem_range.mp hj
  bv_omega

end Xv6Mmap
