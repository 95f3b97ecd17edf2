import Xv6Mmap.Fork
import Xv6Mmap.Faults

/-!
# The pages of a child (`proc.c:348-398`)

Mappings are loaded page by page, but the loops of `fork` take every page of a mapping that they
pass on: a private one is copied from what the parent's entry points to, a shared one gets the
address in the parent's entry. Neither looks at the present bit.

* `Duplicate` says what the loops make of one page, and `forkEntries_pages` what they make of all.
* `forkEntries_returns`: the loops come to their end if the parent has the page tables.
* `Sys.Booted.loadFork` runs the first process up to a `fork` with a page of a mapping loaded.
-/

namespace Xv6Mmap

open Lib

instance (b : MemBlock) : Decidable b.Inherited := inferInstanceAs (Decidable (_ ∧ (_ ∨ _)))

/-! ## One mapping -/

/-- The first page that the loops of `fork` do not visit any more. -/
def MemBlock.stopPage (b : MemBlock) : Nat := (b.end_.toNat + 4095) / 4096

theorem MemBlock.inside_iff {b : MemBlock} (hal : b.start.toNat % 4096 = 0) {n : Nat} :
    b.Inside n ↔ vpn b.start ≤ n ∧ n < b.stopPage := by
  unfold MemBlock.Inside MemBlock.stopPage vpn
  omega

/-- What the loops make of page `n` of a mapping. -/
inductive Duplicate (b : MemBlock) (parent : PgDir) (k k' : Kmem) (d' : PgDir) (n : Nat) : Prop
  /-- A page that was free, with the contents of the parent's unless that was free as well. -/
  | copied (mem : Word) (hpriv : hasFlag b.flags mapPrivate = true) (hmem : mem ∈ k.freelist)
      (hnot : mem ∉ k'.freelist) (hentry : d'.entry n = v2p mem ||| (pteW ||| pteU) ||| pteP)
      (hbytes : p2v (pteAddr (parent.entry n)) ∉ k.freelist →
        k'.mem mem = k.mem (p2v (pteAddr (parent.entry n))))
  /-- The parent's page. -/
  | shared (hpriv : hasFlag b.flags mapPrivate = false)
      (hentry : d'.entry n = pteAddr (parent.entry n) ||| (pteW ||| pteU) ||| pteP)

namespace Duplicate

variable {b : MemBlock} {parent : PgDir} {k k' k'' : Kmem} {d' d'' : PgDir} {n m : Nat}

theorem present (h : Duplicate b parent k k' d' n) : Xv6Mmap.present (d'.entry n) = true := by
  cases h with
  | copied mem hpriv hmem hnot hentry hbytes =>
    rw [hentry]
    exact present_or _ _
  | shared hpriv hentry =>
    rw [hentry]
    exact present_or _ _

theorem later (h : Duplicate b parent k k' d' n) (hd : k'.Drawn k'' m)
    (he : d''.entry n = d'.entry n) : Duplicate b parent k k'' d'' n := by
  cases h with
  | copied mem hpriv hmem hnot hentry hbytes =>
    refine .copied mem hpriv hmem (hd.not_mem hnot) (he.trans hentry) fun hsrc => ?_
    rw [hd.bytes mem hnot, hbytes hsrc]
  | shared hpriv hentry => exact .shared hpriv (he.trans hentry)

theorem earlier (hd : k.Drawn k' m) (h : Duplicate b parent k' k'' d' n) :
    Duplicate b parent k k'' d' n := by
  cases h with
  | copied mem hpriv hmem hnot hentry hbytes =>
    refine .copied mem hpriv (hd.freelist.subset hmem) hnot hentry fun hsrc => ?_
    rw [hbytes (hd.not_mem hsrc), hd.bytes _ hsrc]
  | shared hpriv hentry => exact .shared hpriv hentry

end Duplicate

/-- What the loops make of the pages of a mapping from page `lo` on. -/
structure PassedOn (b : MemBlock) (parent : PgDir) (lo : Nat) (k : Kmem) (d : PgDir) (k' : Kmem)
    (d' : PgDir) : Prop where
  drawn : k.Drawn k' (2 * (b.stopPage - lo))
  outside : ∀ n, ¬ (lo ≤ n ∧ n < b.stopPage) → d'.entry n = d.entry n
  absent : ∀ n, lo ≤ n → n < b.stopPage → present (d.entry n) = false
  copy : ∀ n, lo ≤ n → n < b.stopPage → Duplicate b parent k k' d' n

theorem PassedOn.done {b : MemBlock} {parent : PgDir} {lo : Nat} (k : Kmem) (d : PgDir)
    (h : b.stopPage ≤ lo) : PassedOn b parent lo k d k d :=
  ⟨(Kmem.Drawn.refl k).mono (Nat.zero_le _), fun _ _ => rfl, fun n hn hlt => by omega,
    fun n hn hlt => by omega⟩

theorem PassedOn.cons {b : MemBlock} {parent : PgDir} {lo : Nat} {k k1 k' : Kmem}
    {d d1 d' : PgDir} (hlo : lo < b.stopPage) (hd : k.Drawn k1 2)
    (habs : present (d.entry lo) = false) (hother : ∀ n, n ≠ lo → d1.entry n = d.entry n)
    (hdup : Duplicate b parent k k1 d1 lo) (h : PassedOn b parent (lo + 1) k1 d1 k' d') :
    PassedOn b parent lo k d k' d' := by
  have hself : d'.entry lo = d1.entry lo := h.outside lo (by omega)
  refine ⟨(hd.trans h.drawn).mono (by omega), fun n hn => ?_, fun n hn hlt => ?_,
    fun n hn hlt => ?_⟩
  · rw [h.outside n (by omega), hother n (by omega)]
  · rcases Nat.eq_or_lt_of_le hn with rfl | hgt
    · exact habs
    · rw [← hother n (by omega)]
      exact h.absent n (by omega) hlt
  · rcases Nat.eq_or_lt_of_le hn with rfl | hgt
    · exact hdup.later h.drawn hself
    · exact (h.copy n (by omega) hlt).earlier hd

/-- Page `n` can be passed on: the parent has a table for it, and the child does not have it. -/
def Passable (parent d : PgDir) (n : Nat) : Prop :=
  parent.hasTab n = true ∧ present (d.entry n) = false

/-- A loop of `fork` over the pages of `b`: with two pages free, a turn duplicates a page that can be
passed on and fails at another. -/
structure PageLoop (b : MemBlock) (parent : PgDir)
    (loop : Nat → Kmem → PgDir → Word → Except Halt (Kmem × PgDir)) : Prop where
  stop : ∀ {fuel k d va}, ¬ va < b.end_ → loop (fuel + 1) k d va = .ok (k, d)
  fail : ∀ {fuel k d va}, va < b.end_ → va.toNat % 4096 = 0 → 2 ≤ k.freelist.length →
    ¬ Passable parent d (vpn va) → ∃ e, loop (fuel + 1) k d va = .error e
  turn : ∀ {fuel k d va}, va < b.end_ → va.toNat % 4096 = 0 → 2 ≤ k.freelist.length →
    k.freelist.Nodup → Passable parent d (vpn va) →
    ∃ k1 d1, loop (fuel + 1) k d va = loop fuel k1 d1 (va + pgSize) ∧ k.Drawn k1 2 ∧
      (∀ n, n ≠ vpn va → d1.entry n = d.entry n) ∧ Duplicate b parent k k1 d1 (vpn va)

section Loops

variable {parent : PgDir} {b : MemBlock}
  {loop : Nat → Kmem → PgDir → Word → Except Halt (Kmem × PgDir)}

theorem present_of_not_passable {d : PgDir} {n : Nat} (h : ¬ Passable parent d n)
    (htab : parent.hasTab n = true) : present (d.entry n) = true := by
  cases hp : present (d.entry n) with
  | false => exact absurd ⟨htab, hp⟩ h
  | true => rfl

theorem privateLoop_pageLoop (parent : PgDir) (hpriv : hasFlag b.flags mapPrivate = true) :
    PageLoop b parent (privateLoop parent b) where
  stop hstop := by rw [privateLoop, if_neg hstop]
  fail {_ k d va} hlt hal hroom hpass := by
    obtain ⟨mem, k1, ha, -⟩ := kalloc_ok (.fork b.rid) (by omega : 0 < k.freelist.length)
    rw [privateLoop, if_pos hlt, ha]
    by_cases htab : parent.hasTab (vpn va) = true
    · simp only [htab, if_true, mappages_remap hal (present_of_not_passable hpass htab)]
      exact ⟨_, rfl⟩
    · simp only [htab]
      exact ⟨_, rfl⟩
  turn {_ k d va} hlt hal hroom hnd hpass := by
    obtain ⟨mem, k1, k2, d1, ha, hmap, hmem, hd, hnew, hself, hother⟩ := exists_mapped (.fork b.rid)
      (pteW ||| pteU) (k.mem (p2v (pteAddr (parent.entry (vpn va))))) hal hpass.2 hroom
    rw [← kalloc_memmove ha] at hmap
    obtain ⟨hnot, hbytes⟩ := hnew hnd
    refine ⟨k2, d1, ?_, hd, hother, .copied mem hpriv hmem hnot hself fun _ => hbytes⟩
    rw [privateLoop, if_pos hlt, ha]
    simp only [hpass.1, if_true, hmap]

theorem sharedLoop_pageLoop (parent : PgDir) (hpriv : hasFlag b.flags mapPrivate = false) :
    PageLoop b parent (sharedLoop parent b) where
  stop hstop := by rw [sharedLoop, if_neg hstop]
  fail {_ k d va} hlt hal _ hpass := by
    rw [sharedLoop, if_pos hlt]
    by_cases htab : parent.hasTab (vpn va) = true
    · simp only [htab, if_true, mappages_remap hal (present_of_not_passable hpass htab)]
      exact ⟨_, rfl⟩
    · simp only [htab]
      exact ⟨_, rfl⟩
  turn {_ k d va} hlt hal hroom _ hpass := by
    obtain ⟨k1, d1, hmap, hd, hself, hother⟩ := mappages_page_ok (k := k)
      (pteAddr (parent.entry (vpn va))) (pteW ||| pteU) hal hpass.2 (by omega)
    refine ⟨k1, d1, ?_, hd.mono (by decide), hother, .shared hpriv hself⟩
    rw [sharedLoop, if_pos hlt]
    simp only [hpass.1, if_true, hmap]

/-- Such a loop comes to its end unless there is a page that cannot be passed on. -/
theorem PageLoop.ends (h : PageLoop b parent loop) (hend : b.end_.toNat ≤ 0xFFFFF000) :
    ∀ (fuel : Nat) {k : Kmem} {d : PgDir} {va : Word}, va.toNat % 4096 = 0 →
      b.stopPage - vpn va < fuel → 2 * (b.stopPage - vpn va) ≤ k.freelist.length →
      k.freelist.Nodup →
      ((∃ e, loop fuel k d va = .error e) ∧
        ∃ n, vpn va ≤ n ∧ n < b.stopPage ∧ ¬ Passable parent d n) ∨
      ∃ k' d', loop fuel k d va = .ok (k', d') ∧ PassedOn b parent (vpn va) k d k' d'
  | 0, _, _, _, _, hfuel, _, _ => by omega
  | fuel + 1, k, d, va, hal, hfuel, hroom, hnd => by
    by_cases hlt : va < b.end_
    · obtain ⟨hnext, hvpn⟩ := next_page hal hend hlt
      have hlo : vpn va < b.stopPage := by
        rw [BitVec.lt_def] at hlt
        unfold MemBlock.stopPage
        omega
      have hvpn' : vpn (va + pgSize) = vpn va + 1 := by
        unfold vpn at hvpn ⊢
        omega
      by_cases hpass : Passable parent d (vpn va)
      · obtain ⟨k1, d1, hturn, hd, hother, hdup⟩ := h.turn hlt hal (by omega) hnd hpass
        have hlen := hd.length
        rw [hturn]
        have hrest := PageLoop.ends h hend fuel (k := k1) (d := d1)
          (show (va + pgSize).toNat % 4096 = 0 by omega) (by omega) (by omega) (hd.nodup hnd)
        rw [hvpn'] at hrest
        obtain ⟨herr, n, hn, hlt, hnot⟩ | ⟨k', d', hok, hrest⟩ := hrest
        · rw [Passable, hother n (by omega)] at hnot
          exact .inl ⟨herr, n, by omega, hlt, hnot⟩
        · exact .inr ⟨k', d', hok, .cons hlo hd hpass.2 hother hdup hrest⟩
      · exact .inl ⟨h.fail hlt hal (by omega) hpass, vpn va, le_rfl, hlo, hpass⟩
    · refine .inr ⟨k, d, h.stop hlt, .done k d ?_⟩
      rw [BitVec.lt_def] at hlt
      unfold MemBlock.stopPage vpn
      omega

end Loops

/-! ## The inheritance loop -/

/-- The pages that `fork` visits for the slots `is`. -/
def Maps.forkPages (m : Maps) : List Nat → Nat
  | [] => 0
  | i :: is =>
    (if (m.arr i).Inherited then (m.arr i).stopPage - vpn (m.arr i).start else 0) + m.forkPages is

/-- `fork` visits the mapping page by page. -/
structure MemBlock.Paged (b : MemBlock) : Prop where
  aligned : b.start.toNat % 4096 = 0
  below : b.end_.toNat ≤ 0xFFFFF000

/-- What the inheritance loop makes of the pages of the slots `is`. -/
structure ChildPages (cur : Proc) (is : List Nat) (k : Kmem) (d : PgDir) (k' : Kmem)
    (d' : PgDir) : Prop where
  drawn : k.Drawn k' (2 * cur.maps.forkPages is)
  outside : ∀ n, (∀ i ∈ is, (cur.maps.arr i).Inherited → ¬ (cur.maps.arr i).Inside n) →
    d'.entry n = d.entry n
  absent : ∀ i ∈ is, (cur.maps.arr i).Inherited → ∀ n, (cur.maps.arr i).Inside n →
    present (d.entry n) = false
  copy : ∀ i ∈ is, (cur.maps.arr i).Inherited → ∀ n, (cur.maps.arr i).Inside n →
    Duplicate (cur.maps.arr i) cur.pgdir k k' d' n

theorem MemBlock.Paged.stopPage_lt {b : MemBlock} (h : b.Paged) : b.stopPage < 1048577 := by
  have := h.below
  unfold MemBlock.stopPage
  omega

/-- An entry that is inherited ends as the loop over its pages does. -/
theorem forkEntry_ends {cur : Proc} (np : Proc) {k : Kmem} {i : Nat}
    (hpaged : (cur.maps.arr i).Inherited → (cur.maps.arr i).Paged) (hnd : k.freelist.Nodup)
    (hroom : 2 * cur.maps.forkPages [i] ≤ k.freelist.length) :
    (¬ (cur.maps.arr i).Inherited ∧ forkEntry cur np k i = .ok (k, np)) ∨
      (cur.maps.arr i).Inherited ∧
        (((∃ e, forkEntry cur np k i = .error e) ∧
          ∃ n, vpn (cur.maps.arr i).start ≤ n ∧ n < (cur.maps.arr i).stopPage ∧
            ¬ Passable cur.pgdir np.pgdir n) ∨
        ∃ k' np', forkEntry cur np k i = .ok (k', np') ∧
          PassedOn (cur.maps.arr i) cur.pgdir (vpn (cur.maps.arr i).start) k np.pgdir k'
            np'.pgdir) := by
  by_cases hinh : (cur.maps.arr i).Inherited
  · simp only [Maps.forkPages, if_pos hinh, Nat.add_zero] at hroom
    obtain ⟨hal, hend⟩ := hpaged hinh
    have hlt := (hpaged hinh).stopPage_lt
    refine .inr ⟨hinh, ?_⟩
    unfold forkEntry
    dsimp only
    rw [if_neg hinh.1]
    by_cases hpriv : hasFlag (cur.maps.arr i).flags mapPrivate = true
    · rw [if_pos hpriv]
      obtain ⟨⟨e, he⟩, hn⟩ | ⟨k', d', hok, hp⟩ :=
        (privateLoop_pageLoop cur.pgdir hpriv).ends hend 1048577 (d := np.pgdir) hal (by omega)
          hroom hnd
      · exact .inl ⟨⟨e, by rw [he]⟩, hn⟩
      · exact .inr ⟨_, _, by rw [hok], hp⟩
    · rw [if_neg hpriv, if_pos (hinh.2.resolve_left hpriv)]
      obtain ⟨⟨e, he⟩, hn⟩ | ⟨k', d', hok, hp⟩ :=
        (sharedLoop_pageLoop cur.pgdir (Bool.eq_false_iff.mpr hpriv)).ends hend 1048577
          (d := np.pgdir) hal (by omega) hroom hnd
      · exact .inl ⟨⟨e, by rw [he]⟩, hn⟩
      · exact .inr ⟨_, _, by rw [hok], hp⟩
  · refine .inl ⟨hinh, ?_⟩
    unfold forkEntry
    dsimp only
    by_cases hv : (cur.maps.arr i).valid = 0#32
    · rw [if_pos hv]
    · rw [if_neg hv, if_neg fun hp => hinh ⟨hv, .inl hp⟩, if_neg fun hs => hinh ⟨hv, .inr hs⟩]

theorem forkEntries_pages {cur : Proc} :
    ∀ {is : List Nat} {k : Kmem} {np : Proc} {k' : Kmem} {np' : Proc},
      (∀ i ∈ is, (cur.maps.arr i).Inherited → (cur.maps.arr i).Paged) → k.freelist.Nodup →
      2 * cur.maps.forkPages is ≤ k.freelist.length →
      forkEntries cur is k np = .ok (k', np') →
      ChildPages cur is k np.pgdir k' np'.pgdir
  | [], k, np, k', np', _, _, _, h => by
    cases h
    exact ⟨.refl k, fun _ _ => rfl, fun i hi => absurd hi (List.not_mem_nil),
      fun i hi => absurd hi (List.not_mem_nil)⟩
  | i :: is, k, np, k', np', hpaged, hnd, hroom, h => by
    rw [forkEntries] at h
    have hrest : ∀ j ∈ is, (cur.maps.arr j).Inherited → (cur.maps.arr j).Paged :=
      fun j hj => hpaged j (List.mem_cons_of_mem _ hj)
    have hself := hpaged i (List.mem_cons_self ..)
    unfold Maps.forkPages at hroom
    obtain ⟨hnot, he⟩ | ⟨hinh, ⟨⟨e, he⟩, -⟩ | ⟨k1, np1, he, hp⟩⟩ := forkEntry_ends np hself hnd
      (by simp only [Maps.forkPages, Nat.add_zero]; omega)
    all_goals rw [he] at h
    · rw [if_neg hnot, Nat.zero_add] at hroom
      have hpages := forkEntries_pages hrest hnd hroom h
      refine ⟨?_, fun n hn => ?_, fun j hj hjinh => ?_, fun j hj hjinh => ?_⟩
      · rw [Maps.forkPages, if_neg hnot, Nat.zero_add]
        exact hpages.drawn
      · exact hpages.outside n fun j hj => hn j (List.mem_cons_of_mem _ hj)
      · rcases List.mem_cons.mp hj with rfl | hj
        · exact absurd hjinh hnot
        · exact hpages.absent j hj hjinh
      · rcases List.mem_cons.mp hj with rfl | hj
        · exact absurd hjinh hnot
        · exact hpages.copy j hj hjinh
    · cases h
    · rw [if_pos hinh] at hroom
      have hlen := hp.drawn.length
      have hpages := forkEntries_pages hrest (hp.drawn.nodup hnd) (by omega) h
      have hin : ∀ n, (cur.maps.arr i).Inside n ↔ _ := fun n =>
        MemBlock.inside_iff (hself hinh).aligned
      -- a page that the first mapping has is in no later one: it would be mapped twice
      have hlater : ∀ n, (cur.maps.arr i).Inside n → np'.pgdir.entry n = np1.pgdir.entry n := by
        intro n hn
        refine hpages.outside n fun j hj hjinh hjn => ?_
        obtain ⟨hlo, hhi⟩ := (hin n).mp hn
        have := (hp.copy n hlo hhi).present
        rw [hpages.absent j hj hjinh n hjn] at this
        cases this
      refine ⟨?_, fun n hn => ?_, fun j hj hjinh n hn => ?_, fun j hj hjinh n hn => ?_⟩
      · rw [Maps.forkPages, if_pos hinh]
        exact (hp.drawn.trans hpages.drawn).mono (by omega)
      · rw [hpages.outside n fun j hj => hn j (List.mem_cons_of_mem _ hj)]
        exact hp.outside n fun hrange => hn i (List.mem_cons_self ..) hinh ((hin n).mpr hrange)
      · rcases List.mem_cons.mp hj with rfl | hj
        · obtain ⟨hlo, hhi⟩ := (hin n).mp hn
          exact hp.absent n hlo hhi
        · have habs := hpages.absent j hj hjinh n hn
          by_cases hni : (cur.maps.arr i).Inside n
          · obtain ⟨hlo, hhi⟩ := (hin n).mp hni
            exact hp.absent n hlo hhi
          · rw [hp.outside n fun hrange => hni ((hin n).mpr hrange)] at habs
            exact habs
      · rcases List.mem_cons.mp hj with rfl | hj
        · obtain ⟨hlo, hhi⟩ := (hin n).mp hn
          exact (hp.copy n hlo hhi).later hpages.drawn (hlater n hn)
        · exact (hpages.copy j hj hjinh n hn).earlier hp.drawn

/-- The inheritance loop comes to its end if the parent has the tables, no page of the child is in
the way, and no page is in two mappings. -/
theorem forkEntries_returns (cur : Proc) :
    ∀ (is : List Nat) (k : Kmem) (np : Proc),
      (∀ i ∈ is, (cur.maps.arr i).Inherited → (cur.maps.arr i).Paged) → k.freelist.Nodup →
      2 * cur.maps.forkPages is ≤ k.freelist.length →
      (∀ i ∈ is, (cur.maps.arr i).Inherited → ∀ n, vpn (cur.maps.arr i).start ≤ n →
        n < (cur.maps.arr i).stopPage → Passable cur.pgdir np.pgdir n) →
      is.Pairwise (fun i j => (cur.maps.arr i).Inherited → (cur.maps.arr j).Inherited →
        (cur.maps.arr i).stopPage ≤ vpn (cur.maps.arr j).start) →
      ∃ k' np', forkEntries cur is k np = .ok (k', np')
  | [], _, _, _, _, _, _, _ => ⟨_, _, rfl⟩
  | i :: is, k, np, hpaged, hnd, hroom, hpass, hapart => by
    unfold Maps.forkPages at hroom
    have hself := hpaged i (List.mem_cons_self ..)
    have hpaged' : ∀ j ∈ is, (cur.maps.arr j).Inherited → (cur.maps.arr j).Paged :=
      fun j hj => hpaged j (List.mem_cons_of_mem _ hj)
    obtain ⟨hhead, htail⟩ := List.pairwise_cons.mp hapart
    rw [forkEntries]
    obtain ⟨hnot, he⟩ | ⟨hinh, ⟨-, n, hn, hlt, hnot⟩ | ⟨k1, np1, he, hp⟩⟩ :=
      forkEntry_ends np hself hnd (by simp only [Maps.forkPages, Nat.add_zero]; omega)
    · rw [if_neg hnot, Nat.zero_add] at hroom
      rw [he]
      exact forkEntries_returns cur is _ _ hpaged' hnd hroom
        (fun j hj => hpass j (List.mem_cons_of_mem _ hj)) htail
    · exact absurd (hpass i (List.mem_cons_self ..) hinh n hn hlt) hnot
    rw [if_pos hinh] at hroom
    have hlen := hp.drawn.length
    rw [he]
    refine forkEntries_returns cur is _ _ hpaged' (hp.drawn.nodup hnd) (by omega)
      (fun j hj hjinh n hn hlt => ?_) htail
    have hle := hhead j hj hinh hjinh
    rw [Passable, hp.outside n (by omega)]
    exact hpass j (List.mem_cons_of_mem _ hj) hjinh n hn hlt

/-! ## Up to the inheritance loop -/

section Before

variable {k k' : Kmem} {d d' : PgDir}

theorem allocBlocks_took :
    ∀ {n i : Nat} {k : Kmem} {pages pages' : Nat → Word},
      allocBlocks n i k pages = .ok (k', pages') → k.Took k' n
  | 0, _, k, _, _, h => by
    cases h
    exact .refl _
  | n + 1, i, k, pages, pages', h => by
    rw [allocBlocks] at h
    rcases ha : kalloc k .memBlock with _ | r <;> rw [ha] at h
    · cases h
    · rw [Nat.add_comm]
      exact (kalloc_took ha).trans (allocBlocks_took h)

theorem allocproc_took {s s' : Sys} {j : Fin nproc} (h : allocproc s = .ok (some j, s')) :
    s.kmem.Took s'.kmem 18 := by
  obtain ⟨ho, -⟩ | ⟨_, k, kstack, wmap, pages, k1, k2, -, -, hks, hwm, hb, rfl⟩ :=
    allocproc_cases h
  · cases ho
  · exact ((kalloc_took hks).trans (kalloc_took hwm)).trans (allocBlocks_took hb)

theorem setupkvm_drawn (him : k.image.Linked) (hroom : 67 ≤ k.freelist.length)
    (h : setupkvm k = .ok (some d, k')) : k.Drawn k' 67 := by
  obtain ⟨d1, k1, hok, hdrawn, -⟩ := setupkvm_ok him hroom
  rw [h] at hok
  cases hok
  exact hdrawn

/-- The loop of `copyuvm`, from page `vpn i` on, when it returns a directory. -/
theorem copyLoop_drawn {pgdir : PgDir} {sz : Word} (hsz : sz.toNat ≤ 0x80000000) :
    ∀ {fuel : Nat} {k : Kmem} {d : PgDir} {i : Word}, i.toNat % 4096 = 0 →
      copyLoop pgdir sz fuel k d i = .ok (some d', k') →
      k.Drawn k' (2 * ((sz.toNat + 4095) / 4096 - vpn i))
  | 0, _, _, _, _, h => by cases h
  | fuel + 1, k, d, i, hal, h => by
    obtain ⟨-, -, rfl⟩ | ⟨hlt, ⟨-, ho, -⟩ | ⟨mem, k1, mapped, k2, d2, ha, hmap, hturn⟩⟩ :=
      copyLoop_cases h
    · exact (Kmem.Drawn.refl _).mono (Nat.zero_le _)
    · cases ho
    obtain ⟨rfl, hloop⟩ | ⟨-, ho, -⟩ := hturn
    · rw [BitVec.lt_def] at hlt
      have hnext := toNat_add_pgSize (a := i) (by omega)
      obtain ⟨d3, hw, -⟩ := mappages_page_cases hal hmap
      have hd := ((kalloc_drawn ha).write (mem_of_kalloc ha) _).trans (walkpgdir_drawn hw).1
      have hrest := copyLoop_drawn hsz (by omega) hloop
      refine (hd.trans hrest).mono ?_
      unfold vpn
      omega
    · cases ho

theorem copyuvm_drawn {pgdir : PgDir} {sz : Word} (him : k.image.Linked)
    (hsz : sz.toNat ≤ 0x80000000) (hroom : 67 ≤ k.freelist.length)
    (h : copyuvm k pgdir sz = .ok (some d, k')) :
    k.Drawn k' (67 + 2 * ((sz.toNat + 4095) / 4096)) := by
  unfold copyuvm at h
  rcases hset : setupkvm k with _ | ⟨_ | d1, k1⟩ <;> rw [hset] at h
  · cases h
  · cases h
  · exact (setupkvm_drawn him hroom hset).trans (copyLoop_drawn hsz (by decide) h)

end Before

/-- The state in which `fork` enters its inheritance loop, and the one in which it leaves it. -/
theorem fork_child {s s' : Sys} {i j : Fin nproc} (hlive : (s.proc i).state.live = true)
    (h : fork s i = .ok (some j, s')) :
    ∃ s1 d k k' np np', allocproc s = .ok (some j, s1) ∧ i ≠ j ∧ s1.proc i = s.proc i ∧
      copyuvm s1.kmem (s.proc i).pgdir (s.proc i).sz = .ok (some d, k) ∧
      np.maps = Maps.init ∧ np.pgdir = d ∧
      forkEntries (s.proc i) (List.range maxWmmapInfo) k np = .ok (k', np') ∧
      s'.kmem = k' ∧ s'.proc i = s.proc i ∧ (s'.proc j).maps = np'.maps ∧
      (s'.proc j).pgdir = np'.pgdir := by
  obtain ⟨ho, -⟩ | ⟨j', s1, ha, hcases⟩ := fork_cases h
  · cases ho
  obtain ⟨ho, -⟩ | ⟨d, k, k', np', ho, hc, hfe, rfl⟩ := hcases
  · cases ho
  cases ho
  obtain ⟨ho, -⟩ | ⟨j', k0, kstack, wmap, pages, k1, k2, ho, hslot, -, -, -, hs1⟩ :=
    allocproc_cases ha
  · cases ho
  cases ho
  have hunused : (s.proc j).state = .unused := by
    have := List.find?_some hslot
    simpa using this
  have hij : i ≠ j := by
    rintro rfl
    rw [hunused] at hlive
    cases hlive
  have hpi : s1.proc i = s.proc i := by
    rw [hs1]
    exact Sys.setProc_proc_of_ne _ _ _ hij
  have hmaps : (s1.proc j).maps = Maps.init := by
    rw [hs1, Sys.setProc_proc_self]
  rw [hpi] at hc hfe
  refine ⟨s1, d, k, k', _, np', ha, hij, hpi, hc, ?_, ?_, hfe, rfl, ?_, ?_, ?_⟩
  · exact hmaps
  · rfl
  · rw [Sys.setProc_proc_of_ne _ _ _ hij]
    exact hpi
  · rw [Sys.setProc_proc_self]
  · rw [Sys.setProc_proc_self]

/-! ## The first process maps, loads and forks -/

/-- The table after `wmap` calls without `MAP_FIXED`, each given by its length and flags. -/
def wmapAll (pid : Nat) : Maps → List (Word × Word) → Maps
  | m, [] => m
  | m, w :: ws => wmapAll pid (sysWmap pid m 0#32 w.1 w.2 0#32).2 ws

/-- The same calls, as actions. -/
def wmapActions (i : Fin nproc) (ws : List (Word × Word)) : List (Fin nproc × Action) :=
  ws.map fun w => (i, .call (.wmap 0#32 w.1 w.2 0#32))

theorem run_wmaps {i : Fin nproc} :
    ∀ (ws : List (Word × Word)) {s : Sys}, (s.proc i).state.live = true →
      run step s (wmapActions i ws)
        = .ok (s.setProc s.kmem i
            { s.proc i with maps := wmapAll (s.proc i).pid (s.proc i).maps ws })
  | [], s, _ => by
    have hself : s.setProc s.kmem i { s.proc i with maps := (s.proc i).maps } = s := by
      unfold Sys.setProc
      rw [Function.update_eq_self]
    exact congrArg Except.ok hself.symm
  | w :: ws, s, hlive => by
    refine run_cons.mpr ⟨s.setProc s.kmem i { s.proc i with
      maps := (sysWmap (s.proc i).pid (s.proc i).maps 0#32 w.1 w.2 0#32).2 }, ?_, ?_⟩
    · unfold step
      rw [if_pos hlive]
      rfl
    · have hrest := run_wmaps (i := i) ws (s := s.setProc s.kmem i { s.proc i with
        maps := (sysWmap (s.proc i).pid (s.proc i).maps 0#32 w.1 w.2 0#32).2 })
        (by rw [Sys.setProc_proc_self]; exact hlive)
      rw [Sys.setProc_kmem, Sys.setProc_setProc, Sys.setProc_proc_self] at hrest
      exact hrest

/-- What `kalloc`, `memset` and `mappages` make of the page `va` that was absent: the page `mem`, full
of zeros and in use. -/
structure NewPage (who : Caller) (k : Kmem) (d : PgDir) (va mem : Word) (k₁ k' : Kmem) (d' : PgDir) :
    Prop where
  alloc : kalloc k who = some (mem, k₁)
  mapped : mappages (k₁.memset mem 0#8) d va pgSize (v2p mem) (pteW ||| pteU) = .ok (true, k', d')
  free : mem ∈ k.freelist
  owned : mem ∉ k'.freelist
  drawn : k.Drawn k' 2
  zero : k'.mem mem = fun _ => 0#8
  present : present (d'.entry (vpn va)) = true
  page : p2v (pteAddr (d'.entry (vpn va))) = mem
  other : ∀ n, n ≠ vpn va → d'.entry n = d.entry n

/-- With two pages free there is always such a page. -/
theorem exists_newPage (who : Caller) {k : Kmem} {d : PgDir} {va : Word}
    (hal : va.toNat % 4096 = 0) (habsent : present (d.entry (vpn va)) = false) (hk : k.Sound)
    (hnd : k.freelist.Nodup) (hroom : 2 ≤ k.freelist.length) :
    ∃ mem k1 k' d', NewPage who k d va mem k1 k' d' := by
  obtain ⟨mem, k1, k', d', ha, hmap, hmem, hd, hnew, hself, hother⟩ := exists_mapped who
    (pteW ||| pteU) (fun _ => 0#8) hal habsent hroom
  obtain ⟨hnot, hzero⟩ := hnew hnd
  refine ⟨mem, k1, k', d', ha, hmap, hmem, hnot, hd, hzero, ?_, ?_, hother⟩
  · rw [hself]
    exact present_or _ _
  · rw [hself, p2v_pteAddr_or (KernelImage.aligned_of_isPage (hk mem hmem)) (by decide)]

/-- A fault that loads a page of an anonymous mapping. -/
theorem pgflt_loads {k : Kmem} {p : Proc} {va : Word} {l : Nat}
    (hslot : p.maps.faultSlot va = some l)
    (hanon : hasFlag (p.maps.arr l).flags mapAnonymous = true) (hal : va.toNat % 4096 = 0)
    (habsent : present (p.pgdir.entry (vpn va)) = false) (hk : k.Sound) (hnd : k.freelist.Nodup)
    (hroom : 2 ≤ k.freelist.length) :
    ∃ k' d, pgflt k p va noFile = .ok (k', { p with pgdir := d, maps := p.maps.load l va }) ∧
      k.Drawn k' 2 ∧ present (d.entry (vpn va)) = true ∧
      p2v (pteAddr (d.entry (vpn va))) ∉ k'.freelist ∧
      ∀ n, n ≠ vpn va → d.entry n = p.pgdir.entry n := by
  obtain ⟨mem, k1, k', d, hnew⟩ :=
    exists_newPage (.fault (p.maps.arr l).rid) hal habsent hk hnd hroom
  refine ⟨k', d, ?_, hnew.drawn, hnew.present, hnew.page ▸ hnew.owned, hnew.other⟩
  simp only [pgflt, hslot, hnew.alloc, hnew.mapped, if_true, loadFile, hanon]

/-- The mappings passed on can be passed on once the page table of `va` is there: they are user
pages under that table. -/
structure MemBlock.UnderTable (b : MemBlock) (va : Word) : Prop extends b.Paged where
  first : vpn b.start / 1024 = vpn va / 1024
  last : (b.stopPage - 1) / 1024 = vpn va / 1024
  positive : 0 < vpn b.start
  user : b.stopPage ≤ 0x80000

instance (b : MemBlock) (va : Word) : Decidable (b.UnderTable va) :=
  decidable_of_iff
    ((b.start.toNat % 4096 = 0 ∧ b.end_.toNat ≤ 0xFFFFF000) ∧ vpn b.start / 1024 = vpn va / 1024 ∧
      (b.stopPage - 1) / 1024 = vpn va / 1024 ∧ 0 < vpn b.start ∧ b.stopPage ≤ 0x80000)
    ⟨fun ⟨⟨h₁, h₂⟩, h₃, h₄, h₅, h₆⟩ => ⟨⟨h₁, h₂⟩, h₃, h₄, h₅, h₆⟩,
      fun ⟨⟨h₁, h₂⟩, h₃, h₄, h₅, h₆⟩ => ⟨⟨h₁, h₂⟩, h₃, h₄, h₅, h₆⟩⟩

/-- The first process with table `m` after it has loaded page `vpn va` of entry `l`. -/
structure Sys.Loaded (im : KernelImage) (t : Sys) (m : Maps) (l : Nat) (va : Word) : Prop where
  image : t.kmem.image = im
  sound : t.kmem.Sound
  nodup : t.kmem.freelist.Nodup
  room : 111 ≤ t.kmem.freelist.length
  live : (t.proc 0).state.live = true
  sz : (t.proc 0).sz = pgSize
  maps : (t.proc 0).maps = m.load l va
  present : present ((t.proc 0).pgdir.entry (vpn va)) = true
  owned : p2v (pteAddr ((t.proc 0).pgdir.entry (vpn va))) ∉ t.kmem.freelist
  rest : ∀ n, 0 < n → n < 0x80000 → n ≠ vpn va → (t.proc 0).pgdir.entry n = 0#32

theorem Maps.forkPages_congr {m m' : Maps} (h : m'.arr = m.arr) :
    ∀ is, m'.forkPages is = m.forkPages is
  | [] => rfl
  | i :: is => by
    unfold Maps.forkPages
    rw [h, Maps.forkPages_congr h is]

theorem Sys.Booted.loadFork {im : KernelImage} {s : Sys} (h : s.Booted im) (him : im.Linked)
    (hnd : s.kmem.freelist.Nodup) (hroom : 113 ≤ s.kmem.freelist.length)
    (ws : List (Word × Word)) {m : Maps} (hm : wmapAll 1 Maps.init ws = m) (va : Word) {l : Nat}
    (hslot : m.faultSlot va = some l) (hanon : hasFlag (m.arr l).flags mapAnonymous = true)
    (hal : va.toNat % 4096 = 0) (hva : 0 < vpn va ∧ vpn va < 0x80000)
    (hunder : ∀ x < maxWmmapInfo, (m.arr x).Inherited → (m.arr x).UnderTable va)
    (hapart : (List.range maxWmmapInfo).Pairwise fun x y => (m.arr x).Inherited →
      (m.arr y).Inherited → (m.arr x).stopPage ≤ vpn (m.arr y).start)
    (hneeds : m.forkPages (List.range maxWmmapInfo) ≤ 12) :
    ∃ t t', run step s (wmapActions 0 ws ++ [(0, .call (.fault va noFile))]) = .ok t ∧
      t.Loaded im m l va ∧ Xv6Mmap.fork t 0 = .ok (some 1, t') := by
  have hlive : (s.proc 0).state.live = true := by rw [h.frame]; rfl
  have hmaps : (s.proc 0).maps = Maps.init := by rw [h.frame]; rfl
  have hpid : (s.proc 0).pid = 1 := by rw [h.frame]
  have hsz : (s.proc 0).sz = pgSize := by rw [h.frame]
  -- the mappings
  have hwmaps := run_wmaps (i := 0) ws hlive
  rw [hpid, hmaps, hm] at hwmaps
  -- the fault
  obtain ⟨k, d, hflt, hdrawn, hp, howned, hother⟩ := pgflt_loads (k := s.kmem)
    (p := { s.proc 0 with maps := m }) hslot hanon hal
    (by rw [h.dir.rest _ hva.1 hva.2, present_zero]) h.sound hnd (by omega)
  have hlen := hdrawn.length
  set p : Proc := { s.proc 0 with pgdir := d, maps := m.load l va } with hpdef
  set t := (s.setProc s.kmem 0 { s.proc 0 with maps := m }).setProc k 0 p with ht
  have hfault : step (s.setProc s.kmem 0 { s.proc 0 with maps := m })
      (0, .call (.fault va noFile)) = .ok t := by
    unfold step
    rw [if_pos (by rw [Sys.setProc_proc_self]; exact hlive)]
    simp only [call, Sys.setProc_kmem, Sys.setProc_proc_self, hflt]
    rfl
  have hp0 : t.proc 0 = p := Sys.setProc_proc_self ..
  have hloaded : t.Loaded im m l va := by
    refine ⟨hdrawn.image.trans h.image, hdrawn.sound h.sound, hdrawn.nodup hnd, ?_, ?_, ?_,
      ?_, ?_, ?_, fun n hn hlt hne => ?_⟩
    · change 111 ≤ k.freelist.length
      omega
    all_goals rw [hp0]
    · exact hlive
    · exact hsz
    · exact hp
    · exact howned
    · exact (hother n hne).trans (h.dir.rest n hn hlt)
  refine ⟨t, ?_⟩
  -- the child up to the inheritance loop
  have hunused : t.unusedSlot = some 1 := by
    rw [← h.unusedSlot]
    unfold Sys.unusedSlot
    congr 1
    funext x
    by_cases hx : x = 0
    · rw [hx, hp0]
    · rw [ht, Sys.setProc_proc_of_ne _ _ _ hx, Sys.setProc_proc_of_ne _ _ _ hx]
  have hzero : present ((t.proc 0).pgdir.entry 0) = true := by
    rw [hp0]
    change present (d.entry 0) = true
    rw [hother 0 (by omega)]
    exact h.dir.zero
  obtain ⟨k1, np, hspent, hnp, hfork⟩ := fork_ok (by rw [hloaded.image]; exact him) hloaded.sound
    hunused (by decide) hloaded.sz (PgDir.hasTab_of_present hzero) hzero
    (by have := hloaded.room; omega)
  have hlen1 := hspent.length
  have harr : (t.proc 0).maps.arr = m.arr := by rw [hloaded.maps]; rfl
  obtain ⟨k', np', hloop⟩ := forkEntries_returns (t.proc 0) (List.range maxWmmapInfo) k1 np
    (fun x hx hinh => by
      rw [harr] at hinh ⊢
      exact (hunder x (List.mem_range.mp hx) hinh).toPaged)
    (hloaded.nodup.sublist hspent.freelist.sublist)
    (by rw [Maps.forkPages_congr harr]; have := hloaded.room; omega)
    (fun x hx hinh n hn hlt => by
      rw [harr] at hinh hn hlt
      have hu := hunder x (List.mem_range.mp hx) hinh
      have hfirst := hu.first
      have hlast := hu.last
      have hpos := hu.positive
      have huser := hu.user
      constructor
      · rw [PgDir.hasTab_congr (show n / 1024 = vpn va / 1024 by omega)]
        exact PgDir.hasTab_of_present hloaded.present
      · rw [hnp.dir.rest n (by omega) (by omega), present_zero])
    (by rw [harr]; exact hapart)
  rw [hloop] at hfork
  exact ⟨_, run_append.mpr ⟨_, hwmaps, run_cons.mpr ⟨t, hfault, rfl⟩⟩, hloaded, hfork⟩

theorem exists_booted :
    ∃ s, userinit (Kmem.initial 200) (fun _ => 0#8) = .ok s ∧ s.Booted KernelImage.sample ∧
      s.kmem.freelist.Nodup ∧ 113 ≤ s.kmem.freelist.length := by
  obtain ⟨s, hs, hboot, hspent⟩ := userinit_ok (k := Kmem.initial 200) (fun _ => 0#8)
    KernelImage.sample_linked (Kmem.initial_sound (by decide)) (by simp [Kmem.initial])
  have hlen : 200 ≤ s.kmem.freelist.length + 87 := by
    simpa [Kmem.initial] using hspent.length
  have hnd := Kmem.initial_nodup (show 200 ≤ 1000 by decide)
  exact ⟨s, hs, hboot, hnd.sublist hspent.freelist.sublist, by omega⟩

end Xv6Mmap
