import Xv6Mmap.Extents
import Xv6Mmap.Spawn
import Xv6Mmap.Tables

/-!
# Pages that come and go one by one (`trap.c:82-132`, `vm.c:36-81`)

A page of a mapping is mapped when it is first touched. The handler hands the fault address itself
to `mappages`, which rounds the first and the last byte of the range down separately: only an address
at the start of a page makes that range one page.

* `mappages_fault` is `mappages(va, PGSIZE)` at any address: one page, or two when the address is not
  at the start of a page, with every way in which it can end.
* **`pgflt_maps_one_page_iff`**: a fault at an absent page of an anonymous mapping maps this page to a
  zeroed page from `kalloc` and changes no other translation, if and only if the address is the first
  of its page. Here the page tables are in memory, and none of their pages is free.
* `pgflt_inside_page_maps_two`: a fault one byte further maps the next page too, to whatever page
  follows the one from `kalloc`.
-/

namespace Xv6Mmap

open Lib

/-- There is a page for the fault, and one for a page table if there is none. -/
def PagesFor (k : Kmem) (d : PgDir) (va : Word) : Prop := d.lacks (vpn va) < k.freelist.length

/-- The entry of a user page that can be written. -/
structure UserPage (e : Word) (mem : Word) : Prop where
  entry : e = v2p mem ||| (pteW ||| pteU) ||| pteP
  present : present e = true
  writable : hasFlag e pteW = true
  user : userPte e = true

theorem hasFlag_of_bit {x f : Word} (i : Nat) (hf : f.getLsbD i = true) (hx : x.getLsbD i = true) :
    hasFlag x f = true := by
  unfold hasFlag
  rw [bne_iff_ne]
  intro h
  have := congrArg (fun w : Word => w.getLsbD i) h
  simp [hf, hx] at this

theorem userPage_mapped (mem : Word) : UserPage (v2p mem ||| (pteW ||| pteU) ||| pteP) mem where
  entry := rfl
  present := present_or _ _
  writable := hasFlag_of_bit 1 (by decide) (by simp [pteW, pteU])
  user := hasFlag_of_bit 2 (by decide) (by simp [pteW, pteU])

/-! ## Mapping at any address -/

section MapAt

variable {k : Kmem} {d : PgDir} {a va pa perm last : Word} {fuel : Nat}

theorem mapLoop_fails (h : k.freelist.length < d.lacks (vpn a)) :
    mapLoop last perm (fuel + 1) k d a pa = .ok (false, k, d) := by
  rw [mapLoop_succ, walkpgdir_fails h]

/-- The page after the one of `va`, which `mappages(va, PGSIZE)` also maps unless `va` is at the
start of a page. -/
def nextVpn (va : Word) : Nat := vpn (pgRoundDown va + pgSize)

theorem nextVpn_ne (va : Word) : nextVpn va ≠ vpn va := by
  have hlt := va.isLt
  unfold nextVpn vpn
  rw [BitVec.toNat_add, pgRoundDown_toNat, show pgSize.toNat = 4096 from rfl]
  omega

/-- The tables that a fault at `va` lacks. -/
def PgDir.faultTabs (d : PgDir) (va : Word) : Nat :=
  d.lacks (vpn va) +
    if va.toNat % 4096 = 0 ∨ nextVpn va / 1024 = vpn va / 1024 then 0 else d.lacks (nextVpn va)

theorem PgDir.Walked.lacks_eq {d1 : PgDir} {n m : Nat} {w : Word} (h : d.Walked d1 n) :
    (d1.setEntry n w).lacks m = if m / 1024 = n / 1024 then 0 else d.lacks m := by
  have habs := h.absent (m / 1024)
  unfold PgDir.lacks
  rw [PgDir.hasTab_setEntry]
  unfold PgDir.hasTab
  by_cases hm : m / 1024 = n / 1024
  · rw [if_pos hm]
    have htab := h.hasTab
    unfold PgDir.hasTab at htab
    rw [hm, if_pos htab]
  · rw [if_neg hm]
    rw [decide_eq_true hm, Bool.and_true] at habs
    rw [← Option.not_isNone, ← Option.not_isNone, habs]

/-- `mappages(va, PGSIZE)`: no page for the first table; a page that is mapped already; or the first
page is mapped, and for an address inside the page the second if there is a page for its table. -/
theorem mappages_fault (k : Kmem) (d : PgDir) (va pa perm : Word) :
    (k.freelist.length < d.lacks (vpn va) ∧
      mappages k d va pgSize pa perm = .ok (false, k, d)) ∨
    (d.lacks (vpn va) ≤ k.freelist.length ∧
      (present (d.entry (vpn va)) = true ∨
        va.toNat % 4096 ≠ 0 ∧ present (d.entry (nextVpn va)) = true) ∧
      mappages k d va pgSize pa perm = .error (.panic "remap")) ∨
    (d.lacks (vpn va) ≤ k.freelist.length ∧ present (d.entry (vpn va)) = false ∧
      (va.toNat % 4096 ≠ 0 → present (d.entry (nextVpn va)) = false) ∧
      ∃ b k' d', mappages k d va pgSize pa perm = .ok (b, k', d') ∧ k.Drawn k' (d.faultTabs va) ∧
        d'.entry (vpn va) = pa ||| perm ||| pteP ∧
        (va.toNat % 4096 = 0 → b = true ∧ ∀ m, m ≠ vpn va → d'.entry m = d.entry m) ∧
        (va.toNat % 4096 ≠ 0 → (b = true ↔ d.faultTabs va ≤ k.freelist.length) ∧
          d'.entry (nextVpn va) =
            if b then pa + pgSize ||| perm ||| pteP else d.entry (nextVpn va))) := by
  have hlt := va.isLt
  have hdown := pgRoundDown_toNat va
  have hfirst : vpn (pgRoundDown va) = vpn va := vpn_pgRoundDown va
  by_cases hroom : d.lacks (vpn va) ≤ k.freelist.length
  · by_cases hp : present (d.entry (vpn va)) = true
    · refine .inr (.inl ⟨hroom, .inl hp, ?_⟩)
      unfold mappages
      exact mapLoop_remap (by rw [hfirst]; exact hp)
    · rw [Bool.not_eq_true] at hp
      obtain ⟨k₁, d1, htook, hwalked, hturn⟩ :=
        @mapLoop_turn (pgRoundDown (va + pgSize - 1#32)) perm 1048575 k d (pgRoundDown va) pa
          (by rw [hfirst]; exact hroom) (by rw [hfirst]; exact hp)
      rw [hfirst] at htook hwalked hturn
      have hcount := htook.count
      set d2 := d1.setEntry (vpn va) (pa ||| perm ||| pteP)
      have hself : d2.entry (vpn va) = pa ||| perm ||| pteP :=
        PgDir.entry_setEntry_self hwalked.hasTab
      by_cases hal : va.toNat % 4096 = 0
      · have hlast : pgRoundDown va = pgRoundDown (va + pgSize - 1#32) := by
          apply BitVec.eq_of_toNat_eq
          rw [hdown, pgRoundDown_toNat, BitVec.toNat_sub, BitVec.toNat_add,
            show pgSize.toNat = 4096 from rfl, show (1#32 : Word).toNat = 1 from rfl]
          omega
        have hdrawn : k.Drawn k₁ (d.faultTabs va) := htook.toDrawn.mono (Nat.le_add_right _ _)
        refine .inr (.inr ⟨hroom, hp, fun h => absurd hal h, true, k₁, d2,
          hturn.trans (if_pos hlast), hdrawn, hself, fun _ => ⟨rfl, fun m hm => ?_⟩,
          fun h => absurd hal h⟩)
        rw [PgDir.entry_setEntry_of_ne hm, hwalked.entry]
      · have hlast : pgRoundDown (va + pgSize - 1#32) = pgRoundDown va + pgSize := by
          apply BitVec.eq_of_toNat_eq
          rw [pgRoundDown_toNat, BitVec.toNat_sub, BitVec.toNat_add, BitVec.toNat_add, hdown,
            show pgSize.toNat = 4096 from rfl, show (1#32 : Word).toNat = 1 from rfl]
          omega
        have hne : pgRoundDown va ≠ pgRoundDown (va + pgSize - 1#32) := by
          rw [hlast]
          intro he
          have := congrArg vpn he
          rw [hfirst] at this
          exact nextVpn_ne va this.symm
        have hother : d2.entry (nextVpn va) = d.entry (nextVpn va) := by
          rw [PgDir.entry_setEntry_of_ne (nextVpn_ne va), hwalked.entry]
        have htabs : d.faultTabs va = d.lacks (vpn va) + d2.lacks (nextVpn va) := by
          unfold PgDir.faultTabs
          rw [hwalked.lacks_eq]
          simp only [hal, false_or]
        rw [if_neg hne] at hturn
        have hpages : mappages k d va pgSize pa perm =
            mapLoop (pgRoundDown (va + pgSize - 1#32)) perm 1048575 k₁ d2 (pgRoundDown va + pgSize)
              (pa + pgSize) := hturn
        rw [hpages]
        by_cases hq : present (d.entry (nextVpn va)) = true
        · exact .inr (.inl ⟨hroom, .inr ⟨hal, hq⟩, mapLoop_remap (by
            rw [← hother] at hq
            exact hq)⟩)
        rw [Bool.not_eq_true] at hq
        refine .inr (.inr ⟨hroom, hp, fun _ => hq, ?_⟩)
        by_cases hroom2 : d2.lacks (nextVpn va) ≤ k₁.freelist.length
        · obtain ⟨k₂, d3, htook2, hwalked2, hturn2⟩ :=
            @mapLoop_turn (pgRoundDown (va + pgSize - 1#32)) perm 1048574 k₁ d2
              (pgRoundDown va + pgSize) (pa + pgSize) hroom2 (by rw [← hother] at hq; exact hq)
          rw [show vpn (pgRoundDown va + pgSize) = nextVpn va from rfl] at hwalked2 hturn2
          refine ⟨true, k₂, _, hturn2.trans (if_pos hlast.symm),
            htabs ▸ htook.toDrawn.trans htook2.toDrawn, ?_, fun h => absurd h hal,
            fun _ => ⟨iff_of_true rfl (by omega), PgDir.entry_setEntry_self hwalked2.hasTab⟩⟩
          rw [PgDir.entry_setEntry_of_ne (nextVpn_ne va).symm, hwalked2.entry, hself]
        · refine ⟨false, k₁, d2, mapLoop_fails (by
            change k₁.freelist.length < d2.lacks (nextVpn va)
            omega), htook.toDrawn.mono (by omega), hself, fun h => absurd h hal,
            fun _ => ⟨iff_of_false Bool.false_ne_true (by omega), hother⟩⟩
  · refine .inl ⟨by omega, ?_⟩
    unfold mappages
    exact mapLoop_fails (by rw [hfirst]; omega)

end MapAt

/-! ## One page -/

/-- The directory and the tables of the process are in pages of their own, none of them free, and
neither are the pages of `p->wmapinfo` and of `p->arr[i]`, which the model keeps as values. -/
structure Kmem.Apart (k : Kmem) (p : Proc) : Prop where
  tables : (k.dirAt p.pgdir.page).Apart k.freelist
  kernel : p.wmapinfoPage ∉ k.freelist ∧ ∀ i, p.arrPage i ∉ k.freelist

/-- The process with its page tables as they are in memory. -/
def Kmem.procAt (k : Kmem) (p : Proc) : Proc := { p with pgdir := k.dirAt p.pgdir.page }

theorem Kmem.Apart.mirrors {k : Kmem} {p : Proc} (h : k.Apart p) (hk : k.Sound) :
    Mirrors (k, k.procAt p) (k, p) :=
  ⟨k.dirAt p.pgdir.page, rfl, ⟨rfl, rfl, rfl, rfl, fun _ _ => rfl, h.tables,
    fun v hv => KernelImage.aligned_of_isPage (hk v hv)⟩, rfl⟩

/-- The handler returns with the page of `va` mapped to a zeroed page from `kalloc`, and with every
other translation as it was. -/
def MapsOnePage (k : Kmem) (p : Proc) (va : Word) (io : FileIo) (i : Nat) : Prop :=
  ∃ mem k₁ k' p', kalloc k (.fault (p.maps.arr i).rid) = some (mem, k₁) ∧
    k.pgflt p va io = .ok (k', p') ∧
    UserPage ((k'.dirAt p'.pgdir.page).entry (vpn va)) mem ∧
    physPage ((k'.dirAt p'.pgdir.page).entry (vpn va)) = mem ∧ k'.mem mem = (fun _ => 0#8) ∧
    ∀ n, n ≠ vpn va → (k'.dirAt p'.pgdir.page).entry n = (k.dirAt p.pgdir.page).entry n

/-- **A lazy fault maps exactly one page** if and only if it is at the first address of the page, for
an absent page that the scan finds in an anonymous mapping. -/
theorem pgflt_maps_one_page_iff {k : Kmem} {p : Proc} {va : Word} (io : FileIo) {i : Nat}
    (hk : k.Sound) (hnd : k.freelist.Nodup) (hap : k.Apart p)
    (hslot : p.maps.faultSlot va = some i)
    (hanon : hasFlag (p.maps.arr i).flags mapAnonymous = true)
    (habsent : present ((k.dirAt p.pgdir.page).entry (vpn va)) = false)
    (hpages : PagesFor k (k.dirAt p.pgdir.page) va) :
    MapsOnePage k p va io i ↔ va.toNat % 4096 = 0 := by
  set d := k.dirAt p.pgdir.page
  have hpos : 0 < k.freelist.length := Nat.zero_lt_of_lt hpages
  obtain ⟨mem, k₁, ha, -⟩ := kalloc_ok (.fault (p.maps.arr i).rid) hpos
  have htook := kalloc_took ha
  have hmem := mem_of_kalloc ha
  have hlen : (k₁.memset mem 0#8).freelist.length + 1 = k.freelist.length := htook.count
  have hphys := p2v_pteAddr_or (KernelImage.aligned_of_isPage (hk mem hmem))
    (show (pteW ||| pteU).toNat < 4096 by decide)
  -- what both models return
  have hsim := (hap.mirrors hk).pgflt va io hnd
    fun l mem k₁ b k₂ d' hl _ _ _ hno => by
      cases hslot.symm.trans hl
      exact absurd (hanon.symm.trans hno) (by decide)
  unfold Xv6Mmap.pgflt at hsim
  simp only [Kmem.procAt, hslot, ha, loadFile, hanon, if_true] at hsim
  have hnot : mem ∉ k₁.freelist := kalloc_not_mem hnd ha
  rcases mappages_fault (k₁.memset mem 0#8) d va (v2p mem) (pteW ||| pteU) with
    ⟨hshort, -⟩ | ⟨-, hpres, hmap⟩ | ⟨-, -, hq, b, k₂, d', hmap, hdrawn, hself, hone, htwo⟩
  · unfold PagesFor at hpages
    omega
  · -- a page is mapped already, and it can only be the next one
    rw [hmap] at hsim
    obtain ⟨e, -, hy⟩ | ⟨_, _, hx, -⟩ := hsim.cases
    · refine iff_of_false (fun ⟨_, _, _, _, _, h, _⟩ => ?_) fun hal => ?_
      · rw [hy] at h
        cases h
      · rcases hpres with hp | ⟨hne, -⟩
        · exact absurd (habsent.symm.trans hp) (by decide)
        · exact hne hal
    · cases hx
  have hzero : k₂.mem mem = fun _ => 0#8 :=
    (hdrawn.bytes mem hnot).trans (Function.update_self ..)
  rw [hmap] at hsim
  cases b with
  | true =>
    obtain ⟨e, hx, -⟩ | ⟨_, ⟨k', p'⟩, hx, hy, d'', hp, hh, hpage⟩ := hsim.cases
    · cases hx
    cases hx
    obtain rfl : d' = d'' := congrArg Proc.pgdir hp
    have hdir : k'.dirAt p'.pgdir.page = d' := hpage ▸ hh.dir
    constructor
    · -- the next page has been mapped too
      rintro ⟨_, _, _, _, -, h, -, -, -, hframe⟩
      cases hy.symm.trans h
      by_contra hal
      have hnext := hframe (nextVpn va) (nextVpn_ne va)
      rw [hdir, (htwo hal).2, if_pos rfl] at hnext
      have hp := present_or (v2p mem + pgSize) (pteW ||| pteU)
      rw [hnext, hq hal] at hp
      cases hp
    · intro hal
      have hout := (mappages_newTabs hal hnd ha hmap).not_occupies hap.tables hnd ha
      refine ⟨mem, k₁, k', p', ha, hy, ?_, ?_, ?_, fun n hn => ?_⟩
      · rw [hdir, hself]
        exact userPage_mapped mem
      · rw [hdir, hself]
        exact hphys
      · rw [hh.mem mem hout]
        exact hzero
      · rw [hdir]
        exact (hone hal).2 n hn
  | false =>
    -- no table for the next page: the page is freed, and filled with ones
    refine iff_of_false (fun h => ?_) fun hal => absurd (hone hal).1 Bool.false_ne_true
    obtain ⟨mem', _, k', p', ha', h, -, -, hbytes, -⟩ := h
    cases ha.symm.trans ha'
    have him : k₂.image.isPage mem = true := by
      rw [hdrawn.image]
      exact htook.image ▸ hk mem hmem
    simp only [kfree, him, Bool.false_eq_true, if_false, if_true] at hsim
    obtain ⟨e, hx, -⟩ | ⟨_, _, hx, hy, d'', hp, hh, -⟩ := hsim.cases
    · cases hx
    cases hx
    cases hy.symm.trans h
    have hone : k'.mem mem = fun _ => 1#8 :=
      (hh.mem mem fun ho => hh.apart.free mem ho List.mem_cons_self).trans (Function.update_self ..)
    rw [hone] at hbytes
    exact absurd (congrFun hbytes 0) (by decide)

theorem Kmem.initial_dirAt (n : Nat) (pd : Word) : (Kmem.initial n).dirAt pd = PgDir.empty pd := by
  refine congrArg (PgDir.mk pd) (funext fun i => ?_)
  have : (Kmem.initial n).word pd i = 0#32 := ite_self _
  rw [this]
  rfl

/-- A process with an anonymous mapping of two pages at `MIN_ADDR`. -/
def Proc.oneMapping : Proc :=
  { Proc.fresh 1 with maps := (sysWmap 1 Maps.init 0#32 8192#32 mapAnonymous 0#32).2 }

/-- An anonymous mapping of two pages. -/
def mapTwoPages : List Call := [.wmap 0#32 8192#32 mapAnonymous 0#32]

def noFile : FileIo := ⟨some [], false, none⟩

theorem Kmem.initial_apart : (Kmem.initial 3).Apart .oneMapping := by
  refine ⟨?_, by decide, fun _ => show 0#32 ∉ (Kmem.initial 3).freelist by decide⟩
  rw [Kmem.initial_dirAt]
  refine ⟨nofun, nofun, fun v hv => ?_⟩
  obtain rfl | ⟨_, _, h, -⟩ := hv
  · decide
  · cases h

/-- The first address of the mapping and one inside its first page. -/
theorem pgflt_maps_one_page_iff_first :
    MapsOnePage (Kmem.initial 3) .oneMapping 0x60000000#32 noFile 0 ∧
      ¬ MapsOnePage (Kmem.initial 3) .oneMapping 0x60000800#32 noFile 0 := by
  have hall : ∀ va, Proc.oneMapping.maps.faultSlot va = some 0 →
      (MapsOnePage (Kmem.initial 3) .oneMapping va noFile 0 ↔ va.toNat % 4096 = 0) := by
    intro va hslot
    refine pgflt_maps_one_page_iff noFile (Kmem.initial_sound (by decide))
      (Kmem.initial_nodup (by decide)) Kmem.initial_apart hslot rfl ?_ ?_
    · rw [Kmem.initial_dirAt, PgDir.entry_empty, present_zero]
    · rw [Kmem.initial_dirAt]
      exact (by decide : 1 < 3)
  exact ⟨(hall _ (by decide)).mpr (by decide), fun h => absurd ((hall _ (by decide)).mp h) (by decide)⟩

/-- A fault one byte into the first page maps the second page as well, to the page of memory that
follows the one from `kalloc`; here that is not even memory that the kernel manages. -/
theorem pgflt_inside_page_maps_two :
    ∃ s s', run callStep (Kmem.initial 3, Proc.fresh 1) mapTwoPages = .ok s ∧
      callStep s (.fault 0x60000001#32 noFile) = .ok s' ∧
      s.2.maps.faultSlot 0x60000001#32 = some 0 ∧
      present (s.2.pgdir.entry 0x60000) = false ∧ present (s.2.pgdir.entry 0x60001) = false ∧
      s.1.freelist.head? = some 0x8DFFF000#32 ∧
      s'.2.pgdir.entry 0x60000 = 0xDFFF007#32 ∧ s'.2.pgdir.entry 0x60001 = 0xE000007#32 := by
  obtain ⟨s, s', hr, hs, hq⟩ := run_step_of_eval callStep (Kmem.initial 3, Proc.fresh 1) mapTwoPages
    (.fault 0x60000001#32 noFile)
    (fun s s' => decide (s.2.maps.faultSlot 0x60000001#32 = some 0 ∧
      present (s.2.pgdir.entry 0x60000) = false ∧ present (s.2.pgdir.entry 0x60001) = false ∧
      s.1.freelist.head? = some 0x8DFFF000#32 ∧
      s'.2.pgdir.entry 0x60000 = 0xDFFF007#32 ∧ s'.2.pgdir.entry 0x60001 = 0xE000007#32))
    (by decide +kernel)
  exact ⟨s, s', hr, hs, of_decide_eq_true hq⟩

end Xv6Mmap
