import Xv6Mmap.Fit
import Xv6Mmap.Faults

/-!
# The pages of a mapping under `wremap` (`sysfile.c:784-895`)

`sys_wremap` edits the mapping table and never the page table. So the loaded pages of a mapping
stay where they are: they are lost to a mapping that moves, and the pages that a mapping gives up
when it shrinks stay accessible.

* `wremap_keeps_contents`: the contents are kept when no loaded page would have to move or to go.
  For a mapping that keeps its address this is exact (`contents_inPlace_iff`).
* `wremap_leaves_page` and `wremap_loses_page` are the two ways to break it.
-/

namespace Xv6Mmap

open Lib

/-- The number of page `j` of the range that starts at `a`. -/
def pageOf (a : Word) (j : Nat) : Nat := vpn (a + BitVec.ofNat 32 (4096 * j))

/-- The pages of a mapping of `length` bytes. -/
def pageCount (length : Word) : Nat := (pgRoundUp length).toNat / 4096

/-- From the directory `d`, where the mapping has `old` pages at `start`, to `d'`, where it has `new`
pages at `a`: a loaded page is at its index again, with the same physical page, and no page that the
mapping gave up is present. -/
structure ContentsKept (d d' : PgDir) (start a : Word) (old new : Nat) : Prop where
  kept : ∀ j < old, j < new → present (d.entry (pageOf start j)) = true →
    present (d'.entry (pageOf a j)) = true ∧
      pteAddr (d'.entry (pageOf a j)) = pteAddr (d.entry (pageOf start j))
  dropped : ∀ j < old, (∀ i < new, pageOf a i ≠ pageOf start j) →
    present (d'.entry (pageOf start j)) = false

theorem pageCount_lt (length : Word) : pageCount length < 1048576 := by
  have := (pgRoundUp length).isLt
  unfold pageCount
  omega

theorem pageOf_inj {a : Word} (ha : a.toNat % 4096 = 0) {i j : Nat} (hi : i < 1048576)
    (hj : j < 1048576) (h : pageOf a i = pageOf a j) : i = j := by
  unfold pageOf vpn at h
  rw [BitVec.toNat_add, BitVec.toNat_add, BitVec.toNat_ofNat, BitVec.toNat_ofNat] at h
  have := a.isLt
  omega

/-- Where the page table stays and the address does, the contents are kept exactly if no page past
the new end is present. -/
theorem contents_inPlace_iff {d : PgDir} {a : Word} (ha : a.toNat % 4096 = 0) {old new : Nat}
    (hold : old < 1048576) :
    ContentsKept d d a a old new ↔
      ∀ j < old, new ≤ j → present (d.entry (pageOf a j)) = false := by
  constructor
  · intro h j hj hge
    refine h.dropped j hj fun i hi heq => ?_
    have := pageOf_inj ha (by omega) (by omega) heq
    omega
  · intro h
    refine ⟨fun j _ _ hp => ⟨hp, rfl⟩, fun j hj hout => ?_⟩
    rcases Nat.lt_or_ge j new with hlt | hge
    · exact absurd rfl (hout j hlt)
    · exact h j hj hge

theorem insertMapping_fst (m : Maps) (rid : Rid) (start end_ flags length : Word)
    (numMappings : Int) (fd : Word) :
    (insertMapping m rid start end_ flags length numMappings fd).1 = start ∨
      (insertMapping m rid start end_ flags length numMappings fd).1 = failed := by
  unfold insertMapping
  split
  · exact .inr rfl
  · split
    · exact .inl rfl
    · exact .inl rfl

theorem Maps.reinsert_fst (m : Maps) (oldaddr start end_ newsize : Word) (old : MemBlock) :
    (m.reinsert oldaddr start end_ newsize old).1 = start ∨
      (m.reinsert oldaddr start end_ newsize old).1 = failed := by
  unfold Maps.reinsert
  dsimp only
  split
  · exact insertMapping_fst ..
  · exact .inr rfl

theorem call_wremap_eq {k : Kmem} {p : Proc} {oldaddr oldsize newsize flag r : Word} {oob : MemBlock}
    (h : (sysWremap p.maps oob oldaddr oldsize newsize flag).1 = r) :
    call k p (.wremap oldaddr oldsize newsize flag oob)
      = .ok (r, k, { p with maps := (sysWremap p.maps oob oldaddr oldsize newsize flag).2 }) := by
  rw [← h]
  rfl

/-- **`wremap` keeps the contents of a mapping**, if no page past the new end is loaded when it keeps
its address, and none at all when it moves. -/
theorem wremap_keeps_contents (k k' : Kmem) (p p' : Proc) (oldaddr oldsize newsize flag r : Word)
    (oob : MemBlock) (l : Nat) (hl : p.maps.findLive oldaddr = some l)
    (hc : call k p (.wremap oldaddr oldsize newsize flag oob) = .ok (r, k', p')) (hr : r ≠ failed)
    (hstay : p.maps.remapsInPlace oob l (oldaddr + pgRoundUp newsize) →
      ∀ j < pageCount (p.maps.arr l).length, pageCount newsize ≤ j →
        present (p.pgdir.entry (pageOf oldaddr j)) = false)
    (hmove : p.maps.remapsElsewhere oob l (oldaddr + pgRoundUp newsize) flag →
      ∀ j < pageCount (p.maps.arr l).length, present (p.pgdir.entry (pageOf oldaddr j)) = false) :
    ContentsKept p.pgdir p'.pgdir oldaddr r (pageCount (p.maps.arr l).length)
      (pageCount newsize) := by
  obtain ⟨hres, -, rfl⟩ := call_wremap hc
  change ContentsKept p.pgdir p.pgdir oldaddr r _ _
  obtain hfail | ⟨l', hal, hl', ⟨hin, heq⟩ | ⟨hout, -⟩⟩ :=
    sysWremap_cases p.maps oob oldaddr oldsize newsize flag
  · rw [hfail] at hres
    exact absurd hres hr
  · obtain rfl : l = l' := Option.some.inj (hl.symm.trans hl')
    have hreq : r = oldaddr := by
      rw [heq] at hres
      rcases Maps.reinsert_fst p.maps oldaddr oldaddr _ newsize (p.maps.arr l) with h | h
      · exact hres.trans h
      · exact absurd (hres.trans h) hr
    rw [hreq, contents_inPlace_iff hal (pageCount_lt _)]
    exact hstay hin
  · obtain rfl : l = l' := Option.some.inj (hl.symm.trans hl')
    refine ⟨fun j hj _ hp => ?_, fun j hj _ => hmove hout j hj⟩
    rw [hmove hout j hj] at hp
    exact absurd hp (by decide)

/-- Two anonymous pages, the first of them loaded. -/
def loadFirst : List Call :=
  [.wmap 0#32 8192#32 mapAnonymous 0#32, .fault 0x60000000#32 noFile]

theorem wremap_keeps_contents_shrink :
    ∃ k p k' p', run callStep (Kmem.initial 3, Proc.fresh 1) loadFirst = .ok (k, p) ∧
      call k p (.wremap 0x60000000#32 8192#32 4096#32 0#32 MemBlock.empty)
        = .ok (0x60000000#32, k', p') ∧
      present (p'.pgdir.entry (pageOf 0x60000000#32 0)) = true ∧
      ContentsKept p.pgdir p'.pgdir 0x60000000#32 0x60000000#32 2 1 := by
  obtain ⟨⟨k, p⟩, hr, hq⟩ := run_ok_of_eval callStep (Kmem.initial 3, Proc.fresh 1) loadFirst
    (fun s => decide (s.2.maps.findLive 0x60000000#32 = some 0 ∧
      (s.2.maps.arr 0).length = 8192#32 ∧
      present (s.2.pgdir.entry (pageOf 0x60000000#32 0)) = true ∧
      present (s.2.pgdir.entry (pageOf 0x60000000#32 1)) = false ∧
      (s.2.maps.arr 1).valid = 0#32 ∧
      (sysWremap s.2.maps MemBlock.empty 0x60000000#32 8192#32 4096#32 0#32).1 = 0x60000000#32))
    (by decide +kernel)
  obtain ⟨hl, hlen, hp0, hp1, hnext, hres⟩ := of_decide_eq_true hq
  have hc := call_wremap_eq (k := k) hres
  have hcount : pageCount (p.maps.arr 0).length = 2 := by
    rw [hlen]
    decide
  refine ⟨k, p, k, _, hr, hc, hp0, ?_⟩
  have hkept := wremap_keeps_contents k k p _ 0x60000000#32 8192#32 4096#32 0#32 0x60000000#32
    MemBlock.empty 0 hl hc (by decide)
    (fun _ j hj hge => by
      have hj' : j < 2 := hcount ▸ hj
      have hge' : 1 ≤ j := hge
      obtain rfl : j = 1 := by omega
      exact hp1)
    (fun hout => absurd hnext hout.2.1)
  rw [hcount] at hkept
  exact hkept

/-- Two anonymous pages, both loaded. -/
def loadBoth : List Call := loadFirst ++ [.fault 0x60001000#32 noFile]

/-- Shrinking a mapping to its first page leaves the second one in the page table. -/
theorem wremap_leaves_page :
    ∃ s s', run callStep (Kmem.initial 4, Proc.fresh 1) loadBoth = .ok s ∧
      call s.1 s.2 (.wremap 0x60000000#32 8192#32 4096#32 0#32 MemBlock.empty)
        = .ok (0x60000000#32, s') ∧
      s.2.maps.findLive 0x60000000#32 = some 0 ∧ (s.2.maps.arr 0).length = 8192#32 ∧
      present (s'.2.pgdir.entry 0x60001) = true ∧
      ¬ ContentsKept s.2.pgdir s'.2.pgdir 0x60000000#32 0x60000000#32 2 1 := by
  obtain ⟨s, hr, hq⟩ := run_ok_of_eval callStep (Kmem.initial 4, Proc.fresh 1) loadBoth
    (fun s => decide (s.2.maps.findLive 0x60000000#32 = some 0 ∧
      (s.2.maps.arr 0).length = 8192#32 ∧ present (s.2.pgdir.entry 0x60001) = true ∧
      (sysWremap s.2.maps MemBlock.empty 0x60000000#32 8192#32 4096#32 0#32).1 = 0x60000000#32))
    (by decide +kernel)
  obtain ⟨hl, hlen, hp1, hres⟩ := of_decide_eq_true hq
  refine ⟨s, _, hr, call_wremap_eq hres, hl, hlen, hp1, fun hkept => ?_⟩
  have := hkept.dropped 1 (by decide) (by decide)
  exact absurd (hp1.symm.trans this) (by decide)

/-- A mapping that moves loses every loaded page whose new place is not loaded: `wremap` leaves the
page table as it is. -/
theorem wremap_loses_page {k k' : Kmem} {p p' : Proc} {oldaddr oldsize newsize flag r : Word}
    {oob : MemBlock} {old new j : Nat}
    (hc : call k p (.wremap oldaddr oldsize newsize flag oob) = .ok (r, k', p')) (hold : j < old)
    (hnew : j < new) (hp : present (p.pgdir.entry (pageOf oldaddr j)) = true)
    (habsent : present (p.pgdir.entry (pageOf r j)) = false) :
    ¬ ContentsKept p.pgdir p'.pgdir oldaddr r old new := by
  obtain ⟨-, -, rfl⟩ := call_wremap hc
  intro hkept
  have hmoved := (hkept.kept j hold hnew hp).1
  exact absurd (hmoved.symm.trans habsent) (by decide)

end Xv6Mmap
