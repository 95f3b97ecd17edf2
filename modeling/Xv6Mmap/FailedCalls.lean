import Xv6Mmap.FsRuns
import Xv6Mmap.MappedFiles

/-!
# Failed calls change nothing (`sysfile.c:603-895`)

`sys_wunmap` writes the file and frees pages before it removes the entry, and `sys_wremap` removes the
entry before it inserts the new one. On a table in order a call that has got that far does not fail
any more: the entry is found, it has one reference, and there is a slot for it. A new address is never
the value of `FAILED`, because the search starts from ends of mappings in the window.
-/

namespace Xv6Mmap

open Lib

/-! ## Addresses are not `FAILED` -/

/-- What the search returns follows a mapping, or is where it started. -/
theorem searchFrom_ne_failed {arr : Nat → MemBlock} {size : Word} :
    ∀ {n i : Nat} {prevEnd leftmost : Word},
      (∀ j, i ≤ j → j < i + n → (arr j).valid ≠ 0#32 → (arr j).end_ + 1#32 ≠ failed) →
      prevEnd + 1#32 ≠ failed → leftmost ≠ failed →
      searchFrom arr size n i prevEnd leftmost ≠ failed
  | 0, _, _, _, _, _, hleft => hleft
  | n + 1, i, prevEnd, leftmost, harr, hprev, hleft => by
    unfold searchFrom
    split
    · exact hprev
    · rename_i hvalid
      refine searchFrom_ne_failed (fun j hj hlt => harr j (by omega) (by omega))
        (harr i le_rfl (by omega) hvalid) ?_
      split
      · exact hprev
      · exact hleft

theorem leftmostAddr_ne_failed {arr : Nat → MemBlock} {size : Word}
    (h : ∀ j < maxWmmapInfo, (arr j).valid ≠ 0#32 → (arr j).end_ + 1#32 ≠ failed) :
    leftmostAddr arr size ≠ failed :=
  searchFrom_ne_failed (fun j _ hj => h j (by omega)) (by decide) (by decide)

theorem ne_failed_of_aligned {a : Word} (h : a.toNat % 4096 = 0) : a ≠ failed := by
  rintro rfl
  exact absurd h (by decide)

/-! ## Tables in order -/

/-- The valid entries are the first ones, sorted, in the window, each with one reference. -/
structure Maps.InOrder (m : Maps) : Prop where
  shape : m.Shape
  sorted : ∀ i j, i ≤ j → j < m.count → (m.arr i).start ≤ (m.arr j).start
  ref : ∀ i < m.count, (m.arr i).ref = 1#32
  window : m.InWindow

theorem Maps.Tidy.inOrder {m : Maps} (h : m.Tidy) (href : ∀ i < m.count, (m.arr i).ref = 1#32) :
    m.InOrder := by
  refine ⟨h.shape, fun i j hij hj => ?_, href, h.window⟩
  rcases Nat.eq_or_lt_of_le hij with rfl | hlt
  · exact BitVec.le_refl _
  · exact BitVec.le_of_lt (h.start_lt_start hlt hj)

namespace Maps.InOrder

variable {m : Maps}

theorem lt_count (h : m.InOrder) {i : Nat} (hi : i < maxWmmapInfo) (hv : (m.arr i).valid ≠ 0#32) :
    i < m.count := by
  have := (h.shape.2.2 i hi).mp hv
  unfold Maps.count
  omega

theorem end_ne (h : m.InOrder) {i : Nat} (hi : i < maxWmmapInfo) (hv : (m.arr i).valid ≠ 0#32) :
    (m.arr i).end_ + 1#32 ≠ failed := by
  have hwin := MemBlock.inWindow_iff.mp (h.window i (h.lt_count hi hv))
  have hf : failed = 0xFFFFFFFF#32 := rfl
  rw [hf]
  bv_omega

theorem removeMapping_eq (h : m.InOrder) {addr : Word} {k : Nat} (hf : m.find addr = some k) :
    removeMapping m addr = (true, m.removed addr k) := by
  obtain ⟨hk, hv, -⟩ := Maps.find_spec hf
  exact Xv6Mmap.removeMapping_eq hf (h.ref k (h.lt_count hk hv)) hk

/-- There is an address behind every entry that is left. -/
theorem removed_end_ne (h : m.InOrder) {addr : Word} {k : Nat} (hk : k < maxWmmapInfo) {j : Nat}
    (hj : j < maxWmmapInfo) (hv : ((m.removed addr k).arr j).valid ≠ 0#32) :
    ((m.removed addr k).arr j).end_ + 1#32 ≠ failed := by
  unfold maxWmmapInfo at hk hj
  by_cases hlast : j < 15
  · rw [Maps.removed_arr hlast] at hv ⊢
    exact h.end_ne (by unfold maxWmmapInfo; split <;> omega) hv
  · have hj15 : j = 15 := by omega
    by_cases hne : j = k
    · subst hj15
      subst hne
      exact absurd Maps.removed_valid_self hv
    · rw [Maps.removed_arr_of_ne (by omega) hne] at hv ⊢
      exact h.end_ne hj hv

/-- The entry that `sys_wremap` found is also the first that `remove_mapping` can find. -/
theorem exists_find (h : m.InOrder) {addr : Word} {l : Nat} (hl : l < m.total.toNat)
    (hs : (m.arr l).start = addr) : ∃ k, m.find addr = some k := by
  have hlt : l < maxWmmapInfo := by
    have := h.shape.2.1
    omega
  obtain ⟨k, -, hk⟩ := Maps.find_of_valid hlt ((h.shape.2.2 l hlt).mpr (by omega)) hs
  exact ⟨k, hk⟩

/-- An entry that is found can be put back at any address but `FAILED`. -/
theorem reinsert_ne_failed (h : m.InOrder) {oldaddr start end_ newsize : Word} {old : MemBlock}
    {l : Nat} (hl : m.findLive oldaddr = some l) (hstart : start ≠ failed) :
    (m.reinsert oldaddr start end_ newsize old).1 ≠ failed := by
  obtain ⟨hlt, -, hs, -⟩ := Maps.findLive_spec hl
  obtain ⟨k, hk⟩ := h.exists_find hlt hs
  have hroom : (m.removed oldaddr k).total ≠ maxWmmapInfo := by
    have htotal : (m.removed oldaddr k).total = m.total - 1 := rfl
    have := h.shape.2.1
    omega
  unfold Maps.reinsert
  rw [h.removeMapping_eq hk]
  dsimp only
  rw [if_pos rfl, insertMapping_eq hroom]
  exact hstart

theorem sysWmap_failed (h : m.InOrder) {pid : Nat} {addr length flags fd : Word}
    (hf : (sysWmap pid m addr length flags fd).1 = failed) :
    (sysWmap pid m addr length flags fd).2 = m := by
  obtain heq | ⟨-, hroom, hfixed, heq⟩ := sysWmap_cases pid m addr length flags fd
  · rw [heq]
  rw [heq, insertMapping_eq hroom] at hf
  -- the address is aligned, or follows a mapping
  exfalso
  revert hf
  change m.wmapStart addr length flags ≠ failed
  unfold Maps.wmapStart
  split
  · rename_i hflag
    exact ne_failed_of_aligned (hfixed hflag).1
  · exact leftmostAddr_ne_failed fun j hj hv => h.end_ne hj hv

/-- `sys_wremap` that fails leaves the table as it is, whatever is behind the array. -/
theorem sysWremap_failed (h : m.InOrder) {oob : MemBlock} {oldaddr oldsize newsize flag : Word}
    (hf : (sysWremap m oob oldaddr oldsize newsize flag).1 = failed) :
    (sysWremap m oob oldaddr oldsize newsize flag).2 = m := by
  obtain heq | ⟨l, hal, hl, ⟨-, heq⟩ | ⟨-, heq⟩⟩ := sysWremap_cases m oob oldaddr oldsize newsize flag
  · rw [heq]
  · rw [heq] at hf
    exact absurd hf (h.reinsert_ne_failed hl (ne_failed_of_aligned hal))
  · rw [heq] at hf
    refine absurd hf (h.reinsert_ne_failed hl (leftmostAddr_ne_failed fun j hj hv => ?_))
    obtain ⟨hlt, -, hs, -⟩ := Maps.findLive_spec hl
    obtain ⟨k, hk⟩ := h.exists_find hlt hs
    rw [h.removeMapping_eq hk] at hv ⊢
    exact h.removed_end_ne (Maps.find_spec hk).1 hj hv

end Maps.InOrder

/-! ## The write-back leaves the table alone -/

theorem Maps.faultSlot_spec {m : Maps} {va : Word} {l : Nat} (h : m.faultSlot va = some l) :
    l < maxWmmapInfo ∧ (m.arr l).valid ≠ 0#32 := by
  unfold Maps.faultSlot at h
  have hval := List.find?_some h
  simp only [Bool.and_eq_true, bne_iff_ne] at hval
  exact ⟨List.mem_range.mp (List.mem_of_find?_eq_some h), hval.1.1⟩

namespace Machine

variable {α : Type} {m m' : Machine}

/-- The table is the same but for the pages loaded; the descriptors are the same, and so are the
files but for their offsets. -/
structure Frame (m m' : Machine) : Prop where
  table : m.proc.maps.SameTable m'.proc.maps
  ofile : m'.proc.ofile = m.proc.ofile
  refs : ∀ {X Y L}, Fs.Refs X Y L m.fs → Fs.Refs X Y L m'.fs ∧ Fs.SameFiles m.fs m'.fs

theorem Frame.refl (m : Machine) : Frame m m := ⟨.refl _, rfl, fun h => ⟨h, .of_eq rfl rfl⟩⟩

theorem Frame.trans {m'' : Machine} (h : Frame m m') (h' : Frame m' m'') : Frame m m'' where
  table := h.table.trans h'.table
  ofile := h'.ofile.trans h.ofile
  refs hr := by
    obtain ⟨hr1, hs1⟩ := h.refs hr
    obtain ⟨hr2, hs2⟩ := h'.refs hr1
    exact ⟨hr2, hs1.trans hs2⟩

/-- For the file mappings of process `p`, `look` finds what their descriptors are. -/
def Finds (look : Look) (p : Proc) : Prop :=
  ∀ q : Proc, q.ofile = p.ofile → p.maps.ForUsed fun b =>
    hasFlag b.flags mapAnonymous = false → look q b = byFd q b

theorem finds_byFd (p : Proc) : Finds byFd p := fun _ _ _ _ _ _ => rfl

variable {look : Look}

theorem Finds.frame (h : Finds look m.proc) (hf : Frame m m') : Finds look m'.proc :=
  fun q hq => (h q (hq.trans hf.ofile)).sameTable hf.table

theorem onFs_same (c : Fs.FsM α) :
    Same (onFs c) (onFs c) m fun a m' => ∃ s, c m.fs = .ok (a, s) ∧ m' = { m with fs := s } :=
  Wp.same (wp_onFs.mpr (wp_of_ok fun _ s hs => ⟨s, hs, rfl⟩))

theorem loadFile_same {b : MemBlock} (va : Word) (io : MachineIo)
    (h : hasFlag b.flags mapAnonymous = false → look m.proc b = byFd m.proc b) :
    Same (loadFile look b va io) (loadFile byFd b va io) m
      fun _ m' => m'.proc = m.proc ∧ Frame m m' := by
  unfold loadFile
  by_cases hanon : hasFlag b.flags mapAnonymous = true
  · rw [if_pos hanon, if_pos hanon]
    exact ⟨rfl, rfl, .refl m⟩
  rw [if_neg hanon, if_neg hanon]
  refine same_get.bind ?_
  rintro _ _ ⟨rfl, rfl⟩
  rw [h (Bool.eq_false_iff.mpr hanon)]
  refine Wp.same ?_
  unfold fileread
  simp only [wp_bind, wp_get, wp_liftM, wp_onFs, wp_set]
  refine ends_of_ok fun f _ => wp_of_ok fun r s hr => ends_of_ok fun k _ => ?_
  refine ⟨trivial, .refl _, rfl, ?_⟩
  intro X Y L href
  exact ((Fs.fileread_refs href Fs.initproc 4096 io.toDevIo).ok hr).imp_right And.right

theorem pgflt_same (va : Word) (io : MachineIo) (h : Finds look m.proc) :
    Same (pgfltVia look va io) (pgfltVia byFd va io) m fun _ m' => Frame m m' := by
  unfold pgfltVia
  refine same_get.bind ?_
  rintro _ _ ⟨rfl, rfl⟩
  cases hslot : m.proc.maps.faultSlot va with
  | none => exact ⟨rfl, .refl m⟩
  | some location =>
    dsimp only
    cases kalloc m.kmem (.fault (m.proc.maps.arr location).rid) with
    | none => exact ⟨rfl, trivial⟩
    | some r =>
      dsimp only
      refine (same_liftM _).bind ?_
      rintro t _ rfl
      refine (same_liftM _).bind ?_
      rintro k _ rfl
      obtain ⟨hlt, hv⟩ := Maps.faultSlot_spec hslot
      refine Same.bind (Q := fun _ m' => ∃ d, m' = { m with
        kmem := k, proc := { m.proc with pgdir := d } }) ⟨rfl, t.2.2, rfl⟩ ?_
      rintro _ _ ⟨d, rfl⟩
      refine (loadFile_same (m := { m with kmem := k, proc := { m.proc with pgdir := d } }) va io
        (h { m.proc with pgdir := d } rfl location hlt hv)).bind ?_
      rintro _ m1 ⟨hproc, hf⟩
      refine ⟨rfl, ?_, hf.ofile, hf.refs⟩
      change m.proc.maps.SameTable (m1.proc.maps.load location va)
      rw [hproc]
      exact m.proc.maps.sameTable_load location va

theorem touchPage_same (io : MachineIo) (va : Word) (h : Finds look m.proc) :
    Same (touchPage look io va) (touchPage byFd io va) m fun _ m' => Frame m m' := by
  unfold touchPage
  refine same_get.bind ?_
  rintro _ _ ⟨rfl, rfl⟩
  split
  · exact ⟨rfl, .refl m⟩
  cases m.proc.maps.faultSlot va with
  | none => exact ⟨rfl, trivial⟩
  | some l =>
    refine (pgflt_same va io h).bind fun _ m1 hf => Wp.same ?_
    simp only [wp_bind, wp_get]
    split
    · exact hf
    · trivial

theorem touchAll_same (io : MachineIo) :
    ∀ {vas : List Word} {m : Machine}, Finds look m.proc →
      Same (touchAll look io vas) (touchAll byFd io vas) m fun _ m' => Frame m m'
  | [], m, _ => ⟨rfl, .refl m⟩
  | va :: vas, m, h => by
    unfold touchAll
    refine (touchPage_same io va h).bind fun _ m1 h1 => ?_
    exact (touchAll_same io (h.frame h1)).imp fun _ m2 h2 => h1.trans h2

/-- The pages are loaded before the inode is written, with its lock held. -/
theorem writei_same (ip : Fin ninode) (va : Word) (off n : Nat) (io : MachineIo)
    (h : Finds look m.proc) :
    Same (writei look ip va off n io) (writei byFd ip va off n io) m fun r m' => ∃ m1 src s,
      Frame m m1 ∧ Fs.writei ip off src m1.fs = .ok (r, s) ∧ m' = { m1 with fs := s } := by
  have htouch : ∀ b : Bool, Same (touchIf look b io (touched va n)) (touchIf byFd b io (touched va n))
      m fun _ m' => Frame m m' := fun b => by
    unfold touchIf
    split
    · exact touchAll_same io h
    · exact ⟨rfl, .refl m⟩
  unfold writei
  refine same_get.bind ?_
  rintro _ _ ⟨rfl, rfl⟩
  refine (htouch _).bind fun _ m1 h1 => same_get.bind ?_
  rintro _ _ ⟨rfl, rfl⟩
  exact (onFs_same _).imp fun r m' ⟨s, hs, hm'⟩ => ⟨m1, _, s, h1, hs, hm'⟩

theorem filewriteLoop_same (f : Fin nfile) (io : MachineIo) :
    ∀ {fuel : Nat} {va : Word} {n : Nat} {m : Machine}, Finds look m.proc →
      Same (filewriteLoop look f io fuel va n) (filewriteLoop byFd f io fuel va n) m
        fun _ m' => Frame m m'
  | 0, _, _, _, _ => ⟨rfl, trivial⟩
  | fuel + 1, va, n, m, h => by
    unfold filewriteLoop
    split
    · exact ⟨rfl, .refl m⟩
    refine (onFs_same _).bind ?_
    rintro x _ ⟨_, hx, rfl⟩
    cases hx
    refine (onFs_same _).bind ?_
    rintro _ _ ⟨s1, hlock, rfl⟩
    refine (writei_same (m := { m with fs := s1 }) _ va _ _ io h).bind ?_
    rintro r _ ⟨m2, src, s3, hf2, hwrite, rfl⟩
    refine (onFs_same _).bind ?_
    rintro _ _ ⟨s4, hoff, rfl⟩
    refine (onFs_same _).bind ?_
    rintro _ _ ⟨s5, hunlock, rfl⟩
    have hf : Frame m { m2 with fs := s5 } := by
      refine ⟨hf2.table, hf2.ofile, fun {X Y L} hr => ?_⟩
      obtain ⟨hL, hheld, hk⟩ := (Fs.ilock_held hr.held 0).ok hlock
      obtain ⟨hr2, hs2⟩ := hf2.refs (hr.of_keeps hk hheld)
      obtain ⟨hheld3, hk3, -⟩ := (Fs.writei_held hr2.held List.mem_cons_self 0 _ _).ok hwrite
      have hs3 : Fs.SameFiles m.fs s3 :=
        (Fs.SameFiles.of_eq hk.proc hk.file).trans (hs2.trans (.of_eq hk3.proc hk3.file))
      obtain ⟨hr4, -, hs4⟩ := (Fs.moveOff_refs (hr2.of_keeps hk3 hheld3) Fs.initproc _
        (by rw [hs3.file f])).ok hoff
      obtain ⟨hheld5, hk5⟩ := (Fs.iunlock_held hr4.held 0 L
        (fun b hb => List.mem_cons_of_mem _ hb) hL).ok hunlock
      exact ⟨hr4.of_keeps hk5 hheld5, hs3.trans (hs4.trans (.of_eq hk5.proc hk5.file))⟩
    split
    · exact ⟨rfl, hf⟩
    split
    · exact ⟨rfl, trivial⟩
    · exact (filewriteLoop_same f io (h.frame hf)).imp fun _ m5 h5 => hf.trans h5

theorem writeBack_same {b : MemBlock} (io : MachineIo) (h : Finds look m.proc)
    (hb : hasFlag b.flags mapAnonymous = false → look m.proc b = byFd m.proc b) :
    Same (writeBack look b io) (writeBack byFd b io) m fun _ m' => Frame m m' := by
  unfold writeBack
  split
  · exact ⟨rfl, .refl m⟩
  rename_i hflags
  simp only [Bool.or_eq_true, not_or, Bool.not_eq_true] at hflags
  refine same_get.bind ?_
  rintro _ _ ⟨rfl, rfl⟩
  rw [hb hflags.1]
  refine (same_liftM _).bind ?_
  rintro f _ rfl
  refine (onFs_same _).bind ?_
  rintro x _ ⟨_, hx, rfl⟩
  cases hx
  refine (onFs_same _).bind ?_
  rintro _ _ ⟨s1, hs1, rfl⟩
  cases hs1
  have h0 : Frame m { m with fs := m.fs.withFile f { m.fs.file f with off := 0 } } :=
    ⟨.refl _, rfl, fun hr => ⟨hr.setOff f 0, .setOff m.fs f 0⟩⟩
  refine Same.bind (Q := fun _ m' => Frame m m') ?_ fun _ _ hf => ⟨rfl, hf⟩
  unfold filewrite
  refine (onFs_same _).bind ?_
  rintro y _ ⟨_, hy, rfl⟩
  cases hy
  split
  · exact ⟨rfl, h0⟩
  split
  · exact (touchAll_same io (h.frame h0)).bind fun _ m3 h3 => ⟨rfl, h0.trans h3⟩
  · refine (filewriteLoop_same f io (h.frame h0)).bind fun r m3 h3 => Wp.same ?_
    split
    · exact h0.trans h3
    · exact h0.trans h3
  · exact ⟨rfl, trivial⟩

/-! ## The calls -/

/-- A call on the mappings of a process. -/
inductive MapCall where
  | wmap (addr length flags fd : Word)
  | wunmap (addr : Word) (io : MachineIo)
  | wremap (oldaddr oldsize newsize flag : Word) (oob : MemBlock)

def mapCall : MapCall → MM Word
  | .wmap addr length flags fd => sysWmap addr length flags fd
  | .wunmap addr io => sysWunmap addr io
  | .wremap oldaddr oldsize newsize flag oob => sysWremap oldaddr oldsize newsize flag oob

theorem sysWunmap_failed (h : m.proc.maps.InOrder) (addr : Word) (io : MachineIo) :
    Wp (sysWunmap addr io) m (fun r m' => r = failed → m' = m) := by
  unfold sysWunmap sysWunmapVia
  split
  · exact fun _ => rfl
  simp only [wp_bind, wp_get]
  cases hf : m.proc.maps.findStart addr with
  | none => exact fun _ => rfl
  | some location =>
    simp only [wp_bind, wp_get, wp_liftM, wp_set, wp_pure]
    refine (writeBack_same io (finds_byFd _) fun _ => rfl).2.imp fun _ m1 hframe => ?_
    refine ends_of_ok fun r _ hfail => ?_
    obtain ⟨hlt, hs, -⟩ := Maps.findStart_spec hf
    obtain ⟨k, hk⟩ := h.exists_find hlt hs
    have hk1 : ({ m1.proc.maps with calls := m1.proc.maps.calls ++ [.remove addr] } : Maps).find addr
        = some k := by
      unfold Maps.find
      dsimp only
      rw [hframe.table.arr]
      exact hk
    have hremoved : (removeMapping m1.proc.maps addr).1 = true := by
      unfold removeMapping
      simp only [hk1]
      split <;> rfl
    rw [hs, hremoved] at hfail
    exact absurd hfail (by decide)

/-- **Failed calls change nothing**: not the table, not the page table, not the free list, and not
the files. -/
theorem failed_call_changes_nothing (m m' : Machine) (c : MapCall) (h : m.proc.maps.InOrder)
    (hc : mapCall c m = .ok (failed, m')) : m' = m := by
  cases c with
  | wmap addr length flags fd =>
    have hcall : mapCall (.wmap addr length flags fd) m = .ok
        ((Xv6Mmap.sysWmap m.proc.pid m.proc.maps addr length flags fd).1, { m with proc :=
          { m.proc with
            maps := (Xv6Mmap.sysWmap m.proc.pid m.proc.maps addr length flags fd).2 } }) := rfl
    rw [hcall] at hc
    obtain ⟨hr, rfl⟩ := Prod.mk.inj (Except.ok.inj hc)
    rw [h.sysWmap_failed hr]
  | wunmap addr io => exact (sysWunmap_failed h addr io).ok hc rfl
  | wremap oldaddr oldsize newsize flag oob =>
    have hcall : mapCall (.wremap oldaddr oldsize newsize flag oob) m = .ok
        ((Xv6Mmap.sysWremap m.proc.maps oob oldaddr oldsize newsize flag).1, { m with proc :=
          { m.proc with
            maps := (Xv6Mmap.sysWremap m.proc.maps oob oldaddr oldsize newsize flag).2 } }) := rfl
    rw [hcall] at hc
    obtain ⟨hr, rfl⟩ := Prod.mk.inj (Except.ok.inj hc)
    rw [h.sysWremap_failed hr]

/-- A process with one mapping at the bottom of the window. -/
def onePage : Machine :=
  ⟨Kmem.exhausted, { Proc.fresh 1 with maps := Maps.single bottomPage }, Fs.State.oneFile⟩

theorem failed_call_changes_nothing_too_big :
    ∃ m', mapCall (.wremap 0x60000000#32 4096#32 0x20001000#32 0#32 MemBlock.empty) onePage
        = .ok (failed, m') ∧ m' = onePage := by
  have horder : onePage.proc.maps.InOrder :=
    (Maps.tidy_of_eval (by decide +kernel)).inOrder (by decide +kernel)
  have hr : (Xv6Mmap.sysWremap (Maps.single bottomPage) MemBlock.empty 0x60000000#32 4096#32
      0x20001000#32 0#32).1 = failed := by decide +kernel
  have hc : mapCall (.wremap 0x60000000#32 4096#32 0x20001000#32 0#32 MemBlock.empty) onePage
      = .ok (failed, { onePage with proc := { onePage.proc with
          maps := (Xv6Mmap.sysWremap (Maps.single bottomPage) MemBlock.empty 0x60000000#32 4096#32
            0x20001000#32 0#32).2 } }) := by
    rw [← hr]
    rfl
  exact ⟨_, hc, failed_call_changes_nothing onePage _ _ horder hc⟩

end Machine

end Xv6Mmap
