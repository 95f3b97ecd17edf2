import Xv6Mmap.Proc

/-!
# What a call can do

Inversion lemmas for the calls of one process: from a call that returned, which branch it took and
what the state is afterwards. Later modules cite these and do not unfold the calls.

* `pgflt_cases`, `sysWunmap_cases`, `sysWmap_cases`, `sysWremap_cases`: one lemma a call.
* `writeBack_invariant`: the write-back inside `sys_wunmap` is a sequence of page faults at
  page-aligned addresses, so what every such fault keeps, the write-back keeps.
* `Maps.SameTable`: a fault and a write-back touch the counters of the table and nothing else of it.
-/

namespace Xv6Mmap

/-! ## Page faults -/

variable {k k' : Kmem} {p p' : Proc} {va : Word} {io : FileIo}

/-- A fault that returned was either outside every mapping, or got a page, mapped it (or gave it
back), read the file if there is one, and counted the page. -/
theorem pgflt_cases (h : pgflt k p va io = .ok (k', p')) :
    (p.maps.faultSlot va = none ∧ k' = k ∧ p' = p) ∨
      ∃ location mem k1 mapped k2 d k3,
        p.maps.faultSlot va = some location ∧
        kalloc k (.fault (p.maps.arr location).rid) = some (mem, k1) ∧
        mappages (k1.memset mem 0#8) p.pgdir va pgSize (v2p mem) (pteW ||| pteU)
          = .ok (mapped, k2, d) ∧
        (if mapped then .ok k2 else kfree k2 mem) = Except.ok (ε := Halt) k3 ∧
        loadFile k3 d p (p.maps.arr location) va io = .ok k' ∧
        p' = { p with pgdir := d, maps := p.maps.load location va } := by
  unfold pgflt at h
  cases hslot : p.maps.faultSlot va with
  | none =>
    rw [hslot] at h
    cases h
    exact .inl ⟨rfl, rfl, rfl⟩
  | some location =>
    rw [hslot] at h
    cases halloc : kalloc k (.fault (p.maps.arr location).rid) with
    | none => simp [halloc] at h
    | some r =>
      obtain ⟨mem, k1⟩ := r
      simp only [halloc] at h
      cases hmap : mappages (k1.memset mem 0#8) p.pgdir va pgSize (v2p mem) (pteW ||| pteU) with
      | error e => simp [hmap] at h
      | ok r =>
        obtain ⟨mapped, k2, d⟩ := r
        simp only [hmap] at h
        cases hfree : (if mapped then .ok k2 else kfree k2 mem : Except Halt Kmem) with
        | error e => simp [hfree] at h
        | ok k3 =>
          simp only [hfree] at h
          cases hload : loadFile k3 d p (p.maps.arr location) va io with
          | error e => simp [hload] at h
          | ok k4 =>
            simp only [hload] at h
            cases h
            exact .inr ⟨location, mem, k1, mapped, k2, d, k3, rfl, halloc, hmap, hfree, hload, rfl⟩

/-! ## The write-back -/

theorem touched_aligned (h : va.toNat % 4096 = 0) {n : Nat} {a : Word} (ha : a ∈ touched va n) :
    a.toNat % 4096 = 0 := by
  unfold touched at ha
  split at ha
  · simp at ha
  · rcases List.mem_cons.mp ha with rfl | ha
    · exact h
    · obtain ⟨j, -, rfl⟩ := List.mem_map.mp ha
      have hd := pgRoundDown_toNat va
      rw [BitVec.toNat_add, BitVec.toNat_ofNat, hd]
      omega

section WriteBack

variable {P : Kmem → Proc → Prop}

theorem touchAll_invariant
    (hP : ∀ {k p va io k' p'}, va.toNat % 4096 = 0 → P k p → pgflt k p va io = .ok (k', p') →
      P k' p') (io : FileIo) :
    ∀ {vas : List Word} {k : Kmem} {p : Proc} {k' : Kmem} {p' : Proc},
      (∀ va ∈ vas, va.toNat % 4096 = 0) → P k p → touchAll io vas k p = .ok (k', p') → P k' p'
  | [], _, _, _, _, _, h, hr => by
    cases hr
    exact h
  | va :: vas, k, p, k', p', hal, h, hr => by
    unfold touchAll at hr
    cases ht : touchPage k p va io with
    | error e => simp [ht] at hr
    | ok r =>
      obtain ⟨k1, p1⟩ := r
      simp only [ht] at hr
      refine touchAll_invariant hP io (fun a ha => hal a (List.mem_cons_of_mem _ ha)) ?_ hr
      unfold touchPage at ht
      split at ht
      · cases ht
        exact h
      split at ht
      · cases ht
      · split at ht
        · cases ht
        · split at ht
          · cases ht
          · rename_i k2 p2 hf
            split at ht <;> cases ht
            exact hP (hal va (List.mem_cons_self ..)) h hf

/-- What every page-aligned fault keeps, the write-back of a page-aligned mapping keeps. -/
theorem writeBack_invariant
    (hP : ∀ {k p va io k' p'}, va.toNat % 4096 = 0 → P k p → pgflt k p va io = .ok (k', p') →
      P k' p') {k k' : Kmem} {p p' : Proc} {b : MemBlock} {io : FileIo}
    (hb : b.start.toNat % 4096 = 0) (h : P k p) (hw : writeBack k p b io = .ok (k', p')) :
    P k' p' := by
  unfold writeBack at hw
  split at hw
  · cases hw
    exact h
  · split at hw
    · split at hw
      · exact touchAll_invariant hP io (fun _ ha => touched_aligned hb ha) h hw
      · cases hw
        exact h
    · cases hw

end WriteBack

/-! ## The table through faults and write-backs -/

/-- Two tables with the same entries, count, addresses and lengths, and history. -/
structure Maps.SameTable (m m' : Maps) : Prop where
  arr : m'.arr = m.arr
  total : m'.total = m.total
  addr : m'.wmapinfo.addr = m.wmapinfo.addr
  length : m'.wmapinfo.length = m.wmapinfo.length
  calls : m'.calls = m.calls

theorem Maps.SameTable.refl (m : Maps) : m.SameTable m := ⟨rfl, rfl, rfl, rfl, rfl⟩

variable {m : Maps}

theorem Maps.SameTable.trans {m' m'' : Maps} (h : m.SameTable m') (h' : m'.SameTable m'') :
    m.SameTable m'' :=
  ⟨h'.arr.trans h.arr, h'.total.trans h.total, h'.addr.trans h.addr, h'.length.trans h.length,
    h'.calls.trans h.calls⟩

theorem Maps.sameTable_load (m : Maps) (location : Nat) (va : Word) :
    m.SameTable (m.load location va) :=
  ⟨rfl, rfl, rfl, rfl, rfl⟩

theorem pgflt_sameTable (h : pgflt k p va io = .ok (k', p')) : p.maps.SameTable p'.maps := by
  obtain ⟨-, -, rfl⟩ | ⟨location, _, _, _, _, _, _, -, -, -, -, -, rfl⟩ := pgflt_cases h
  · exact .refl _
  · exact p.maps.sameTable_load location va

theorem writeBack_sameTable {b : MemBlock} (hb : b.start.toNat % 4096 = 0)
    (h : writeBack k p b io = .ok (k', p')) :
    p.maps.SameTable p'.maps :=
  writeBack_invariant (P := fun _ q => p.maps.SameTable q.maps)
    (fun _ hs hf => hs.trans (pgflt_sameTable hf)) hb (.refl _) h

/-! ## `sys_wunmap` -/

variable {addr : Word}

theorem Maps.findStart_spec {i : Nat} (h : m.findStart addr = some i) :
    i < m.total.toNat ∧ (m.arr i).start = addr ∧ ∀ j < i, (m.arr j).start ≠ addr := by
  unfold Maps.findStart at h
  rw [List.find?_range_eq_some] at h
  obtain ⟨hi, hlt, hmin⟩ := h
  refine ⟨by simpa using hlt, by simpa using hi, fun j hj => ?_⟩
  simpa using hmin j hj

variable {r : Word}

/-- `sys_wunmap` that returned: it failed at once, or wrote the mapping back, released pages and
called `remove_mapping`. -/
theorem sysWunmap_cases (h : sysWunmap k p addr io = .ok (r, k', p')) :
    (r = failed ∧ k' = k ∧ p' = p) ∨
      ∃ location k1 p1 d,
        addr.toNat % 4096 = 0 ∧
        p.maps.findStart addr = some location ∧
        writeBack k p (p.maps.arr location) io = .ok (k1, p1) ∧
        unmapLoop (p1.maps.unmapBound location) 1048577 k1 p1.pgdir (p1.maps.unmapFrom location)
          = .ok (k', d) ∧
        r = (if (removeMapping p1.maps addr).1 then success else failed) ∧
        p' = { p1 with pgdir := d, maps := (removeMapping p1.maps addr).2 } := by
  unfold sysWunmap at h
  split at h
  · cases h
    exact .inl ⟨rfl, rfl, rfl⟩
  rename_i hal
  cases hfind : p.maps.findStart addr with
  | none =>
    simp only [hfind] at h
    cases h
    exact .inl ⟨rfl, rfl, rfl⟩
  | some location =>
    have hstart := (Maps.findStart_spec hfind).2.1
    simp only [hfind, hstart] at h
    cases hw : writeBack k p (p.maps.arr location) io with
    | error e => simp [hw] at h
    | ok w =>
      obtain ⟨k1, p1⟩ := w
      simp only [hw] at h
      cases hu : unmapLoop (p1.maps.unmapBound location) 1048577 k1 p1.pgdir
          (p1.maps.unmapFrom location) with
      | error e => simp [hu] at h
      | ok u =>
        obtain ⟨k2, d⟩ := u
        simp only [hu] at h
        cases h
        exact .inr ⟨location, k1, p1, d, not_not.mp hal, rfl, hw, hu, rfl, rfl⟩

/-! ## `sys_wmap` and `sys_wremap` -/

/-- Where `sys_wmap` puts a mapping that it does not reject outright. -/
def Maps.wmapStart (m : Maps) (addr length flags : Word) : Word :=
  if hasFlag flags mapFixed then addr else leftmostAddr m.arr (pgRoundUp length)

/-- The test of the `MAP_FIXED` case: aligned, and no endpoint inside an entry. -/
def Maps.fixedFits (m : Maps) (addr length : Word) : Prop :=
  addr.toNat % 4096 = 0 ∧
    ∀ i < maxWmmapInfo, (m.arr i).splits addr (addr + pgRoundUp length - 1#32) = false

theorem sysWmap_cases (pid : Nat) (m : Maps) (addr length flags fd : Word) :
    sysWmap pid m addr length flags fd = (failed, m) ∨
      (1 ≤ length.toInt ∧ m.total ≠ maxWmmapInfo ∧
        (hasFlag flags mapFixed = true → m.fixedFits addr length) ∧
        sysWmap pid m addr length flags fd
          = insertMapping m (pid, m.calls.length) (m.wmapStart addr length flags)
              (m.wmapStart addr length flags + pgRoundUp length - 1#32) flags length m.total fd) := by
  unfold sysWmap Maps.wmapStart
  by_cases hlen : length.toInt < 1
  · exact .inl (if_pos hlen)
  simp only [if_neg hlen]
  by_cases hfull : m.total = maxWmmapInfo
  · left
    have hins : ∀ rid a e f l d, insertMapping m rid a e f l m.total d = (failed, m) := by
      intros
      unfold insertMapping
      rw [if_pos hfull]
    simp only [hins, if_pos hfull, ite_self]
  · by_cases hfix : hasFlag flags mapFixed = true
    · simp only [hfix, if_true]
      by_cases hal : addr.toNat % 4096 ≠ 0
      · exact .inl (if_pos hal)
      · rw [if_neg hal]
        split
        · exact .inl rfl
        · rename_i hany
          refine .inr ⟨by omega, hfull, fun _ => ⟨not_not.mp hal, fun i hi => ?_⟩, rfl⟩
          simp only [Bool.not_eq_true, List.any_eq_false, List.mem_range] at hany
          simpa using hany i hi
    · rw [if_neg hfix, if_neg hfull, if_neg hfix]
      exact .inr ⟨by omega, hfull, fun h => absurd h hfix, rfl⟩

/-- The branch of `sys_wremap` that keeps the address. -/
def Maps.remapsInPlace (m : Maps) (oob : MemBlock) (location : Nat) (end_ : Word) : Prop :=
  ((m.next oob location).valid = 1#32 ∧ end_ < (m.next oob location).start) ∨
    ((m.next oob location).valid = 0#32 ∧ ¬ maxAddr < end_)

/-- The branch of `sys_wremap` that looks for another address. -/
def Maps.remapsElsewhere (m : Maps) (oob : MemBlock) (location : Nat) (end_ flag : Word) : Prop :=
  ¬ ((m.next oob location).valid = 1#32 ∧ end_ < (m.next oob location).start) ∧
    (m.next oob location).valid ≠ 0#32 ∧ flag ≠ 0#32

theorem Maps.findLive_spec {i : Nat} (h : m.findLive addr = some i) :
    i < m.total.toNat ∧ (m.arr i).valid = 1#32 ∧ (m.arr i).start = addr ∧
      ∀ j < i, ¬ ((m.arr j).valid = 1#32 ∧ (m.arr j).start = addr) := by
  unfold Maps.findLive at h
  rw [List.find?_range_eq_some] at h
  obtain ⟨hi, hlt, hmin⟩ := h
  simp only [Bool.and_eq_true, beq_iff_eq] at hi
  refine ⟨by simpa using hlt, hi.1, hi.2, fun j hj hboth => ?_⟩
  simpa [hboth] using hmin j hj

/-- `sys_wremap` leaves the table alone, or removes the entry and inserts it again, at the same
address or at one the placement loop finds. -/
theorem sysWremap_cases (m : Maps) (oob : MemBlock) (oldaddr oldsize newsize flag : Word) :
    sysWremap m oob oldaddr oldsize newsize flag = (failed, m) ∨
      ∃ location, oldaddr.toNat % 4096 = 0 ∧ m.findLive oldaddr = some location ∧
        ((m.remapsInPlace oob location (oldaddr + pgRoundUp newsize) ∧
            sysWremap m oob oldaddr oldsize newsize flag
              = m.reinsert oldaddr oldaddr (oldaddr + pgRoundUp newsize - 1#32) newsize
                  (m.arr location)) ∨
          (m.remapsElsewhere oob location (oldaddr + pgRoundUp newsize) flag ∧
            sysWremap m oob oldaddr oldsize newsize flag
              = m.reinsert oldaddr (leftmostAddr (removeMapping m oldaddr).2.arr (pgRoundUp newsize))
                  (leftmostAddr (removeMapping m oldaddr).2.arr (pgRoundUp newsize)
                    + pgRoundUp newsize - 1#32 - 1#32) newsize (m.arr location))) := by
  unfold sysWremap
  by_cases hal : oldaddr.toNat % 4096 ≠ 0
  · exact .inl (if_pos hal)
  rw [if_neg hal]
  cases hfind : m.findLive oldaddr with
  | none => exact .inl rfl
  | some location =>
    dsimp only
    by_cases h1 : (m.next oob location).valid = 1#32 ∧
        oldaddr + pgRoundUp newsize < (m.next oob location).start
    · simp only [if_pos h1]
      exact .inr ⟨location, not_not.mp hal, rfl, .inl ⟨.inl h1, rfl⟩⟩
    simp only [if_neg h1]
    by_cases h2 : (m.next oob location).valid = 0#32
    · simp only [if_pos h2]
      by_cases hmax : maxAddr < oldaddr + pgRoundUp newsize
      · exact .inl (if_pos hmax)
      · rw [if_neg hmax]
        exact .inr ⟨location, not_not.mp hal, rfl, .inl ⟨.inr ⟨h2, hmax⟩, rfl⟩⟩
    · simp only [if_neg h2]
      by_cases hflag : flag = 0#32
      · exact .inl (if_pos hflag)
      · rw [if_neg hflag]
        exact .inr ⟨location, not_not.mp hal, rfl, .inr ⟨⟨h1, h2, hflag⟩, rfl⟩⟩

/-! ## `call` -/

theorem Sys.setProc_proc_self (s : Sys) (k : Kmem) (i : Fin nproc) (p : Proc) :
    (s.setProc k i p).proc i = p :=
  Function.update_self ..

theorem Sys.setProc_proc_of_ne (s : Sys) (k : Kmem) {i j : Fin nproc} (p : Proc) (h : j ≠ i) :
    (s.setProc k i p).proc j = s.proc j :=
  Function.update_of_ne h ..

theorem Sys.setProc_kmem (s : Sys) (k : Kmem) (i : Fin nproc) (p : Proc) :
    (s.setProc k i p).kmem = k :=
  rfl

theorem Sys.setProc_setProc (s : Sys) (k k' : Kmem) (i : Fin nproc) (p p' : Proc) :
    (s.setProc k i p).setProc k' i p' = s.setProc k' i p' := by
  unfold Sys.setProc
  simp only [Function.update_idem]

theorem call_wmap {length flags fd : Word}
    (h : call k p (.wmap addr length flags fd) = .ok (r, k', p')) :
    r = (sysWmap p.pid p.maps addr length flags fd).1 ∧ k' = k ∧
      p' = { p with maps := (sysWmap p.pid p.maps addr length flags fd).2 } := by
  simp only [call, Except.ok.injEq, Prod.mk.injEq] at h
  exact ⟨h.1.symm, h.2.1.symm, h.2.2.symm⟩

theorem call_wremap {oldaddr oldsize newsize flag : Word} {oob : MemBlock}
    (h : call k p (.wremap oldaddr oldsize newsize flag oob) = .ok (r, k', p')) :
    r = (sysWremap p.maps oob oldaddr oldsize newsize flag).1 ∧ k' = k ∧
      p' = { p with maps := (sysWremap p.maps oob oldaddr oldsize newsize flag).2 } := by
  simp only [call, Except.ok.injEq, Prod.mk.injEq] at h
  exact ⟨h.1.symm, h.2.1.symm, h.2.2.symm⟩

theorem call_fault (h : call k p (.fault va io) = .ok (r, k', p')) :
    pgflt k p va io = .ok (k', p') := by
  unfold call at h
  cases hf : pgflt k p va io with
  | error e => simp [hf] at h
  | ok s =>
    simp only [hf] at h
    cases h
    rfl

theorem callStep_ok {s s' : Kmem × Proc} {c : Call} (h : callStep s c = .ok s') :
    ∃ r, call s.1 s.2 c = .ok (r, s'.1, s'.2) := by
  unfold callStep at h
  cases hc : call s.1 s.2 c with
  | error e => simp [hc] at h
  | ok t =>
    simp only [hc] at h
    cases h
    exact ⟨t.1, rfl⟩

end Xv6Mmap
