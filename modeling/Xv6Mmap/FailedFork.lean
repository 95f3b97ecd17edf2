import Xv6Mmap.ForkPages
import Xv6Mmap.CopyUvm
import Xv6Mmap.FsRuns

/-!
# A fork that runs out of memory (`proc.c:74-153`, `proc.c:288-370`)

`fork` allocates in five places: the kernel stack, the `wmapinfo` page, the sixteen `mem_block`
pages, the page table with the copied pages, and the pages of private mappings. Only two of them have
a way back.

* `forkBoth` is `fork` on the process table and the file system together: the files and the working
  directory get their references once the address space is copied.
* `copyuvm_none`: a failed `copyuvm` has at most the free pages it began with. Pages at and above
  `MIN_ADDR` are lost to `freevm`; in the account they stay in the caller's hands.
* `allocproc_panics`: with a kernel stack but not all of the other seventeen pages, the kernel stops.
* `fork_none_leaks`: after a failed `copyuvm` the kernel stack is freed and the seventeen pages
  are not.
* **`fork_traceless_iff`**: a fork fails without a trace exactly if there is no slot for the child.
-/

namespace Xv6Mmap

open Lib

/-! ## `fork` with the file system -/

/-- `fork()` by slot `i`, with the references it takes. -/
def forkBoth (s : Sys) (t : Fs.State) (i : Fin nproc) :
    Except Halt (Option (Fin nproc) × Sys × Fs.State) :=
  match allocproc s with
  | .error e => .error e
  | .ok (none, s) => .ok (none, s, t)
  | .ok (some j, s) =>
    let cur := s.proc i
    let np := s.proc j
    match copyuvm s.kmem cur.pgdir cur.sz with
    | .error e => .error e
    | .ok (none, k) =>
      match kfree k np.kstack with
      | .error e => .error e
      | .ok k => .ok (none, s.setProc k j { np with kstack := 0#32, state := .unused }, t)
    | .ok (some d, k) =>
      -- `filedup` and `idup`, which may panic, come before the mappings
      match Fs.fork i true t with
      | .error e => .error e
      | .ok (_, t) =>
        let np :=
          { np with
            pgdir := d, sz := cur.sz, parent := some i
            ofile := fun fd => (cur.ofile fd).or (np.ofile fd) }
        match forkEntries cur (List.range maxWmmapInfo) k np with
        | .error e => .error e
        | .ok (k, np) => .ok (some j, s.setProc k j { np with state := .runnable }, t)

section Fork

variable {s s' : Sys} {t t' : Fs.State} {i j : Fin nproc}

/-- A fork that fails has not come to the file system. -/
theorem forkBoth_eq_none :
    forkBoth s t i = .ok (none, s', t') ↔ fork s i = .ok (none, s') ∧ t' = t := by
  unfold forkBoth fork
  rcases allocproc s with e | ⟨_ | j, s1⟩
  · exact iff_of_false nofun (fun h => nomatch h.1)
  · constructor
    · rintro ⟨⟩
      exact ⟨rfl, rfl⟩
    · rintro ⟨⟨⟩, rfl⟩
      rfl
  dsimp only
  rcases copyuvm s1.kmem (s1.proc i).pgdir (s1.proc i).sz with e | ⟨_ | d, k⟩
  · exact iff_of_false nofun (fun h => nomatch h.1)
  · dsimp only
    rcases kfree k (s1.proc j).kstack with e | k'
    · exact iff_of_false nofun (fun h => nomatch h.1)
    constructor
    · rintro ⟨⟩
      exact ⟨rfl, rfl⟩
    · rintro ⟨⟨⟩, rfl⟩
      rfl
  dsimp only
  refine iff_of_false (fun h => ?_) (fun h => ?_)
  · rcases hf : Fs.fork i true t with e | r <;> rw [hf] at h
    · cases h
    dsimp only at h
    split at h <;> cases h
  · have h := h.1
    split at h <;> cases h

/-! ## What a failed `copyuvm` leaves -/

/-- The loop of `copyuvm`, wherever it stops: no page is free that was not. -/
theorem copyLoop_none {k0 k' : Kmem} {pgdir : PgDir} {sz : Word} (him : k0.image.Linked)
    (hk : k0.Sound) :
    ∀ (fuel : Nat) {hand : Multiset Word} {k : Kmem} {d : PgDir} {i : Word},
      i.toNat % 4096 = 0 → Builds k0 hand k d → copyLoop pgdir sz fuel k d i = .ok (none, k') →
      k'.freelist.length ≤ k0.freelist.length := by
  -- a settled account: the rest of the pages are in the caller's hands
  have settled : ∀ {hand : Multiset Word} {k : Kmem} {d : PgDir}, Builds k0 hand k d →
      freevm k d = .ok k' → k'.freelist.length ≤ k0.freelist.length := by
    intro hand k d hb hf
    obtain ⟨k1, hf1, -, hpages, -⟩ := hb.settle him hk
    cases hf1.symm.trans hf
    have hcard := congrArg Multiset.card hpages
    rw [Multiset.card_add, Multiset.coe_card, Multiset.coe_card] at hcard
    omega
  intro fuel
  induction fuel with
  | zero => exact fun _ _ h => nomatch h
  | succ fuel ih =>
    intro hand k d i hal hb h
    obtain ⟨-, ho, -⟩ | ⟨-, ⟨-, -, hf⟩ | ⟨mem, k1, mapped, k2, d2, ha, hmap, hturn⟩⟩ :=
      copyLoop_cases h
    · cases ho
    · exact settled hb hf
    have hmem : mem ∈ k0.freelist := hb.mem_of_kalloc ha
    have hb1 := (hb.take ha).write hmem (k1.mem (physPage (pgdir.entry (vpn i))))
    obtain ⟨d3, hw, hcase⟩ := mappages_page_cases hal hmap
    have hb2 : Builds k0 ({mem} + hand) k2 d3 := hb1.walk hw
    obtain ⟨rfl, hloop⟩ | ⟨rfl, -, k3, hf, hfv⟩ := hturn
    · obtain ⟨hb', -⟩ | ⟨-, habs, rfl⟩ := hcase
      · cases hb'
      have hnext : (i + pgSize).toNat % 4096 = 0 := by
        unfold pgSize
        bv_omega
      by_cases hi : vpn i < 0x60000
      · have hphys : physPage (v2p mem ||| pteFlags (pgdir.entry (vpn i)) ||| pteP) = mem :=
          p2v_pteAddr_or (KernelImage.aligned_of_isPage (hk _ hmem)) (pteFlags_lt _)
        exact ih hnext (Builds.setEntry_user (by rw [hphys]; exact hb2) hi
          ((walkpgdir_entry hw).2 rfl) habs (present_or _ _)) hloop
      · exact ih hnext (hb2.setEntry (by omega)) hloop
    · obtain ⟨-, rfl⟩ | ⟨hb', -⟩ := hcase
      · exact settled (hb2.giveBack hf) hfv
      · cases hb'

theorem copyuvm_none {k k' : Kmem} {pgdir : PgDir} {sz : Word} (him : k.image.Linked)
    (hk : k.Sound) (h : copyuvm k pgdir sz = .ok (none, k')) :
    k'.freelist.length ≤ k.freelist.length := by
  unfold copyuvm at h
  rcases setupkvm_builds him hk sz with ⟨d, k1, hset, hb, -⟩ | ⟨k1, hset, hback, -⟩
  · rw [hset] at h
    exact copyLoop_none him hk _ (by decide) hb h
  · rw [hset] at h
    cases h
    exact hback.perm.length_eq.le

/-! ## What `allocproc` leaves -/

theorem allocBlocks_panics :
    ∀ (n : Nat) {i : Nat} {k : Kmem} {pages : Nat → Word}, k.freelist.length < n →
      allocBlocks n i k pages = .error (.panic "kalloc()")
  | 0, _, _, _, h => absurd h (Nat.not_lt_zero _)
  | n + 1, i, k, pages, h => by
    rw [allocBlocks]
    cases ha : kalloc k .memBlock with
    | none => rfl
    | some r =>
      obtain ⟨rest, hf, hk⟩ := kalloc_eq_some ha
      rw [hf, List.length_cons] at h
      exact allocBlocks_panics n (by rw [hk]; exact Nat.lt_of_succ_lt_succ h)

/-- With a page for the kernel stack, but not for the rest. -/
theorem allocproc_panics (hj : s.unusedSlot = some j) (hpage : s.kmem.freelist ≠ [])
    (hfew : s.kmem.freelist.length < 18) : allocproc s = .error (.panic "kalloc()") := by
  obtain ⟨kstack, k1, ha, -⟩ := kalloc_ok .kstack (List.length_pos_iff.mpr hpage)
  have hlen := (kalloc_took ha).count
  unfold allocproc
  simp only [hj, ha]
  cases hw : kalloc k1 .wmapinfo with
  | none => rfl
  | some r =>
    obtain ⟨wmap, k2⟩ := r
    have hlen' := (kalloc_took hw).count
    dsimp only
    rw [allocBlocks_panics maxWmmapInfo (by unfold maxWmmapInfo; omega)]

/-- Without one, the slot is `UNUSED` again, and keeps the process identifier. -/
theorem allocproc_noStack (hj : s.unusedSlot = some j) (hnil : s.kmem.freelist = []) :
    allocproc s = .ok (none, { s with nextpid := s.nextpid + 1 }.setProc s.kmem j
      { s.proc j with pid := s.nextpid, kstack := 0#32, state := .unused }) := by
  unfold allocproc kalloc
  simp only [hj, hnil]

/-! ## Failed forks -/

theorem fork_panics (hj : s.unusedSlot = some j) (hpage : s.kmem.freelist ≠ [])
    (hfew : s.kmem.freelist.length < 18) : forkBoth s t i = .error (.panic "kalloc()") := by
  unfold forkBoth
  rw [allocproc_panics hj hpage hfew]

theorem fork_noStack (hj : s.unusedSlot = some j) (hnil : s.kmem.freelist = []) :
    forkBoth s t i = .ok (none, { s with nextpid := s.nextpid + 1 }.setProc s.kmem j
      { s.proc j with pid := s.nextpid, kstack := 0#32, state := .unused }, t) := by
  unfold forkBoth
  rw [allocproc_noStack hj hnil]

/-- A fork that got its kernel stack and fails has lost the pages of `wmapinfo` and of the
`mem_block`s. -/
theorem fork_none_leaks (him : s.kmem.image.Linked) (hk : s.kmem.Sound)
    (hj : s.unusedSlot = some j) (hpage : s.kmem.freelist ≠ [])
    (h : forkBoth s t i = .ok (none, s', t')) :
    s'.kmem.freelist.length + 17 ≤ s.kmem.freelist.length := by
  by_cases hfew : s.kmem.freelist.length < 18
  · rw [fork_panics hj hpage hfew] at h
    cases h
  obtain ⟨k, p, ha, -⟩ := allocproc_ok hj hk (by omega)
  obtain ⟨-, hnone⟩ | ⟨x, s1, ha1, ⟨-, k1, k2, hcopy, hfree, rfl⟩ | ⟨_, _, _, _, ho, _⟩⟩ :=
    fork_cases (forkBoth_eq_none.mp h).1
  · cases ha.symm.trans hnone
  · have htook := allocproc_took ha1
    have hle := copyuvm_none (by rw [htook.image]; exact him) (htook.sound hk) hcopy
    obtain ⟨-, rfl⟩ := kfree_eq_ok hfree
    have hcount := htook.count
    change (_ :: k1.freelist).length + 17 ≤ _
    rw [List.length_cons]
    omega
  · cases ho

/-- The call left nothing behind: the free pages, the process table and every reference count are
as they were. `nextpid` may have been counted up. -/
structure Untouched (s : Sys) (t : Fs.State) (s' : Sys) (t' : Fs.State) : Prop where
  free : s'.kmem.freelist.Perm s.kmem.freelist
  procs : s'.proc = s.proc
  initproc : s'.initproc = s.initproc
  refs : t' = t

/-- `fork` returns `-1`, and leaves nothing behind. -/
def ForkTraceless (s : Sys) (t : Fs.State) (i : Fin nproc) : Prop :=
  ∃ s' t', forkBoth s t i = .ok (none, s', t') ∧ Untouched s t s' t'

/-- Without an `UNUSED` slot `fork` does not come to its first `kalloc`. -/
theorem forkTraceless_of_full (h : s.unusedSlot = none) : ForkTraceless s t i := by
  refine ⟨s, t, ?_, .refl _, rfl, rfl, rfl⟩
  unfold forkBoth allocproc
  rw [h]

/-- A slot that `allocproc` has tried keeps the identifier it was given (`proc.c:91`). -/
theorem noStack_traced (hpid : ∀ x, (s.proc x).pid ≠ s.nextpid) (hj : s.unusedSlot = some j)
    (hnil : s.kmem.freelist = []) : ¬ ForkTraceless s t i := by
  rintro ⟨s', t', hfork, huntouched⟩
  rw [fork_noStack hj hnil] at hfork
  cases hfork
  have := congrArg Proc.pid (congrFun huntouched.procs j)
  rw [Sys.setProc_proc_self] at this
  exact hpid j this.symm

end Fork

/-- **A fork that finds no page leaves a trace**, at whatever `kalloc` it fails: it fails without one
exactly if there is no `UNUSED` slot, when `kalloc` is not called. Without a page for the kernel
stack the slot keeps a new process identifier; with one, the kernel panics if the other seventeen
pages of `allocproc` are not there, and whenever `fork` returns `-1` they are lost. No slot has the
identifier that is given out next. -/
theorem fork_traceless_iff (s : Sys) (t : Fs.State) (i : Fin nproc) (him : s.kmem.image.Linked)
    (hk : s.kmem.Sound) (hpid : ∀ x, (s.proc x).pid ≠ s.nextpid) :
    (ForkTraceless s t i ↔ s.unusedSlot = none) ∧
    ∀ j, s.unusedSlot = some j →
      (s.kmem.freelist = [] →
        forkBoth s t i = .ok (none, { s with nextpid := s.nextpid + 1 }.setProc s.kmem j
          { s.proc j with pid := s.nextpid, kstack := 0#32, state := .unused }, t)) ∧
      (s.kmem.freelist ≠ [] → s.kmem.freelist.length < 18 →
        forkBoth s t i = .error (.panic "kalloc()")) ∧
      (s.kmem.freelist ≠ [] → ∀ s' t', forkBoth s t i = .ok (none, s', t') →
        s'.kmem.freelist.length + 17 ≤ s.kmem.freelist.length) := by
  refine ⟨⟨fun h => ?_, forkTraceless_of_full⟩, fun j hj =>
    ⟨fork_noStack hj, fork_panics hj, fun hpage s' t' h => fork_none_leaks him hk hj hpage h⟩⟩
  by_contra hslot
  obtain ⟨j, hj⟩ := Option.ne_none_iff_exists'.mp hslot
  by_cases hpage : s.kmem.freelist = []
  · exact noStack_traced hpid hj hpage h
  · obtain ⟨s', t', hfork, huntouched⟩ := h
    have hleak := fork_none_leaks him hk hj hpage hfork
    have hsame := huntouched.free.length_eq
    omega

/-- A process on its own, with `n` free pages. -/
def Sys.alone (n : Nat) : Sys :=
  (Sys.boot (Kmem.initial n) 0).setProc (Kmem.initial n) 0 (Proc.fresh 1)

/-- The file system after `userinit`, on an empty disk. -/
def Fs.State.blank : Fs.State :=
  .boot Fs.smallSb ⟨fun _ => false, fun _ _ => 0#8⟩ fun _ => .zero

theorem Sys.alone_unusedSlot (n : Nat) : (Sys.alone n).unusedSlot = some 1 := rfl

/-- All slots of the process table are taken. -/
def Sys.crowded (n : Nat) : Sys := { Sys.alone n with nextpid := 2, proc := fun _ => Proc.fresh 1 }

theorem fork_traceless_iff_crowded : ForkTraceless (Sys.crowded 5) .blank 0 :=
  (fork_traceless_iff (Sys.crowded 5) .blank 0 KernelImage.sample_linked
    (Kmem.initial_sound (by decide)) fun _ => show 1 ≠ 2 by decide).1.mpr (by decide)

/-- With 18 free pages `allocproc` takes all, `copyuvm` fails at once, and one page comes back. With
five the kernel panics. With none the `UNUSED` slot gets a process identifier. -/
theorem fork_leaves_trace :
    (∃ s', forkBoth (Sys.alone 18) .blank 0 = .ok (none, s', .blank) ∧
      s'.kmem.freelist.length = 1) ∧
    ¬ ForkTraceless (Sys.alone 18) .blank 0 ∧
    forkBoth (Sys.alone 5) .blank 0 = .error (.panic "kalloc()") ∧
    ∃ s', forkBoth (Sys.alone 0) .blank 0 = .ok (none, s', .blank) ∧
      (s'.proc 1).pid ≠ ((Sys.alone 0).proc 1).pid := by
  have hslot := Sys.alone_unusedSlot
  refine ⟨⟨_, rfl, rfl⟩, ?_, fork_panics (hslot 5) (by decide) (by decide), _, rfl, by decide⟩
  rintro ⟨s', t', hfork, huntouched⟩
  have hleak := fork_none_leaks KernelImage.sample_linked (Kmem.initial_sound (by decide)) (hslot 18)
    (by decide) hfork
  have hsame := huntouched.free.length_eq
  omega

end Xv6Mmap
