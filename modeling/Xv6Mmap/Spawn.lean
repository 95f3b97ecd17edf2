import Xv6Mmap.Calls
import Xv6Mmap.Dealloc

/-!
# Processes come up and go

Success lemmas for `proc.c`, on top of those for the page tables: with enough free pages `userinit`
starts the first process (`userinit_ok`), `fork` of a process of one page reaches the inheritance
loop (`fork_ok`), and `exit` returns (`exit_ok`).
-/

namespace Xv6Mmap

instance : NeZero nproc := ⟨by decide⟩

/-- The kernel pages of a process are ones that `kfree` accepts. -/
structure Proc.PagesOk (im : KernelImage) (p : Proc) : Prop where
  kstack : im.isPage p.kstack = true
  wmapinfoPage : im.isPage p.wmapinfoPage = true
  arrPage : ∀ i < maxWmmapInfo, im.isPage (p.arrPage i) = true

theorem allocBlocks_ok :
    ∀ (n i : Nat) (k : Kmem) (pages : Nat → Word), n ≤ k.freelist.length →
      ∃ k' pages', allocBlocks n i k pages = .ok (k', pages') ∧ k.Drawn k' n ∧
        (∀ j < i, pages' j = pages j) ∧ ∀ j, i ≤ j → j < i + n → pages' j ∈ k.freelist := by
  intro n
  induction n with
  | zero =>
    intro i k pages _
    exact ⟨k, pages, rfl, .refl k, fun _ _ => rfl, fun j hj hlt => by omega⟩
  | succ n ih =>
    intro i k pages hroom
    obtain ⟨v, k1, ha, hmem, hs⟩ := kalloc_ok .memBlock (by omega : 0 < k.freelist.length)
    have hlen := hs.length
    obtain ⟨k', pages', hb, hs', hlow, hpages⟩ :=
      ih (i + 1) k1 (Function.update pages i v) (by omega)
    refine ⟨k', pages', ?_, (hs.trans hs').mono (by omega), fun j hj => ?_, fun j hj hlt => ?_⟩
    · rw [allocBlocks, ha]
      exact hb
    · rw [hlow j (by omega), Function.update_of_ne (by omega)]
    · by_cases hji : j = i
      · rw [hlow j (by omega), hji, Function.update_self]
        exact hmem
      · exact hs.freelist.subset (hpages j (by omega) (by omega))

/-- A slot as `allocproc` leaves it. -/
structure Proc.Allocated (im : KernelImage) (p old : Proc) (pid : Nat) : Prop
    extends p.PagesOk im where
  frame : p = { old with
    state := .embryo, pid := pid, kstack := p.kstack, maps := Maps.init
    wmapinfoPage := p.wmapinfoPage, arrPage := p.arrPage }

theorem allocproc_ok {s : Sys} {i : Fin nproc} (hi : s.unusedSlot = some i) (hk : s.kmem.Sound)
    (hroom : 18 ≤ s.kmem.freelist.length) :
    ∃ k p, allocproc s = .ok (some i, { s with nextpid := s.nextpid + 1 }.setProc k i p) ∧
      s.kmem.Drawn k 18 ∧ p.Allocated s.kmem.image (s.proc i) s.nextpid := by
  obtain ⟨kstack, k1, ha1, hm1, hs1⟩ := kalloc_ok .kstack (by omega : 0 < s.kmem.freelist.length)
  have hlen1 := hs1.length
  obtain ⟨wmap, k2, ha2, hm2, hs2⟩ := kalloc_ok .wmapinfo (by omega : 0 < k1.freelist.length)
  have hlen2 := hs2.length
  obtain ⟨k3, pages, hb, hs3, -, hpages⟩ := allocBlocks_ok maxWmmapInfo 0 k2 (s.proc i).arrPage
    (by unfold maxWmmapInfo; omega)
  refine ⟨k3, { s.proc i with
    state := .embryo, pid := s.nextpid, kstack := kstack, maps := Maps.init
    wmapinfoPage := wmap, arrPage := pages }, ?_, ?_, ?_⟩
  · unfold allocproc
    simp only [hi, ha1, ha2, hb]
  · exact ((hs1.trans hs2).trans hs3).mono (by unfold maxWmmapInfo; omega)
  · refine ⟨⟨hk kstack hm1, hk wmap (hs1.freelist.subset hm2), fun j hj => ?_⟩, rfl⟩
    exact hk _ ((hs1.trans hs2).freelist.subset (hpages j (by omega) (by omega)))

/-- The system after `userinit`: one process, of one page, with an empty mapping table. -/
structure Sys.Booted (im : KernelImage) (s : Sys) : Prop where
  image : s.kmem.image = im
  sound : s.kmem.Sound
  pages : (s.proc 0).PagesOk im
  dir : (s.proc 0).pgdir.OnePage im
  frame : s.proc 0 = { Proc.unused with
    state := .runnable, pid := 1, sz := pgSize, kstack := (s.proc 0).kstack
    pgdir := (s.proc 0).pgdir, wmapinfoPage := (s.proc 0).wmapinfoPage
    arrPage := (s.proc 0).arrPage }
  others : ∀ j, j ≠ 0 → s.proc j = Proc.unused
  initproc : s.initproc = 0

theorem Sys.boot_unusedSlot (k : Kmem) (i : Fin nproc) : (Sys.boot k i).unusedSlot = some 0 := by
  rfl

theorem userinit_ok {k : Kmem} (init : Page) (him : k.image.Linked) (hk : k.Sound)
    (hroom : 87 ≤ k.freelist.length) :
    ∃ s, userinit k init = .ok s ∧ s.Booted k.image ∧ k.Drawn s.kmem 87 := by
  obtain ⟨k1, p, ha, hs1, hp⟩ := allocproc_ok (Sys.boot_unusedSlot k ⟨0, by decide⟩) hk
    (by show 18 ≤ k.freelist.length; omega)
  have hs1 : k.Drawn k1 18 := hs1
  have hlen1 := hs1.length
  obtain ⟨d, k2, hset, hs2, hclear⟩ := setupkvm_ok (by rw [hs1.image]; exact him) (by omega)
  have hlen2 := hs2.length
  obtain ⟨k3, d', hinit, hs3, hone⟩ := inituvm_ok init (hs2.sound (hs1.sound hk)) hclear (by omega)
  have hs := (hs1.trans hs2).trans hs3
  have him2 : k2.image = k.image := hs2.image.trans hs1.image
  have hbase : PgDir.OnePage k.image d' := him2 ▸ hone
  refine ⟨_, by unfold userinit; simp only [ha, Sys.setProc_kmem, hset, hinit]; rfl, ?_, ?_⟩
  · refine ⟨hs.image, hs.sound hk, ?_, ?_, ?_, fun j hj => ?_, rfl⟩
    · simp only [Sys.setProc_proc_self]
      exact ⟨hp.kstack, hp.wmapinfoPage, hp.arrPage⟩
    · simp only [Sys.setProc_proc_self]
      exact hbase
    · simp only [Sys.setProc_proc_self]
      rw [hp.frame]
      rfl
    · simp only [Sys.setProc_proc_of_ne _ _ _ hj]
      rfl
  · exact hs.mono (by omega)

theorem Sys.Booted.unusedSlot {im : KernelImage} {s : Sys} (h : s.Booted im) :
    s.unusedSlot = some 1 := by
  have hstate : ∀ i, ((s.proc i).state == .unused) = !decide (i = 0) := fun i => by
    by_cases hi : i = 0
    · subst hi
      rw [h.frame]
      rfl
    · rw [h.others i hi, decide_eq_false hi]
      rfl
  unfold Sys.unusedSlot
  simp only [hstate]
  decide

/-! ## `fork` -/

/-- The child just before the inheritance loop of `fork`. -/
structure Proc.Forked (im : KernelImage) (np old cur : Proc) (i : Fin nproc) (pid : Nat) : Prop
    extends np.PagesOk im where
  dir : np.pgdir.OnePage im
  frame : np = { old with
    state := .embryo, pid := pid, kstack := np.kstack, maps := Maps.init, pgdir := np.pgdir
    sz := pgSize, parent := some i, ofile := fun fd => (cur.ofile fd).or (old.ofile fd)
    wmapinfoPage := np.wmapinfoPage, arrPage := np.arrPage }

namespace Proc.Forked

variable {im : KernelImage} {np old cur : Proc} {i : Fin nproc} {pid : Nat}

theorem sz_eq (h : np.Forked im old cur i pid) : np.sz = pgSize := by rw [h.frame]

theorem parent_eq (h : np.Forked im old cur i pid) : np.parent = some i := by rw [h.frame]

end Proc.Forked

/-- `fork` of a process of one page, with 87 free pages, comes to the inheritance loop. -/
theorem fork_ok {s : Sys} {i j : Fin nproc} (him : s.kmem.image.Linked) (hk : s.kmem.Sound)
    (hj : s.unusedSlot = some j) (hij : i ≠ j) (hsz : (s.proc i).sz = pgSize)
    (htab : (s.proc i).pgdir.hasTab 0 = true) (hzero : present ((s.proc i).pgdir.entry 0) = true)
    (hroom : 87 ≤ s.kmem.freelist.length) :
    ∃ k np, s.kmem.Drawn k 87 ∧ np.Forked s.kmem.image (s.proc j) (s.proc i) i s.nextpid ∧
      fork s i =
        match forkEntries (s.proc i) (List.range maxWmmapInfo) k np with
        | .error e => .error e
        | .ok (k, np) =>
          .ok (some j,
            { s with nextpid := s.nextpid + 1 }.setProc k j { np with state := .runnable }) := by
  obtain ⟨k1, p, ha, hs1, hp⟩ := allocproc_ok hj hk (by omega)
  have hlen := hs1.length
  obtain ⟨d, k2, hcopy, hs2, hd⟩ := copyuvm_ok (by rw [hs1.image]; exact him) (hs1.sound hk) htab
    hzero (by omega)
  rw [hs1.image] at hd
  refine ⟨k2, { p with
    pgdir := d, sz := pgSize, parent := some i
    ofile := fun fd => ((s.proc i).ofile fd).or (p.ofile fd) }, hs1.trans hs2, ?_, ?_⟩
  · refine ⟨⟨hp.kstack, hp.wmapinfoPage, hp.arrPage⟩, hd, ?_⟩
    rw [hp.frame]
  have hcur : ({ s with nextpid := s.nextpid + 1 }.setProc k1 j p).proc i = s.proc i :=
    Sys.setProc_proc_of_ne _ _ _ hij
  -- both sides look at what the loop returns
  cases hloop : forkEntries (s.proc i) (List.range maxWmmapInfo) k2 { p with
    pgdir := d, sz := pgSize, parent := some i
    ofile := fun fd => ((s.proc i).ofile fd).or (p.ofile fd) } with
  | error e =>
    simp only [fork, ha, hcur, Sys.setProc_kmem, Sys.setProc_proc_self, hsz, hcopy, hloop]
  | ok r =>
    simp only [fork, ha, hcur, Sys.setProc_kmem, Sys.setProc_proc_self, hsz, hcopy, hloop,
      Sys.setProc_setProc]

theorem forkEntries_none {cur : Proc} {is : List Nat}
    (h : ∀ i ∈ is, (cur.maps.arr i).valid = 0#32) (k : Kmem) (np : Proc) :
    forkEntries cur is k np = .ok (k, np) := by
  induction is with
  | nil => rfl
  | cons i is ih =>
    have hi : forkEntry cur np k i = .ok (k, np) := if_pos (h i (List.mem_cons_self ..))
    rw [forkEntries, hi]
    exact ih fun j hj => h j (List.mem_cons_of_mem _ hj)

theorem Sys.Booted.fork {im : KernelImage} {s : Sys} (h : s.Booted im) (him : im.Linked)
    (hroom : 87 ≤ s.kmem.freelist.length) :
    ∃ (k : Kmem) (np : Proc), s.kmem.Drawn k 87 ∧
      np.Forked im Proc.unused (s.proc 0) 0 s.nextpid ∧
      step s (0, .fork)
        = .ok ({ s with nextpid := s.nextpid + 1 }.setProc k 1 { np with state := .runnable }) := by
  have hmaps : (s.proc 0).maps = Maps.init := by rw [h.frame]; rfl
  have hsz : (s.proc 0).sz = pgSize := by rw [h.frame]
  have hlive : (s.proc 0).state.live = true := by rw [h.frame]; rfl
  obtain ⟨k, np, hs, hnp, hfork⟩ := fork_ok (by rw [h.image]; exact him) h.sound h.unusedSlot
    (by decide : (0 : Fin nproc) ≠ 1) hsz h.dir.hasTab h.dir.zero hroom
  rw [h.image, h.others 1 (by decide)] at hnp
  refine ⟨k, np, hs, hnp, ?_⟩
  rw [forkEntries_none (fun i _ => by rw [hmaps]; rfl)] at hfork
  unfold step
  rw [if_pos hlive, hfork]

/-! ## `exit` and `wait` -/

/-- Every entry from slot `i` on loses a reference. -/
def Maps.unrefFrom : Nat → Nat → Maps → Maps
  | 0, _, m => m
  | n + 1, i, m => Maps.unrefFrom n (i + 1) (m.unref i)

theorem exitBlocks_ok {p : Proc} {im : KernelImage} (hp : p.PagesOk im) :
    ∀ (n i : Nat) (k : Kmem) (parent : Maps), i + n ≤ maxWmmapInfo → k.image = im →
      ∃ k', exitBlocks p n i k parent = .ok (k', parent.unrefFrom n i) ∧ k'.image = im := by
  intro n
  induction n with
  | zero => exact fun i k parent _ hki => ⟨k, rfl, hki⟩
  | succ n ih =>
    intro i k parent hin hki
    by_cases hfree : (p.maps.arr i).valid = 1#32 ∧ (p.maps.arr i).ref = 1#32
    · obtain ⟨k1, hf, hki1⟩ := kfree_ok (by rw [hki]; exact hp.arrPage i (by omega))
      rw [exitBlocks, if_pos hfree, hf]
      exact ih (i + 1) k1 _ (by omega) (hki1.trans hki)
    · rw [exitBlocks, if_neg hfree]
      exact ih (i + 1) k _ (by omega) hki

/-- The process table when slot `i` exits with parent `j`: its children go to `initproc`, and every
entry of the parent loses a reference. -/
def Sys.afterExit (s : Sys) (i j : Fin nproc) (k : Kmem) (d : PgDir) : Sys :=
  let proc := fun x =>
    if (s.proc x).parent = some i then { s.proc x with parent := some s.initproc } else s.proc x
  let proc := Function.update proc j
    { proc j with maps := (proc j).maps.unrefFrom maxWmmapInfo 0 }
  { s with
    kmem := k
    proc := Function.update proc i
      { proc i with ofile := fun _ => none, pgdir := d, state := .zombie } }

theorem exit_ok {s : Sys} {i j : Fin nproc} {im : KernelImage} (him : im.Linked)
    (hki : s.kmem.image = im) (hi : i ≠ s.initproc)
    (hpar : (s.proc i).parent = some j) (hp : (s.proc i).PagesOk im)
    (hd : (s.proc i).pgdir.Sound im) (hsz : (s.proc i).sz.toNat ≤ 0x80000000) :
    ∃ k d, exit s i = .ok (s.afterExit i j k d) ∧ k.image = im ∧
      d.page = (s.proc i).pgdir.page ∧
      ∀ n, upPage (s.proc i).sz ≤ n → d.entry n = (s.proc i).pgdir.entry n := by
  obtain ⟨k1, hf, hki1⟩ := kfree_ok (by rw [hki]; exact hp.wmapinfoPage)
  obtain ⟨k2, hb, hki2⟩ := exitBlocks_ok hp maxWmmapInfo 0 k1
    (if (s.proc j).parent = some i then { s.proc j with parent := some s.initproc }
      else s.proc j).maps (by omega) (hki1.trans hki)
  obtain ⟨k3, d, hdealloc, hback⟩ := deallocuvm_ok him hki2 hd hsz
    (show 0#32 ≤ (s.proc i).sz by rw [BitVec.le_def]; exact Nat.zero_le _)
  refine ⟨k3, d, ?_, hback.image.trans hki2, hback.page, fun n hn => hback.kept n fun hmem => ?_⟩
  · unfold exit
    simp only [if_neg hi, hf, hpar, hb, hdealloc]
    rfl
  · have := (List.mem_range'_1.mp (List.mem_of_mem_filter hmem)).2
    rw [show upPage 0#32 = 0 from rfl] at this
    omega

end Xv6Mmap
