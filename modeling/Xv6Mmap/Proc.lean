import Mathlib.Data.List.FinRange
import Xv6Mmap.Trap

/-!
# Processes (`proc.c`)

`Sys` is the machine as the memory-mapping code sees it: the page allocator and the process
table. `allocproc`, `userinit`, `fork`, `exit` and `wait` are the functions of `proc.c`; sections
under `ptable.lock` are atomic, and the scheduler, the wakeups and the file and inode reference
counts that `fork` and `exit` also touch are left out.

`step` is one complete system call or page fault of one process. A panic, a deadlock or a null
dereference has no successor state, and neither has a `wait` that would sleep: a run is a sequence
of calls that returned (for `exit`, that reached the scheduler).
-/

namespace Xv6Mmap

open Function (update)

structure Sys where
  kmem : Kmem
  proc : Fin nproc → Proc
  nextpid : Nat
  initproc : Fin nproc

/-- The process can make system calls. -/
def ProcState.live : ProcState → Bool
  | .sleeping | .runnable | .running => true
  | _ => false

def Sys.setProc (s : Sys) (k : Kmem) (i : Fin nproc) (p : Proc) : Sys :=
  { s with kmem := k, proc := update s.proc i p }

/-! ## `allocproc` and `userinit` -/

/-- The loop that allocates the sixteen `mem_block`s, from slot `i`. -/
def allocBlocks : Nat → Nat → Kmem → (Nat → Word) → Except Halt (Kmem × (Nat → Word))
  | 0, _, k, pages => .ok (k, pages)
  | n + 1, i, k, pages =>
    match kalloc k .memBlock with
    | none => .error (.panic "kalloc()")
    | some (v, k) => allocBlocks n (i + 1) k (update pages i v)

/-- The first `UNUSED` slot of `ptable`. -/
def Sys.unusedSlot (s : Sys) : Option (Fin nproc) :=
  (List.finRange nproc).find? fun i => (s.proc i).state == .unused

/-- `allocproc()`. -/
def allocproc (s : Sys) : Except Halt (Option (Fin nproc) × Sys) :=
  match s.unusedSlot with
  | none => .ok (none, s)
  | some i =>
    let p := { s.proc i with state := .embryo, pid := s.nextpid }
    let s := { s with nextpid := s.nextpid + 1 }
    match kalloc s.kmem .kstack with
    | none => .ok (none, s.setProc s.kmem i { p with kstack := 0#32, state := .unused })
    | some (kstack, k) =>
      match kalloc k .wmapinfo with
      | none => .error (.panic "kalloc()")
      | some (wmap, k) =>
        match allocBlocks maxWmmapInfo 0 k p.arrPage with
        | .error e => .error e
        | .ok (k, pages) =>
          .ok (some i, s.setProc k i
            { p with kstack := kstack, maps := Maps.init, wmapinfoPage := wmap, arrPage := pages })

/-- The process table at boot. -/
def Sys.boot (k : Kmem) (i : Fin nproc) : Sys where
  kmem := k
  proc _ := Proc.unused
  nextpid := 1
  initproc := i

/-- `userinit()`, on an initcode that fills `init`. -/
def userinit (k : Kmem) (init : Page) : Except Halt Sys :=
  match allocproc (Sys.boot k ⟨0, by decide⟩) with
  | .error e => .error e
  | .ok (none, _) => .error .badDeref
  | .ok (some i, s) =>
    match setupkvm s.kmem with
    | .error e => .error e
    | .ok (none, _) => .error (.panic "userinit: out of memory?")
    | .ok (some d, k) =>
      match inituvm k d init with
      | .error e => .error e
      | .ok (k, d) =>
        .ok { s.setProc k i { s.proc i with pgdir := d, sz := pgSize, state := .runnable } with
              initproc := i }

/-! ## `fork` -/

/-- The child's table gets the parent's entry `i`, and counts it. -/
def Maps.inherit (m parent : Maps) (i : Nat) : Maps :=
  { m with
    arr := update m.arr i (parent.arr i)
    wmapinfo :=
      { totalMmaps := m.wmapinfo.totalMmaps + 1
        addr := update m.wmapinfo.addr i (parent.wmapinfo.addr i)
        length := update m.wmapinfo.length i (parent.wmapinfo.length i)
        nLoadedPages :=
          update m.wmapinfo.nLoadedPages i (parent.wmapinfo.nLoadedPages i)
        leftmostLoadedAddr :=
          update m.wmapinfo.leftmostLoadedAddr i
            (parent.wmapinfo.leftmostLoadedAddr i) } }

/-- A `MAP_PRIVATE` entry: a fresh page for every page of the interval, filled from whatever the
parent's entry points to. -/
def privateLoop (parent : PgDir) (b : MemBlock) : Nat → Kmem → PgDir → Word →
    Except Halt (Kmem × PgDir)
  | 0, _, _, _ => .error .deadlock
  | fuel + 1, k, d, va =>
    if va < b.end_ then
      match kalloc k (.fork b.rid) with
      | none => .error (.panic "kalloc\n")
      | some (mem, k) =>
        if parent.hasTab (vpn va) then
          match mappages (k.memmove mem (p2v (pteAddr (parent.entry (vpn va))))) d va pgSize
              (v2p mem) (pteW ||| pteU) with
          | .error e => .error e
          | .ok (true, k, d) => privateLoop parent b fuel k d (va + pgSize)
          | .ok (false, k, d) =>
            match kfree k mem with
            | .error e => .error e
            | .ok k => privateLoop parent b fuel k d (va + pgSize)
        else .error .badDeref
    else .ok (k, d)

/-- A `MAP_SHARED` entry: the child's page table points to the parent's pages, present or not. -/
def sharedLoop (parent : PgDir) (b : MemBlock) : Nat → Kmem → PgDir → Word →
    Except Halt (Kmem × PgDir)
  | 0, _, _, _ => .error .deadlock
  | fuel + 1, k, d, va =>
    if va < b.end_ then
      if parent.hasTab (vpn va) then
        let pa := pteAddr (parent.entry (vpn va))
        match mappages k d va pgSize pa (pteW ||| pteU) with
        | .error e => .error e
        | .ok (true, k, d) => sharedLoop parent b fuel k d (va + pgSize)
        | .ok (false, k, d) =>
          -- the physical address itself, not `P2V` of it
          match kfree k pa with
          | .error e => .error e
          | .ok k => sharedLoop parent b fuel k d (va + pgSize)
      else .error .badDeref
    else .ok (k, d)

/-- One turn of the inheritance loop of `fork`. -/
def forkEntry (cur np : Proc) (k : Kmem) (i : Nat) : Except Halt (Kmem × Proc) :=
  let b := cur.maps.arr i
  if b.valid = 0#32 then .ok (k, np)
  else
    let np' := { np with maps := np.maps.inherit cur.maps i }
    if hasFlag b.flags mapPrivate then
      match privateLoop cur.pgdir b 1048577 k np.pgdir b.start with
      | .error e => .error e
      | .ok (k, d) => .ok (k, { np' with pgdir := d })
    else if hasFlag b.flags mapShared then
      match sharedLoop cur.pgdir b 1048577 k np.pgdir b.start with
      | .error e => .error e
      | .ok (k, d) => .ok (k, { np' with pgdir := d })
    else .ok (k, np)

/-- The inheritance loop of `fork` over the slots `is`. -/
def forkEntries (cur : Proc) : List Nat → Kmem → Proc → Except Halt (Kmem × Proc)
  | [], k, np => .ok (k, np)
  | i :: is, k, np =>
    match forkEntry cur np k i with
    | .error e => .error e
    | .ok (k, np) => forkEntries cur is k np

/-- `fork()` by slot `i`: the child's slot, or `none` for `-1`. -/
def fork (s : Sys) (i : Fin nproc) : Except Halt (Option (Fin nproc) × Sys) :=
  match allocproc s with
  | .error e => .error e
  | .ok (none, s) => .ok (none, s)
  | .ok (some j, s) =>
    let cur := s.proc i
    let np := s.proc j
    match copyuvm s.kmem cur.pgdir cur.sz with
    | .error e => .error e
    | .ok (none, k) =>
      match kfree k np.kstack with
      | .error e => .error e
      | .ok k => .ok (none, s.setProc k j { np with kstack := 0#32, state := .unused })
    | .ok (some d, k) =>
      let np :=
        { np with
          pgdir := d, sz := cur.sz, parent := some i
          ofile := fun fd => (cur.ofile fd).or (np.ofile fd) }
      match forkEntries cur (List.range maxWmmapInfo) k np with
      | .error e => .error e
      | .ok (k, np) => .ok (some j, s.setProc k j { np with state := .runnable })

/-! ## `exit` and `wait` -/

/-- The loop of `exit` over the `mem_block`s from slot `i`: free the ones that are valid with one
reference, and drop a reference of the parent's entry whatever it is. -/
def exitBlocks (p : Proc) : Nat → Nat → Kmem → Maps → Except Halt (Kmem × Maps)
  | 0, _, k, parent => .ok (k, parent)
  | n + 1, i, k, parent =>
    match
      if (p.maps.arr i).valid = 1#32 ∧ (p.maps.arr i).ref = 1#32 then kfree k (p.arrPage i)
      else .ok k with
    | .error e => .error e
    | .ok k => exitBlocks p n (i + 1) k (parent.unref i)

/-- `exit()` by slot `i`, up to the scheduler. -/
def exit (s : Sys) (i : Fin nproc) : Except Halt Sys :=
  if i = s.initproc then .error (.panic "init exiting")
  else
    let cur := s.proc i
    let proc := fun j =>
      if (s.proc j).parent = some i then { s.proc j with parent := some s.initproc } else s.proc j
    match kfree s.kmem cur.wmapinfoPage with
    | .error e => .error e
    | .ok k =>
      match cur.parent with
      | none => .error .badDeref
      | some j =>
        match exitBlocks cur maxWmmapInfo 0 k (proc j).maps with
        | .error e => .error e
        | .ok (k, m) =>
          match deallocuvm k cur.pgdir cur.sz 0#32 with
          | .error e => .error e
          | .ok (_, k, d) =>
            let proc := update proc j { proc j with maps := m }
            .ok { s with
              kmem := k
              proc := update proc i
                { proc i with ofile := fun _ => none, pgdir := d, state := .zombie } }

/-- `wait()` by slot `i`: the slot it reaped, or `none` for `-1`. -/
def wait (s : Sys) (i : Fin nproc) : Except Halt (Option (Fin nproc) × Sys) :=
  match (List.finRange nproc).find? fun j =>
      (s.proc j).parent == some i && (s.proc j).state == .zombie with
  | some j =>
    let p := s.proc j
    match kfree s.kmem p.kstack with
    | .error e => .error e
    | .ok k =>
      match freevm k p.pgdir with
      | .error e => .error e
      | .ok k =>
        .ok (some j, s.setProc k j
          { p with kstack := 0#32, pid := 0, parent := none, killed := false, state := .unused })
  | none =>
    if ((List.finRange nproc).any fun j => (s.proc j).parent == some i) && !(s.proc i).killed then
      .error .blocked
    else .ok (none, s)

/-! ## Runs -/

/-- A call that works on the caller's own tables. -/
inductive Call where
  | wmap (addr length flags fd : Word)
  | wunmap (addr : Word) (io : FileIo)
  | wremap (oldaddr oldsize newsize flag : Word) (oob : MemBlock)
  | fault (va : Word) (io : FileIo)

/-- A call by process `p`: its return value (`SUCCESS` for a fault) and the new state. -/
def call (k : Kmem) (p : Proc) : Call → Except Halt (Word × Kmem × Proc)
  | .wmap addr length flags fd =>
    let (r, m) := sysWmap p.pid p.maps addr length flags fd
    .ok (r, k, { p with maps := m })
  | .wunmap addr io => sysWunmap k p addr io
  | .wremap oldaddr oldsize newsize flag oob =>
    let (r, m) := sysWremap p.maps oob oldaddr oldsize newsize flag
    .ok (r, k, { p with maps := m })
  | .fault va io =>
    match pgflt k p va io with
    | .error e => .error e
    | .ok (k, p) => .ok (success, k, p)

/-- A running process with the table `allocproc` gives it. -/
def Proc.fresh (pid : Nat) : Proc := { Proc.unused with state := .running, pid := pid }

/-- An allocator with no page left. -/
def Kmem.exhausted : Kmem := ⟨⟨0#32, 0#32⟩, [], fun _ _ => 0#8, []⟩

/-- A call as a step of a process on its own. -/
def callStep (s : Kmem × Proc) (c : Call) : Except Halt (Kmem × Proc) :=
  match call s.1 s.2 c with
  | .error e => .error e
  | .ok (_, k, p) => .ok (k, p)

/-- What a process does next. -/
inductive Action where
  | call (c : Call)
  | fork
  | exit
  | wait

/-- One complete call by one process. -/
def step (s : Sys) (a : Fin nproc × Action) : Except Halt Sys :=
  if (s.proc a.1).state.live then
    match a.2 with
    | .call c =>
      match call s.kmem (s.proc a.1) c with
      | .error e => .error e
      | .ok (_, k, p) => .ok (s.setProc k a.1 p)
    | .fork =>
      match fork s a.1 with
      | .error e => .error e
      | .ok (_, s) => .ok s
    | .exit => exit s a.1
    | .wait =>
      match wait s a.1 with
      | .error e => .error e
      | .ok (_, s) => .ok s
  else .error .blocked

end Xv6Mmap
