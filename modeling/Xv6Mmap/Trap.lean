import Xv6Mmap.Vm

/-!
# A process and its pages (`proc.h`, `trap.c:82-136`, `sysfile.c:708-782`)

`Proc` is `struct proc`, less the fields no modelled function reads (`tf`, `context`, `chan`,
`cwd`, `name`). The pointers `p->wmapinfo` and `p->arr[i]` are set once, by `allocproc`; what they
point to is `maps`, and the pages they point into are `wmapinfoPage` and `arrPage`.

* `pgflt` is the `T_PGFLT` case of `trap` for a faulting address, `sysWunmap` is `sys_wunmap`.
* Both hand a range of user memory to a file: `fileread` fills the faulted page, `filewrite` saves
  the mapping. The file layer is an input, `FileIo`: the bytes a read delivers, if it returns, and
  whether a write reads the memory at all (`filewrite` returns at once on a file not open for
  writing).
* Touching an absent page during a write-back faults again inside the kernel (`touchPage`). If the
  mapping found there is a file mapping too, its read blocks on the inode lock that the write
  holds (`Halt.deadlock`), unless it is another inode (`FileIo.nested`).

Out of scope: the handler maps a second page for an address inside a page, and user memory reaches
through it whatever lies after the page from `kalloc`. Page tables, `p->arr[i]` and `p->wmapinfo` are
values here, so such writes do not change them; `Tables` has the page tables in memory. A reader
woken up later is not modelled: a read that sleeps is the end of the call.
-/

namespace Xv6Mmap

/-- `enum procstate`. -/
inductive ProcState where
  | unused | embryo | sleeping | runnable | running | zombie
  deriving DecidableEq, Repr

/-- `struct proc`. -/
structure Proc where
  sz : Word
  pgdir : PgDir
  kstack : Word
  state : ProcState
  pid : Nat
  parent : Option (Fin nproc)
  killed : Bool
  ofile : Nat → Option Nat
  maps : Maps
  arrPage : Nat → Word
  wmapinfoPage : Word

/-- A slot of `ptable` before its first use. -/
def Proc.unused : Proc where
  sz := 0#32
  pgdir := PgDir.empty 0#32
  kstack := 0#32
  state := .unused
  pid := 0
  parent := none
  killed := false
  ofile _ := none
  maps := Maps.init
  arrPage _ := 0#32
  wmapinfoPage := 0#32

/-! ## Files a mapping reaches -/

/-- What `p->ofile[fd]` yields: a null pointer, a file of `ftable`, or a word past the array. -/
inductive FileRef where
  | null
  | file (slot : Nat)
  | wild
  deriving DecidableEq, Repr

/-- `p->ofile[fd]`, with no check of `fd`. -/
def Proc.ofileAt (p : Proc) (fd : Word) : FileRef :=
  if 0 ≤ fd.toInt ∧ fd.toInt < nofile then
    match p.ofile fd.toNat with
    | none => .null
    | some slot => .file slot
  else .wild

/-- The file layer's side of a call. -/
structure FileIo where
  /-- The bytes `fileread` delivers; `none` when it sleeps, on an empty pipe or at the console. -/
  input : Option (List Byte)
  /-- `filewrite` gets as far as reading user memory. -/
  reads : Bool
  /-- The bytes a `fileread` made while `filewrite` runs delivers; `none` when it blocks. -/
  nested : Option (List Byte)

/-- The kernel address of the byte at user address `va`. -/
def pokeUser (k : Kmem) (d : PgDir) (va : Word) (b : Byte) : Kmem :=
  let page := p2v (pteAddr (d.entry (vpn va)))
  { k with mem := Function.update k.mem page (Function.update (k.mem page) (va.toNat % 4096) b) }

/-- Copy bytes to user memory from `va` on, as `readi` does. -/
def writeUser (d : PgDir) : Kmem → Word → List Byte → Except Halt Kmem
  | k, _, [] => .ok k
  | k, va, b :: bs =>
    if present (d.entry (vpn va)) then writeUser d (pokeUser k d va b) (va + 1#32) bs
    else .error .deadlock

/-! ## The page fault handler -/

/-- The first valid entry whose interval holds `va`. -/
def Maps.faultSlot (m : Maps) (va : Word) : Option Nat :=
  (List.range maxWmmapInfo).find? fun i =>
    (m.arr i).valid != 0#32 && decide ((m.arr i).start ≤ va) && decide (va ≤ (m.arr i).end_)

/-- The bookkeeping at the end of the handler. `leftmostLoadedAddr` is an `int`, but its
comparison with the `uint` fault address is unsigned. -/
def Maps.load (m : Maps) (location : Nat) (va : Word) : Maps :=
  { m with
    wmapinfo :=
      { m.wmapinfo with
        leftmostLoadedAddr :=
          if va < m.wmapinfo.leftmostLoadedAddr location then
            Function.update m.wmapinfo.leftmostLoadedAddr location va
          else m.wmapinfo.leftmostLoadedAddr
        nLoadedPages :=
          Function.update m.wmapinfo.nLoadedPages location
            (m.wmapinfo.nLoadedPages location + 1#32) } }

/-- `fileread` into the page just mapped, for a mapping that is not anonymous. -/
def loadFile (k : Kmem) (d : PgDir) (p : Proc) (mapping : MemBlock) (va : Word) (io : FileIo) :
    Except Halt Kmem :=
  if hasFlag mapping.flags mapAnonymous then .ok k
  else
    match p.ofileAt mapping.fd with
    | .file _ =>
      match io.input with
      | none => .error .blocked
      | some bytes => writeUser d k va (bytes.take 4096)
    | _ => .error .badDeref

/-- The `T_PGFLT` case of `trap` at fault address `va`. A fault outside every mapping prints
`Segmentation Fault` and returns. -/
def pgflt (k : Kmem) (p : Proc) (va : Word) (io : FileIo) : Except Halt (Kmem × Proc) :=
  match p.maps.faultSlot va with
  | none => .ok (k, p)
  | some location =>
    let mapping := p.maps.arr location
    match kalloc k (.fault mapping.rid) with
    | none => .error (.panic "kalloc")
    | some (mem, k) =>
      match mappages (k.memset mem 0#8) p.pgdir va pgSize (v2p mem) (pteW ||| pteU) with
      | .error e => .error e
      | .ok (mapped, k, d) =>
        match if mapped then .ok k else kfree k mem with
        | .error e => .error e
        | .ok k =>
          match loadFile k d p mapping va io with
          | .error e => .error e
          | .ok k => .ok (k, { p with pgdir := d, maps := p.maps.load location va })

/-! ## `sys_wunmap` -/

/-- `for (int va = leftmost; va < bound; va += PGSIZE) …`: clear and free every present page. -/
def unmapLoop (bound : Word) : Nat → Kmem → PgDir → Word → Except Halt (Kmem × PgDir)
  | 0, _, _, _ => .error .deadlock
  | fuel + 1, k, d, va =>
    if va.toInt < bound.toInt then
      let pte := d.entry (vpn va)
      if d.hasTab (vpn va) && present pte then
        match kfree k (p2v (pteAddr pte)) with
        | .error e => .error e
        | .ok k => unmapLoop bound fuel k (d.setEntry (vpn va) 0#32) (va + pgSize)
      else unmapLoop bound fuel k d (va + pgSize)
    else .ok (k, d)

/-- Where the unmapping loop of `sys_wunmap` starts. -/
def Maps.unmapFrom (m : Maps) (location : Nat) : Word := m.wmapinfo.leftmostLoadedAddr location

/-- Where it ends: `leftmostLoadedAddr + PGSIZE * n_loaded_pages`. -/
def Maps.unmapBound (m : Maps) (location : Nat) : Word :=
  m.wmapinfo.leftmostLoadedAddr location + pgSize * m.wmapinfo.nLoadedPages location

/-- The slot `sys_wunmap` works on. -/
def Maps.findStart (m : Maps) (addr : Word) : Option Nat :=
  (List.range m.total.toNat).find? fun i => (m.arr i).start == addr

/-- The first address that a copy of `n` bytes from `va` on touches in each page, in order. -/
def touched (va : Word) (n : Nat) : List Word :=
  if n = 0 then []
  else
    va :: (List.range ((va.toNat % 4096 + n + 4095) / 4096 - 1)).map fun j =>
      pgRoundDown va + BitVec.ofNat 32 (4096 * (j + 1))

/-- The kernel reads the user byte at `va` while `filewrite` holds the file's lock. -/
def touchPage (k : Kmem) (p : Proc) (va : Word) (io : FileIo) : Except Halt (Kmem × Proc) :=
  if present (p.pgdir.entry (vpn va)) then .ok (k, p)
  else
    match p.maps.faultSlot va with
    -- the handler returns without a mapping and the access faults again, for ever
    | none => .error .deadlock
    | some location =>
      match if hasFlag (p.maps.arr location).flags mapAnonymous then some [] else io.nested with
      | none => .error .deadlock
      | some input =>
        match pgflt k p va { io with input := some input } with
        | .error e => .error e
        | .ok (k, p) =>
          if present (p.pgdir.entry (vpn va)) then .ok (k, p) else .error .deadlock

def touchAll (io : FileIo) : List Word → Kmem → Proc → Except Halt (Kmem × Proc)
  | [], k, p => .ok (k, p)
  | va :: vas, k, p =>
    match touchPage k p va io with
    | .error e => .error e
    | .ok (k, p) => touchAll io vas k p

/-- The write-back of a mapping that is neither anonymous nor private. -/
def writeBack (k : Kmem) (p : Proc) (toFree : MemBlock) (io : FileIo) :
    Except Halt (Kmem × Proc) :=
  if hasFlag toFree.flags mapAnonymous || hasFlag toFree.flags mapPrivate then .ok (k, p)
  else
    match p.ofileAt toFree.fd with
    | .file _ =>
      if io.reads then touchAll io (touched toFree.start toFree.length.toInt.toNat) k p
      else .ok (k, p)
    | _ => .error .badDeref

/-- `sys_wunmap()`. -/
def sysWunmap (k : Kmem) (p : Proc) (addr : Word) (io : FileIo) :
    Except Halt (Word × Kmem × Proc) :=
  if addr.toNat % 4096 ≠ 0 then .ok (failed, k, p)
  else
    match p.maps.findStart addr with
    | none => .ok (failed, k, p)
    | some location =>
      let toFree := p.maps.arr location
      match writeBack k p toFree io with
      | .error e => .error e
      | .ok (k, p) =>
        match unmapLoop (p.maps.unmapBound location) 1048577 k p.pgdir
            (p.maps.unmapFrom location) with
        | .error e => .error e
        | .ok (k, d) =>
          let (result, m) := removeMapping p.maps toFree.start
          .ok (if result then success else failed, k, { p with pgdir := d, maps := m })

end Xv6Mmap
