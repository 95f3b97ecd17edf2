import Xv6Mmap.Copyout
import Xv6Mmap.Sbrk
import Xv6Mmap.SysFile

/-!
# Running a program (`exec.c`, `elf.h`, `vm.c:196-218`)

`exec` builds a new address space beside the old one, from a file whose every field it has to
distrust, and gives it up at any of a dozen points with `goto bad`.

* The computation has a state of its own (`State`): the allocator, the variable `pgdir`, the file,
  and the addresses of the bytes that were loaded, which the code does not keep.
* The file is read through a `Reader` on a state `σ`. The part of `exec` that only reads is then the
  same whether `σ` is a file by itself or the whole file system (`Kernel`).
* `none` stands for `goto bad`; the label itself (`bad`) decides by `pgdir` and `ip`, as the code
  does.
* `begin_op` and `end_op` are what they do to `log.outstanding`, in a call that nobody interrupts.
-/

namespace Xv6Mmap.Exec

open Fs (DevIo FsM elfMagic elfhdrSize proghdrSize)

/-- `ELF_PROG_LOAD`. -/
def elfProgLoad : Word := 1#32
/-- `MAXARG`. -/
def maxArg : Nat := 32

/-- A `uint` at offset `k` of a header. -/
def uintAt (h : List Byte) (k : Nat) : Word := BitVec.ofNat 32 (Fs.word h k)

/-- The fields of `struct elfhdr` that `exec` reads. -/
structure ElfHdr where
  magic : Word
  entry : Word
  phoff : Word
  phnum : BitVec 16

def ElfHdr.ofBytes (h : List Byte) : ElfHdr where
  magic := uintAt h 0
  entry := uintAt h 24
  phoff := uintAt h 28
  phnum := (uintAt h 44).setWidth 16

/-- The fields of `struct proghdr` that `exec` reads. -/
structure ProgHdr where
  type : Word
  off : Word
  vaddr : Word
  filesz : Word
  memsz : Word

def ProgHdr.ofBytes (h : List Byte) : ProgHdr where
  type := uintAt h 0
  off := uintAt h 4
  vaddr := uintAt h 8
  filesz := uintAt h 16
  memsz := uintAt h 20

/-! ## The state -/

/-- `readi(ip, dst, off, n)`: the value returned and the bytes stored at `dst`. -/
abbrev Reader (σ : Type) := Nat → Nat → StateT σ (Except Halt) (Int × List Byte)

structure State (σ : Type) where
  kmem : Kmem
  /-- The variable `pgdir`, null until `setupkvm` has returned. -/
  pgdir : Option PgDir
  file : σ
  /-- The addresses of the bytes that came from the file. -/
  loaded : List Word

abbrev ExecM (σ : Type) := StateT (State σ) (Except Halt)

variable {σ α : Type}

/-- A function of the file system. -/
def onFile (m : StateT σ (Except Halt) α) : ExecM σ α := fun s =>
  match m s.file with
  | .error e => .error e
  | .ok (r, f) => .ok (r, { s with file := f })

/-- A function of `vm.c` on the address space that is being built. -/
def onDir (f : Kmem → PgDir → Except Halt (α × Kmem × PgDir)) : ExecM σ α := fun s =>
  match s.pgdir with
  | none => .error .badDeref
  | some d =>
    match f s.kmem d with
    | .error e => .error e
    | .ok (r, k, d) => .ok (r, { s with kmem := k, pgdir := some d })

/-! ## Loading the file -/

/-- `PTE_ADDR(*walkpgdir(pgdir, va, 0))`, with the panic of `loaduvm`. -/
def loadAddr (va : Word) (k : Kmem) (d : PgDir) : Except Halt (Word × Kmem × PgDir) :=
  if d.hasTab (vpn va) then .ok (pteAddr (d.entry (vpn va)), k, d)
  else .error (.panic "loaduvm: address should exist")

/-- `readi` has put the bytes `bs` of the file into the page at `pa`, which `va` is mapped to. -/
def fill (pa va : Word) (bs : List Byte) : ExecM σ Unit :=
  modify fun s =>
    { s with
      kmem := s.kmem.store (p2v pa) 0 bs
      loaded := (List.range bs.length).map (addr va) ++ s.loaded }

/-- The loop of `loaduvm` from `i` on. -/
def loaduvmLoop (rd : Reader σ) (va offset sz : Word) : Nat → Word → ExecM σ Bool
  | 0, _ => throw .deadlock
  | fuel + 1, i => do
    if i < sz then
      let pa ← onDir (loadAddr (va + i))
      let n := if sz - i < pgSize then sz - i else pgSize
      let (r, bs) ← onFile (rd (offset + i).toNat n.toNat)
      fill pa (va + i) bs
      if r ≠ n.toNat then return false else loaduvmLoop rd va offset sz fuel (i + pgSize)
    else return true

/-- `loaduvm(pgdir, addr, ip, offset, sz)`; `false` is `-1`. -/
def loaduvm (rd : Reader σ) (va offset sz : Word) : ExecM σ Bool :=
  if va.toNat % 4096 ≠ 0 then throw (.panic "loaduvm: addr must be page aligned")
  else loaduvmLoop rd va offset sz 1048577 0#32

/-- The body of the loop over the program headers, for one of type `ELF_PROG_LOAD`: the new `sz`. -/
def loadSegment (rd : Reader σ) (ph : ProgHdr) (sz : Word) : ExecM σ (Option Word) := do
  if ph.memsz < ph.filesz then return none
  else if ph.vaddr + ph.memsz < ph.vaddr then return none
  else
    let sz ← onDir fun k d => allocuvm k d sz (ph.vaddr + ph.memsz)
    if sz = 0#32 then return none
    else if ph.vaddr.toNat % 4096 ≠ 0 then return none
    else if ← loaduvm rd ph.vaddr ph.off ph.filesz then return some sz
    else return none

/-- The loop over the program headers, with `left` to go from offset `off` on. -/
def loadSegments (rd : Reader σ) : Nat → Word → Word → ExecM σ (Option Word)
  | 0, _, sz => return some sz
  | left + 1, off, sz => do
    let (r, bs) ← onFile (rd off.toNat proghdrSize)
    if r ≠ proghdrSize then return none
    else
      let ph := ProgHdr.ofBytes bs
      if ph.type ≠ elfProgLoad then loadSegments rd left (off + BitVec.ofNat 32 proghdrSize) sz
      else
        match ← loadSegment rd ph sz with
        | none => return none
        | some sz => loadSegments rd left (off + BitVec.ofNat 32 proghdrSize) sz

/-- `pgdir = setupkvm()`; `false` is the null pointer. -/
def setPgdir : ExecM σ Bool := fun s =>
  match setupkvm s.kmem with
  | .error e => .error e
  | .ok (d, k) => .ok (d.isSome, { s with kmem := k, pgdir := d })

/-- From the ELF header to the last segment: the header and `sz`. -/
def loadFile (rd : Reader σ) : ExecM σ (Option (ElfHdr × Word)) := do
  let (r, bs) ← onFile (rd 0 elfhdrSize)
  if r ≠ elfhdrSize then return none
  else
    let elf := ElfHdr.ofBytes bs
    if elf.magic ≠ BitVec.ofNat 32 elfMagic then return none
    else if ← setPgdir then
      match ← loadSegments rd elf.phnum.toNat elf.phoff 0#32 with
      | none => return none
      | some sz => return some (elf, sz)
    else return none

/-- Two pages at the next page boundary, the first inaccessible: the new `sz`. -/
def allocStack (sz : Word) : ExecM σ (Option Word) := do
  let sz := pgRoundUp sz
  let sz ← onDir fun k d => allocuvm k d sz (sz + 2#32 * pgSize)
  if sz = 0#32 then return none
  else
    onDir fun k d => (clearpteu d (sz - 2#32 * pgSize)).map fun d => ((), k, d)
    return some sz

/-- All that comes before the arguments. -/
def loadImage (rd : Reader σ) : ExecM σ (Option Word) := do
  match ← loadFile rd with
  | none => return none
  | some (_, sz) => allocStack sz

/-! ## The arguments -/

/-- `copyout(pgdir, va, p, len)` for the bytes `buf`. -/
def copyTo (va : Word) (buf : List Byte) : ExecM σ Bool :=
  onDir fun k d => (copyout k d va buf).map fun r => (r.1, r.2, d)

/-- Push the strings from number `argc` on below `sp`: the new `sp` and their addresses. -/
def pushStrings : List (List Byte) → Nat → Word → ExecM σ (Option (Word × List Word))
  | [], _, sp => return some (sp, [])
  | str :: rest, argc, sp => do
    if maxArg ≤ argc then return none
    else
      let sp := (sp - BitVec.ofNat 32 (str.length + 1)) &&& ~~~3#32
      if ← copyTo sp (str ++ [0#8]) then
        match ← pushStrings rest (argc + 1) sp with
        | none => return none
        | some (last, ptrs) => return some (last, sp :: ptrs)
      else return none

/-- The bytes of a `uint`. -/
def uintBytes (w : Word) : List Byte :=
  [w.setWidth 8, (w >>> 8).setWidth 8, (w >>> 16).setWidth 8, (w >>> 24).setWidth 8]

/-- The words of `ustack`, for the strings at `ptrs` above `sp`. -/
def ustack (sp : Word) (ptrs : List Word) : List Word :=
  0xFFFFFFFF#32 :: BitVec.ofNat 32 ptrs.length :: (sp - BitVec.ofNat 32 ((ptrs.length + 1) * 4)) ::
    (ptrs ++ [0#32])

/-- Push `argv` and the frame below `sz`: the final `sp`. -/
def pushArgs (argv : List (List Byte)) (sz : Word) : ExecM σ (Option Word) := do
  match ← pushStrings argv 0 sz with
  | none => return none
  | some (sp, ptrs) =>
    let final := sp - BitVec.ofNat 32 ((3 + ptrs.length + 1) * 4)
    if ← copyTo final ((ustack sp ptrs).flatMap uintBytes) then return some final else return none

/-! ## The whole call -/

/-- The process that calls `exec`: `p->name` and the registers of `p->tf` that it sets are not in
`Xv6Mmap.Proc`. -/
structure Caller where
  proc : Proc
  name : List Byte
  eip : Word
  esp : Word

/-- What `exec` works on besides memory. -/
structure Kernel where
  fs : Fs.State
  /-- `log.outstanding`. -/
  outstanding : Int
  caller : Caller
  /-- The variable `ip`. -/
  ip : Option (Fin ninode)

def onFs (m : FsM α) : ExecM Kernel α :=
  onFile fun s =>
    match m s.fs with
    | .error e => .error e
    | .ok (r, fs) => .ok (r, { s with fs := fs })

def setIp (ip : Option (Fin ninode)) : ExecM Kernel Unit :=
  modify fun s => { s with file := { s.file with ip := ip } }

def beginOp : ExecM Kernel Unit :=
  modify fun s => { s with file := { s.file with outstanding := s.file.outstanding + 1 } }

def endOp : ExecM Kernel Unit :=
  modify fun s => { s with file := { s.file with outstanding := s.file.outstanding - 1 } }

/-- `readi` from the inode `ip`. -/
def readIp (ip : Fin ninode) (io : DevIo) : Reader Kernel := fun off n s =>
  match Fs.readi ip off n io s.fs with
  | .error e => .error e
  | .ok (r, fs) => .ok (r, { s with fs := fs })

/-- `if(pgdir) freevm(pgdir)`. -/
def freePgdir : ExecM σ Unit := fun s =>
  match s.pgdir with
  | none => .ok ((), s)
  | some d =>
    match freevm s.kmem d with
    | .error e => .error e
    | .ok k => .ok ((), { s with kmem := k })

/-- `iunlockput(ip); end_op(); ip = 0`. -/
def putIp (ip : Fin ninode) : ExecM Kernel Unit := do
  onFs (Fs.iunlockput ip)
  endOp
  setIp none

/-- The label `bad`. -/
def bad : ExecM Kernel Int := do
  freePgdir
  match (← get).file.ip with
  | none => return -1
  | some ip =>
    onFs (Fs.iunlockput ip)
    endOp
    return -1

/-- What follows the last `/` of the path, as `safestrcpy(p->name, last, 16)` copies it. -/
def baseName (path : List Byte) : List Byte :=
  ((path.reverse.takeWhile (· ≠ Fs.slash)).reverse).take 15

/-- Commit to the user image. -/
def commit (path : List Byte) (elf : ElfHdr) (sz sp : Word) : ExecM Kernel Int := fun s =>
  match s.pgdir with
  | none => .error .badDeref
  | some d =>
    let old := s.file.caller
    let p := { old.proc with pgdir := d, sz := sz }
    match switchuvm p with
    | .error e => .error e
    | .ok () =>
      match freevm s.kmem old.proc.pgdir with
      | .error e => .error e
      | .ok k => .ok (0,
          { s with
            kmem := k
            file := { s.file with caller := ⟨p, baseName path, elf.entry, sp⟩ } })

/-- From where the file is loaded. -/
def runImage (path : List Byte) (argv : List (List Byte)) (elf : ElfHdr) (sz : Word) :
    ExecM Kernel Int := do
  match ← allocStack sz with
  | none => bad
  | some sz =>
    match ← pushArgs argv sz with
    | none => bad
    | some sp => commit path elf sz sp

/-- `exec(path, argv)` by process `p`, for strings without their final zero byte. -/
def exec (p : Fin nproc) (path : List Byte) (argv : List (List Byte)) (io : DevIo) :
    ExecM Kernel Int := do
  beginOp
  match ← onFs (Fs.namei p path) with
  | none =>
    endOp
    return -1
  | some ip =>
    onFs (Fs.ilock ip)
    modify fun s => { s with pgdir := none, loaded := [] }
    setIp (some ip)
    match ← loadFile (readIp ip io) with
    | none => bad
    | some (elf, sz) =>
      putIp ip
      runImage path argv elf sz

end Xv6Mmap.Exec
