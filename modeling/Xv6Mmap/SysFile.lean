import Xv6Mmap.Fs

/-!
# Files and the system calls on them (`file.c`, `sysfile.c:22-446`, `exec.c`, `proc.c:288-510`)

The system calls of a process `p` in `FsM`, each from its entry to its return. What the file system
does not decide is an argument:

* a string argument is `none` when `argstr` finds it outside the process's memory (`argstr`);
* a read from the console or a pipe, and the value of a write to a pipe, come as a `DevIo`; the
  bytes in a pipe are those of another model, here a pipe is only what its two files refer to;
* whether memory can be allocated comes as a flag (`pipealloc`, `exec`, `fork`). Of `exec` and
  `fork` only the part that touches files and inodes is here.

A process that runs or could run is `live`. `Call` collects the calls, and `step` is one of them,
made by a live process.
-/

namespace Xv6Mmap.Fs

def getFile (f : Fin nfile) : FsM File := return (← get).file f

def setFile (f : Fin nfile) (x : File) : FsM Unit :=
  modify fun s => { s with file := Function.update s.file f x }

def getProc (p : Fin nproc) : FsM Proc := return (← get).proc p

def setProc (p : Fin nproc) (x : Proc) : FsM Unit :=
  modify fun s => { s with proc := Function.update s.proc p x }

/-! ## Files -/

/-- `filealloc()`. -/
def filealloc : FsM (Option (Fin nfile)) := do
  let s ← get
  match (List.finRange nfile).find? fun f => decide ((s.file f).ref = 0) with
  | some f =>
    setFile f { s.file f with ref := 1 }
    return some f
  | none => return none

/-- `filedup(f)`. -/
def filedup (f : Fin nfile) : FsM Unit := do
  let x ← getFile f
  if x.ref < 1 then throw (.panic "filedup")
  else setFile f { x with ref := x.ref + 1 }

/-- `fileclose(f)`. -/
def fileclose (f : Fin nfile) : FsM Unit := do
  let x ← getFile f
  if x.ref < 1 then throw (.panic "fileclose")
  else if 0 < x.ref - 1 then setFile f { x with ref := x.ref - 1 }
  else
    setFile f { x with ref := 0, kind := .none }
    if x.kind = .inode then iput x.ip else return ()

/-- `fileread(f, addr, n)`: the value returned and the bytes stored at `addr`. -/
def fileread (f : Fin nfile) (n : Nat) (io : DevIo) : FsM (Int × List Byte) := do
  let x ← getFile f
  if !x.readable then return (-1, [])
  else
    match x.kind with
    | .pipe => return (io.ret, io.input)
    | .inode =>
      ilock x.ip
      let (r, bytes) ← readi x.ip x.off n io
      when (0 < r) (setFile f { x with off := x.off + r.toNat })
      iunlock x.ip
      return (r, bytes)
    | .none => throw (.panic "fileread")

/-- `max` in `filewrite`. -/
def maxWrite : Nat := (10 - 1 - 1 - 2) / 2 * 512

/-- The loop of `filewrite`, with the bytes `src` to go: whether it got to the end. -/
def filewriteLoop (f : Fin nfile) : Nat → List Byte → FsM Bool
  | 0, _ => throw .deadlock
  | fuel + 1, src =>
    if src = [] then return true
    else do
      let n1 := min src.length maxWrite
      let x ← getFile f
      ilock x.ip
      let r ← writei x.ip x.off (src.take n1)
      when (0 < r) (setFile f { x with off := x.off + r.toNat })
      iunlock x.ip
      if r < 0 then return false
      else if r ≠ n1 then throw (.panic "short filewrite")
      else filewriteLoop f fuel (src.drop n1)

/-- `filewrite(f, addr, n)`. -/
def filewrite (f : Fin nfile) (src : List Byte) (io : DevIo) : FsM Int := do
  let x ← getFile f
  if !x.writable then return -1
  else
    match x.kind with
    | .pipe => return io.ret
    | .inode =>
      if ← filewriteLoop f (src.length + 1) src then return src.length else return -1
    | .none => throw (.panic "filewrite")

/-! ## Descriptors -/

/-- `argstr`: a string is its bytes up to the first zero byte. -/
def argstr (arg : Option (List Byte)) : Option (List Byte) := arg.map (List.takeWhile (· ≠ 0#8))

/-- `argfd`. -/
def argfd (p : Fin nproc) (fd : Word) : FsM (Option (Fin nofile × Fin nfile)) := do
  let x ← getProc p
  if h : 0 ≤ fd.toInt ∧ fd.toNat < nofile then
    match x.ofile ⟨fd.toNat, h.2⟩ with
    | some f => return some (⟨fd.toNat, h.2⟩, f)
    | none => return none
  else return none

/-- `p->ofile[fd] = f`. -/
def setOfile (p : Fin nproc) (fd : Fin nofile) (f : Option (Fin nfile)) : FsM Unit := do
  let x ← getProc p
  setProc p { x with ofile := Function.update x.ofile fd f }

/-- `fdalloc(f)`. -/
def fdalloc (p : Fin nproc) (f : Fin nfile) : FsM (Option (Fin nofile)) := do
  let x ← getProc p
  match (List.finRange nofile).find? fun fd => (x.ofile fd).isNone with
  | some fd =>
    setOfile p fd (some f)
    return some fd
  | none => return none

/-- `sys_dup()`. -/
def sysDup (p : Fin nproc) (fd : Word) : FsM Int := do
  match ← argfd p fd with
  | none => return -1
  | some (_, f) =>
    match ← fdalloc p f with
    | none => return -1
    | some new =>
      filedup f
      return new.val

/-- `sys_read()` of `n` bytes. -/
def sysRead (p : Fin nproc) (fd : Word) (n : Option Nat) (io : DevIo) : FsM (Int × List Byte) := do
  match ← argfd p fd, n with
  | some (_, f), some n => fileread f n io
  | _, _ => return (-1, [])

/-- `sys_write()`. -/
def sysWrite (p : Fin nproc) (fd : Word) (src : Option (List Byte)) (io : DevIo) : FsM Int := do
  match ← argfd p fd, src with
  | some (_, f), some src => filewrite f src io
  | _, _ => return -1

/-- `sys_close()`. -/
def sysClose (p : Fin nproc) (fd : Word) : FsM Int := do
  match ← argfd p fd with
  | none => return -1
  | some (fd, f) =>
    setOfile p fd none
    fileclose f
    return 0

/-! ## Links -/

/-- `ip->nlink += n; iupdate(ip)`. -/
def addNlink (ip : Fin ninode) (n : Int) : FsM Unit := do
  let x ← getInode ip
  setCopy ip { x.copy with nlink := x.copy.nlink + n }
  iupdate ip

/-- The label `bad` of `sys_link`. -/
def sysLinkBad (ip : Fin ninode) : FsM Int := do
  ilock ip
  addNlink ip (-1)
  iunlockput ip
  return -1

/-- `sys_link()` from where the link count is raised. -/
def linkRaised (p : Fin nproc) (ip : Fin ninode) (new : List Byte) : FsM Int := do
  match ← nameiparent p new with
  | none => sysLinkBad ip
  | some (dp, name) =>
    ilock dp
    if ← dirlink dp name (← getInode ip).inum then
      iunlockput dp
      iput ip
      return 0
    else
      iunlockput dp
      sysLinkBad ip

/-- `sys_link()` for strings that were fetched. -/
def link (p : Fin nproc) (old new : List Byte) : FsM Int := do
  match ← namei p old with
  | none => return -1
  | some ip =>
    ilock ip
    if (← getInode ip).copy.type = some .dir then
      iunlockput ip
      return -1
    else
      addNlink ip 1
      iunlock ip
      linkRaised p ip new

/-- `sys_link()`. -/
def sysLink (p : Fin nproc) (old new : Option (List Byte)) : FsM Int :=
  match argstr old, argstr new with
  | some old, some new => link p old new
  | _, _ => return -1

/-- The loop of `isdirempty` from `off` on. -/
def isdiremptyLoop (dp : Fin ninode) : Nat → Nat → FsM Bool
  | 0, _ => throw .deadlock
  | fuel + 1, off => do
    if off < (← getInode dp).copy.size then
      let de ← readDirent dp off "isdirempty: readi"
      if deInum de ≠ 0 then return false else isdiremptyLoop dp fuel (off + deSize)
    else return true

/-- `isdirempty(dp)`. -/
def isdirempty (dp : Fin ninode) : FsM Bool := do
  isdiremptyLoop dp ((← getInode dp).copy.size + 1) (2 * deSize)

def dot : List Byte := [46#8]
def dotdot : List Byte := [46#8, 46#8]

/-- The label `bad` of `sys_unlink`. -/
def sysUnlinkBad (dp : Fin ninode) : FsM Int := do
  iunlockput dp
  return -1

/-- Not `ip->type == T_DIR && !isdirempty(ip)`. -/
def removable (ip : Fin ninode) : FsM Bool := do
  if (← getInode ip).copy.type = some .dir then isdirempty ip else return true

/-- `sys_unlink()` from where the entry is cleared. -/
def unlinkCleared (dp ip : Fin ninode) : FsM Int := do
  when ((← getInode ip).copy.type = some .dir) (addNlink dp (-1))
  iunlockput dp
  addNlink ip (-1)
  iunlockput ip
  return 0

/-- `sys_unlink()` from where both inodes are locked. -/
def unlinkLocked (dp ip : Fin ninode) (off : Nat) : FsM Int := do
  let x ← getInode ip
  if x.copy.nlink < 1 then throw (.panic "unlink: nlink < 1")
  else
    if !(← removable ip) then
      iunlockput ip
      sysUnlinkBad dp
    else
      let r ← writei dp off (List.replicate deSize 0#8)
      if r ≠ deSize then throw (.panic "unlink: writei") else unlinkCleared dp ip

/-- `sys_unlink()` for a string that was fetched. -/
def unlink (p : Fin nproc) (path : List Byte) : FsM Int := do
  match ← nameiparent p path with
  | none => return -1
  | some (dp, name) =>
    ilock dp
    if namecmp name dot = true ∨ namecmp name dotdot = true then sysUnlinkBad dp
    else
      match ← dirlookup dp name with
      | none => sysUnlinkBad dp
      | some (ip, off) =>
        ilock ip
        unlinkLocked dp ip off

/-- `sys_unlink()`. -/
def sysUnlink (p : Fin nproc) (path : Option (List Byte)) : FsM Int :=
  match argstr path with
  | some path => unlink p path
  | none => return -1

/-! ## Creating -/

/-- A `dirlink` that panics where it fails. -/
def mustLink (dp : Fin ninode) (name : List Byte) (inum : Nat) (msg : String) : FsM Unit := do
  if ← dirlink dp name inum then return () else throw (.panic msg)

/-- `create` of a directory: its entries `.` and `..`. -/
def createDots (dp ip : Fin ninode) : FsM Unit := do
  addNlink dp 1
  mustLink ip dot (← getInode ip).inum "create dots"
  mustLink ip dotdot (← getInode dp).inum "create dots"

/-- `create` from where `ialloc` has returned. -/
def createNew (dp ip : Fin ninode) (name : List Byte) (type : FileType) (major minor : BitVec 16) :
    FsM Unit := do
  ilock ip
  let x ← getInode ip
  setCopy ip { x.copy with major := major, minor := minor, nlink := 1 }
  iupdate ip
  when (type = .dir) (createDots dp ip)
  mustLink dp name (← getInode ip).inum "create: dirlink"
  iunlockput dp

/-- `create(path, type, major, minor)`. -/
def create (p : Fin nproc) (path : List Byte) (type : FileType) (major minor : BitVec 16) :
    FsM (Option (Fin ninode)) := do
  match ← nameiparent p path with
  | none => return none
  | some (dp, name) =>
    ilock dp
    match ← dirlookup dp name with
    | some (ip, _) =>
      iunlockput dp
      ilock ip
      if type = .file ∧ (← getInode ip).copy.type = some .file then return some ip
      else
        iunlockput ip
        return none
    | none =>
      let ip ← ialloc type
      createNew dp ip name type major minor
      return some ip

/-- `sys_open()` from where the inode is locked. -/
def openLocked (p : Fin nproc) (ip : Fin ninode) (omode : Word) : FsM Int := do
  match ← filealloc with
  | none =>
    iunlockput ip
    return -1
  | some f =>
    match ← fdalloc p f with
    | none =>
      fileclose f
      iunlockput ip
      return -1
    | some fd =>
      iunlock ip
      let x ← getFile f
      setFile f
        { x with
          kind := .inode
          ip := ip
          off := 0
          readable := !hasFlag omode oWronly
          writable := hasFlag omode oWronly || hasFlag omode oRdwr }
      return fd.val

/-- `sys_open()` for a string that was fetched. -/
def open_ (p : Fin nproc) (path : List Byte) (omode : Word) : FsM Int := do
  if hasFlag omode oCreate then
    match ← create p path .file 0#16 0#16 with
    | none => return -1
    | some ip => openLocked p ip omode
  else
    match ← namei p path with
    | none => return -1
    | some ip =>
      ilock ip
      if (← getInode ip).copy.type = some .dir ∧ omode ≠ 0#32 then
        iunlockput ip
        return -1
      else openLocked p ip omode

/-- `sys_open()`. -/
def sysOpen (p : Fin nproc) (path : Option (List Byte)) (omode : Word) : FsM Int :=
  match argstr path with
  | some path => open_ p path omode
  | none => return -1

/-- The end of `sys_mkdir` and `sys_mknod`. -/
def createAndPut (p : Fin nproc) (path : List Byte) (type : FileType) (major minor : BitVec 16) :
    FsM Int := do
  match ← create p path type major minor with
  | none => return -1
  | some ip =>
    iunlockput ip
    return 0

/-- `sys_mkdir()`. -/
def sysMkdir (p : Fin nproc) (path : Option (List Byte)) : FsM Int :=
  match argstr path with
  | some path => createAndPut p path .dir 0#16 0#16
  | none => return -1

/-- `sys_mknod()`; `create` takes the device numbers as `short`. -/
def sysMknod (p : Fin nproc) (path : Option (List Byte)) (major minor : Word) : FsM Int :=
  match argstr path with
  | some path => createAndPut p path .dev (major.setWidth 16) (minor.setWidth 16)
  | none => return -1

/-- `sys_chdir()` for a string that was fetched. -/
def chdir (p : Fin nproc) (path : List Byte) : FsM Int := do
  match ← namei p path with
  | none => return -1
  | some ip =>
    ilock ip
    if (← getInode ip).copy.type ≠ some .dir then
      iunlockput ip
      return -1
    else
      iunlock ip
      match (← getProc p).cwd with
      | none => throw .badDeref
      | some cwd =>
        iput cwd
        let x ← getProc p
        setProc p { x with cwd := some ip }
        return 0

/-- `sys_chdir()`. -/
def sysChdir (p : Fin nproc) (path : Option (List Byte)) : FsM Int :=
  match argstr path with
  | some path => chdir p path
  | none => return -1

/-! ## Pipes -/

/-- `pipealloc(&f0, &f1)`; `mem` is whether `kalloc` returns a page. -/
def pipealloc (mem : Bool) : FsM (Option (Fin nfile × Fin nfile)) := do
  match ← filealloc with
  | none => return none
  | some f0 =>
    match ← filealloc with
    | none =>
      fileclose f0
      return none
    | some f1 =>
      if !mem then
        fileclose f0
        fileclose f1
        return none
      else
        let x ← getFile f0
        setFile f0 { x with kind := .pipe, readable := true, writable := false }
        let x ← getFile f1
        setFile f1 { x with kind := .pipe, readable := false, writable := true }
        return some (f0, f1)

/-- `sys_pipe()`; `arg` is whether the array for the descriptors is the process's. -/
def sysPipe (p : Fin nproc) (arg mem : Bool) : FsM Int := do
  if !arg then return -1
  else
    match ← pipealloc mem with
    | none => return -1
    | some (rf, wf) =>
      match ← fdalloc p rf with
      | none =>
        fileclose rf
        fileclose wf
        return -1
      | some fd0 =>
        match ← fdalloc p wf with
        | none =>
          setOfile p fd0 none
          fileclose rf
          fileclose wf
          return -1
        | some _ => return 0

/-! ## Processes -/

/-- `ELF_MAGIC`. -/
def elfMagic : Nat := 0x464C457F
/-- `sizeof(struct elfhdr)`. -/
def elfhdrSize : Nat := 52
/-- `sizeof(struct proghdr)`. -/
def proghdrSize : Nat := 32

/-- A `uint` at offset `k` of a header. -/
def word (h : List Byte) (k : Nat) : Nat := wordAt (fun j => h.getD (k + j) 0#8) 0

/-- Where `exec` needs memory: for the page table, for a segment, and for the rest. -/
structure ExecMem where
  setupkvm : Bool
  allocuvm : Nat → Bool
  stack : Bool

/-- `loaduvm(pgdir, addr, ip, offset, sz)` from `i` on; `false` is `-1`. -/
def loaduvm (ip : Fin ninode) (offset sz : Nat) (io : DevIo) : Nat → Nat → FsM Bool
  | 0, _ => throw .deadlock
  | fuel + 1, i => do
    if i < sz then
      let n := min (sz - i) 4096
      let (r, _) ← readi ip ((offset + i) % 2 ^ 32) n io
      if r ≠ n then return false else loaduvm ip offset sz io fuel (i + 4096)
    else return true

/-- The loop of `exec` over the program headers from header `i` on; `false` is `goto bad`. -/
def loadSegments (ip : Fin ninode) (phoff : Nat) (mem : ExecMem) (io : DevIo) :
    Nat → Nat → FsM Bool
  | 0, _ => return true
  | left + 1, i => do
    let (r, ph) ← readi ip ((phoff + proghdrSize * i) % 2 ^ 32) proghdrSize io
    if r ≠ proghdrSize then return false
    else if word ph 0 ≠ 1 then loadSegments ip phoff mem io left (i + 1)
    else if word ph 20 < word ph 16 ∨ 2 ^ 32 ≤ word ph 8 + word ph 20 ∨ !mem.allocuvm i ∨
        word ph 8 % 4096 ≠ 0 then return false
    else if ← loaduvm ip (word ph 4) (word ph 16) io (word ph 16 / 4096 + 2) 0 then
      loadSegments ip phoff mem io left (i + 1)
    else return false

/-- `exec(path, argv)`, as far as it touches the inode. -/
def exec (p : Fin nproc) (path : List Byte) (mem : ExecMem) (io : DevIo) : FsM Int := do
  match ← namei p path with
  | none => return -1
  | some ip =>
    ilock ip
    let (r, elf) ← readi ip 0 elfhdrSize io
    let loaded ←
      if r ≠ elfhdrSize ∨ word elf 0 ≠ elfMagic ∨ !mem.setupkvm then pure false
      else loadSegments ip (word elf 28) mem io (word elf 44 % 2 ^ 16) 0
    iunlockput ip
    if loaded && mem.stack then return 0 else return -1

/-- `sys_exec()`; `args` is whether the argument strings were fetched. -/
def sysExec (p : Fin nproc) (path : Option (List Byte)) (args : Bool) (mem : ExecMem)
    (io : DevIo) : FsM Int :=
  match argstr path, args with
  | some path, true => exec p path mem io
  | _, _ => return -1

/-- A turn of the loop of `fork` over the descriptors. -/
def dupFile (p np : Fin nproc) (fd : Fin nofile) : FsM Unit := do
  match (← getProc p).ofile fd with
  | some f =>
    filedup f
    setOfile np fd (some f)
  | none => return ()

/-- The loop of `fork` over the descriptors: `np` gets those of `p`. -/
def dupFiles (p np : Fin nproc) : List (Fin nofile) → FsM Unit
  | [] => return ()
  | fd :: fds => do
    dupFile p np fd
    dupFiles p np fds

/-- `fork()`; `mem` is whether `allocproc` and `copyuvm` get their memory. -/
def fork (p : Fin nproc) (mem : Bool) : FsM Int := do
  let s ← get
  match (List.finRange nproc).find? fun np => decide ((s.proc np).state = .unused) with
  | none => return -1
  | some np =>
    if !mem then return -1
    else
      dupFiles p np (List.finRange nofile)
      match (← getProc p).cwd with
      | none => throw .badDeref
      | some cwd =>
        let cwd ← idup cwd
        let x ← getProc np
        setProc np { x with state := .runnable, cwd := some cwd }
        return np.val

/-- A turn of the loop of `exit` over the descriptors. -/
def closeFile (p : Fin nproc) (fd : Fin nofile) : FsM Unit := do
  match (← getProc p).ofile fd with
  | some f =>
    fileclose f
    setOfile p fd none
  | none => return ()

/-- The loop of `exit` over the descriptors. -/
def closeFiles (p : Fin nproc) : List (Fin nofile) → FsM Unit
  | [] => return ()
  | fd :: fds => do
    closeFile p fd
    closeFiles p fds

/-- `exit()`. The process in the first slot is `initproc`. -/
def exit (p : Fin nproc) : FsM Unit := do
  if p.val = 0 then throw (.panic "init exiting")
  else
    closeFiles p (List.finRange nofile)
    match (← getProc p).cwd with
    | none => throw .badDeref
    | some cwd =>
      iput cwd
      let x ← getProc p
      setProc p { x with state := .zombie, cwd := none }

/-- `wait()` when it finds the zombie `q`. -/
def wait (q : Fin nproc) : FsM Unit := do
  let x ← getProc q
  if x.state = .zombie then setProc q { x with state := .unused } else throw .blocked

/-! ## The system -/

/-- A process that runs or could run. -/
def Proc.live (x : Proc) : Bool := x.state == .running || x.state == .runnable || x.state == .sleeping

inductive Call where
  | open (path : Option (List Byte)) (omode : Word)
  | close (fd : Word)
  | dup (fd : Word)
  | pipe (arg mem : Bool)
  | read (fd : Word) (n : Option Nat) (io : DevIo)
  | write (fd : Word) (src : Option (List Byte)) (io : DevIo)
  | link (old new : Option (List Byte))
  | unlink (path : Option (List Byte))
  | mkdir (path : Option (List Byte))
  | mknod (path : Option (List Byte)) (major minor : Word)
  | chdir (path : Option (List Byte))
  | exec (path : Option (List Byte)) (args : Bool) (mem : ExecMem) (io : DevIo)
  | fork (mem : Bool)
  | exit
  | wait (q : Fin nproc)

/-- The system call `c` by process `p`; what it returns is dropped. -/
def call (p : Fin nproc) : Call → FsM Unit
  | .open path omode => do let _ ← sysOpen p path omode
  | .close fd => do let _ ← sysClose p fd
  | .dup fd => do let _ ← sysDup p fd
  | .pipe arg mem => do let _ ← sysPipe p arg mem
  | .read fd n io => do let _ ← sysRead p fd n io
  | .write fd src io => do let _ ← sysWrite p fd src io
  | .link old new => do let _ ← sysLink p old new
  | .unlink path => do let _ ← sysUnlink p path
  | .mkdir path => do let _ ← sysMkdir p path
  | .mknod path major minor => do let _ ← sysMknod p path major minor
  | .chdir path => do let _ ← sysChdir p path
  | .exec path args mem io => do let _ ← sysExec p path args mem io
  | .fork mem => do let _ ← fork p mem
  | .exit => exit p
  | .wait q => wait q

/-- One system call, by a process that is live. -/
def step (s : State) (a : Fin nproc × Call) : Except Halt State :=
  if (s.proc a.1).live then
    match call a.1 a.2 s with
    | .error e => .error e
    | .ok (_, s') => .ok s'
  else .error .blocked

end Xv6Mmap.Fs
