import Xv6Mmap.FsFiles
import Xv6Mmap.Remap

/-!
# Mappings and the files behind them (`trap.c:82-136`, `sysfile.c:603-895`, `file.c:93-156`)

The fault handler and `sys_wunmap` once more, now with the file system they call: where `Trap` takes
what a file delivers as an input, `Machine` has the memory, the process and the file system together.

* The code is in `MM`, a state computation on the machine; `onFs` runs a function of the file system.
* While `filewrite` copies from user memory it holds the lock of the inode. An access to a page that
  is absent runs the fault handler there and then (`touchPage`), and a mapping of the same inode makes
  its `fileread` wait for that lock (`Halt.deadlock`). The pages of one piece of a write are touched
  before the piece is written, in order.
* What a pipe or the console delivers or takes is an input (`Fs.DevIo`); `taken` is how many bytes
  they read before they return.
* How the file of a mapping is found is an argument of the functions between the lookup and the
  handler (`Look`). The code looks the descriptor up in `p->ofile` (`byFd`).

`pgflt_input` is the link to `Trap`: the handler is the one there, on the bytes of the file.
-/

namespace Xv6Mmap

open Lib

/-- The machine as one process sees it. -/
structure Machine where
  kmem : Kmem
  proc : Proc
  fs : Fs.State

/-- What the devices and pipes do. -/
structure MachineIo extends Fs.DevIo where
  taken : Nat

namespace Machine

/-- A kernel function on the machine: it returns, or halts. -/
abbrev MM := StateT Machine (Except Halt)

variable {α : Type}

/-- A function of the file system. -/
def onFs (c : Fs.FsM α) : MM α := fun m =>
  match c m.fs with
  | .error e => .error e
  | .ok (a, s) => .ok (a, { m with fs := s })

/-- The file of `ftable` that `p->ofile[fd]` points to. -/
def fileAt (p : Proc) (fd : Word) : Option (Fin nfile) :=
  match p.ofileAt fd with
  | .file slot => if h : slot < nfile then some ⟨slot, h⟩ else none
  | _ => none

/-- How the file of a mapping is found. -/
abbrev Look := Proc → MemBlock → Except Halt (Fin nfile)

/-- `p->ofile[mapping->fd]`. -/
def byFd : Look := fun p mapping =>
  match fileAt p mapping.fd with
  | none => .error .badDeref
  | some f => .ok f

variable (look : Look)

/-! ## The page fault handler -/

/-- `fileread(f, addr, n)` into user memory. -/
def fileread (f : Fin nfile) (va : Word) (n : Nat) (io : MachineIo) : MM Unit := do
  let r ← onFs (Fs.fileread f n io.toDevIo)
  let m ← get
  let k ← liftM (writeUser m.proc.pgdir m.kmem va (r.2.take n))
  set { m with kmem := k }

/-- The read of the page just mapped, for a mapping that is not anonymous. -/
def loadFile (mapping : MemBlock) (va : Word) (io : MachineIo) : MM Unit := do
  if hasFlag mapping.flags mapAnonymous then return ()
  else
    let f ← liftM (look (← get).proc mapping)
    fileread f va 4096 io

/-- The `T_PGFLT` case of `trap` at fault address `va`. -/
def pgfltVia (va : Word) (io : MachineIo) : MM Unit := do
  let m ← get
  match m.proc.maps.faultSlot va with
  | none => return ()
  | some location =>
    let mapping := m.proc.maps.arr location
    match kalloc m.kmem (.fault mapping.rid) with
    | none => throw (.panic "kalloc")
    | some (mem, k) =>
      let r ← liftM (mappages (k.memset mem 0#8) m.proc.pgdir va pgSize (v2p mem) (pteW ||| pteU))
      let k ← liftM (if r.1 then .ok r.2.1 else kfree r.2.1 mem)
      set { m with kmem := k, proc := { m.proc with pgdir := r.2.2 } }
      loadFile look mapping va io
      modify fun m => { m with proc := { m.proc with maps := m.proc.maps.load location va } }

/-! ## `filewrite` from user memory -/

/-- The byte at user address `va`. -/
def userByte (k : Kmem) (d : PgDir) (va : Word) : Byte :=
  k.mem (p2v (pteAddr (d.entry (vpn va)))) (va.toNat % 4096)

/-- The `n` bytes from user address `va` on. -/
def userBytes (k : Kmem) (d : PgDir) (va : Word) (n : Nat) : List Byte :=
  (List.range n).map fun j => userByte k d (va + BitVec.ofNat 32 j)

/-- The kernel reads the user byte at `va`. -/
def touchPage (io : MachineIo) (va : Word) : MM Unit := do
  let m ← get
  if present (m.proc.pgdir.entry (vpn va)) then return ()
  else
    match m.proc.maps.faultSlot va with
    -- the handler returns without a mapping and the access faults again, for ever
    | none => throw .deadlock
    | some _ =>
      pgfltVia look va io
      if present ((← get).proc.pgdir.entry (vpn va)) then return () else throw .deadlock

def touchAll (io : MachineIo) : List Word → MM Unit
  | [] => return ()
  | va :: vas => do
    touchPage look io va
    touchAll io vas

def touchIf (b : Bool) (io : MachineIo) (vas : List Word) : MM Unit :=
  if b then touchAll look io vas else pure ()

/-- `writei` of `n` bytes at `off` gets as far as copying. -/
def copies (d : Fs.Dinode) (off n : Nat) : Bool :=
  if d.type = some .dev then decide (d.major = Fs.console)
  else decide (off ≤ d.size ∧ off + n < 2 ^ 32 ∧ off + n ≤ Fs.maxfile * Fs.bsize)

/-- `writei(ip, addr, off, n)` from user memory. -/
def writei (ip : Fin ninode) (va : Word) (off n : Nat) (io : MachineIo) : MM Int := do
  let m ← get
  touchIf look (copies (m.fs.inode ip).copy off n) io (touched va n)
  let m ← get
  onFs (Fs.writei ip off (userBytes m.kmem m.proc.pgdir va n))

/-- The loop of `filewrite`, with `n` bytes from `va` on to go. -/
def filewriteLoop (f : Fin nfile) (io : MachineIo) : Nat → Word → Nat → MM Bool
  | 0, _, _ => throw .deadlock
  | fuel + 1, va, n =>
    if n = 0 then return true
    else do
      let n1 := min n Fs.maxWrite
      let x ← onFs (Fs.getFile f)
      onFs (Fs.ilock x.ip)
      let r ← writei look x.ip va x.off n1 io
      onFs (Fs.when (0 < r) (Fs.setFile f { x with off := x.off + r.toNat }))
      onFs (Fs.iunlock x.ip)
      if r < 0 then return false
      else if r ≠ n1 then throw (.panic "short filewrite")
      else filewriteLoop f io fuel (va + BitVec.ofNat 32 n1) (n - n1)

/-- `filewrite(f, addr, n)`; `n` is an `int`. -/
def filewrite (f : Fin nfile) (va : Word) (n : Nat) (io : MachineIo) : MM Int := do
  let x ← onFs (Fs.getFile f)
  if !x.writable then return -1
  else
    match x.kind with
    | .pipe =>
      touchAll look io (touched va (min n io.taken))
      return io.ret
    | .inode => if ← filewriteLoop look f io (n + 1) va n then return n else return -1
    | .none => throw (.panic "filewrite")

/-! ## The calls -/

/-- The write-back of a mapping that is neither anonymous nor private. -/
def writeBack (toFree : MemBlock) (io : MachineIo) : MM Unit := do
  if hasFlag toFree.flags mapAnonymous || hasFlag toFree.flags mapPrivate then return ()
  else
    let f ← liftM (look (← get).proc toFree)
    let x ← onFs (Fs.getFile f)
    onFs (Fs.setFile f { x with off := 0 })
    let _ ← filewrite look f toFree.start toFree.length.toInt.toNat io
    return ()

/-- `sys_wunmap()`. -/
def sysWunmapVia (addr : Word) (io : MachineIo) : MM Word := do
  if addr.toNat % 4096 ≠ 0 then return failed
  else
    match (← get).proc.maps.findStart addr with
    | none => return failed
    | some location =>
      let toFree := (← get).proc.maps.arr location
      writeBack look toFree io
      let m ← get
      let r ← liftM (unmapLoop (m.proc.maps.unmapBound location) 1048577 m.kmem m.proc.pgdir
        (m.proc.maps.unmapFrom location))
      let removed := removeMapping m.proc.maps toFree.start
      set { m with kmem := r.1, proc := { m.proc with pgdir := r.2, maps := removed.2 } }
      return if removed.1 then success else failed

/-- The handler of the code. -/
def pgflt : Word → MachineIo → MM Unit := pgfltVia byFd

/-- The call of the code. -/
def sysWunmap : Word → MachineIo → MM Word := sysWunmapVia byFd

/-- `sys_wmap()`. -/
def sysWmap (addr length flags fd : Word) : MM Word := do
  let m ← get
  let r := Xv6Mmap.sysWmap m.proc.pid m.proc.maps addr length flags fd
  set { m with proc := { m.proc with maps := r.2 } }
  return r.1

/-- `sys_wremap()`; `oob` is what is behind `p->arr[15]`. -/
def sysWremap (oldaddr oldsize newsize flag : Word) (oob : MemBlock) : MM Word := do
  let m ← get
  let r := Xv6Mmap.sysWremap m.proc.maps oob oldaddr oldsize newsize flag
  set { m with proc := { m.proc with maps := r.2 } }
  return r.1

/-! ## The handler is the one of `Trap` -/

section Handler

variable {m m' : Machine} {E : Halt → Prop}

@[simp] theorem wp_onFs {c : Fs.FsM α} {Q : α → Machine → Prop} :
    Wp (onFs c) m Q E ↔ Wp c m.fs (fun a s => Q a { m with fs := s }) E := by
  unfold Wp onFs
  cases c m.fs with
  | error e => rfl
  | ok r => rfl

theorem loadFile_input (mapping : MemBlock) (va : Word) (io : MachineIo) :
    Wp (loadFile byFd mapping va io) m
      (fun _ m' => m'.proc = m.proc ∧ ∃ input, ∀ reads nested,
        Xv6Mmap.loadFile m.kmem m.proc.pgdir m.proc mapping va ⟨some input, reads, nested⟩
          = .ok m'.kmem) := by
  unfold loadFile Xv6Mmap.loadFile
  by_cases hanon : hasFlag mapping.flags mapAnonymous = true
  · rw [if_pos hanon]
    exact ⟨rfl, [], fun _ _ => if_pos hanon⟩
  rw [if_neg hanon]
  simp only [if_neg hanon, wp_bind, wp_get, wp_liftM]
  unfold byFd fileAt
  cases m.proc.ofileAt mapping.fd with
  | null => trivial
  | wild => trivial
  | file slot =>
    dsimp only
    split
    · trivial
    · unfold fileread
      simp only [ends_ok, wp_bind, wp_onFs, wp_get, wp_liftM, wp_set]
      refine wp_of_ok fun r s _ => ends_of_ok fun k hk => ?_
      exact ⟨trivial, r.2, fun _ _ => hk⟩

/-- **The handler with the file system** is the handler of `Trap` on the bytes of some read. -/
theorem pgflt_input (va : Word) (io : MachineIo) :
    Wp (pgflt va io) m
      (fun _ m' => ∃ input, ∀ reads nested,
        Xv6Mmap.pgflt m.kmem m.proc va ⟨some input, reads, nested⟩ = .ok (m'.kmem, m'.proc)) := by
  unfold pgflt pgfltVia Xv6Mmap.pgflt
  simp only [wp_bind, wp_get]
  cases m.proc.maps.faultSlot va with
  | none => exact ⟨[], fun _ _ => rfl⟩
  | some location =>
    dsimp only
    cases kalloc m.kmem (.fault (m.proc.maps.arr location).rid) with
    | none => trivial
    | some r =>
      simp only [wp_bind, wp_liftM, wp_set]
      cases mappages (r.2.memset r.1 0#8) m.proc.pgdir va pgSize (v2p r.1) (pteW ||| pteU) with
      | error e => trivial
      | ok t =>
        obtain ⟨mapped, k, d⟩ := t
        simp only [ends_ok]
        refine ends_of_ok fun k1 hk1 => ?_
        refine (loadFile_input _ va io).mono (fun _ m2 h => ?_) fun _ _ => trivial
        obtain ⟨hproc, input, hload⟩ := h
        refine ⟨input, fun reads nested => ?_⟩
        -- the descriptors do not depend on the page table
        have hload' : Xv6Mmap.loadFile k1 d m.proc (m.proc.maps.arr location) va
            ⟨some input, reads, nested⟩ = .ok m2.kmem := hload reads nested
        simp only [hk1, hload', hproc]

end Handler

end Machine

end Xv6Mmap
