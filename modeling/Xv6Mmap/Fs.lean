import Xv6Mmap.Icache
import Xv6Mmap.Trap

/-!
# The file system (`fs.c`, `fs.h`)

The file system as one process after the other uses it: every call runs to its end, so the log, the
buffer cache and the locks of `icache` and of the buffers drop out, and what is left of a sleep lock
is whether it is held. A `bread` of a block that the log has is the block in the cache, so a block
is its current content.

* `Vol` is what the block allocator and the file contents work on: the free bitmap and the data
  blocks, as bytes. The inode blocks are kept decoded, in `State.dinode`. There is one device.
* `balloc`, `bfree`, `bmap`, the loops of `readi` and `writei`, and `itrunc` are functions of a
  `Vol` and of the cached inode, which they return changed.
* From `iget` on, functions are in `FsM`: they read and write the whole `State` and may halt. A
  panic is an error, a null pointer or `-1` a result. Asking for a sleep lock that is held is
  `Halt.deadlock`, since only the caller itself can hold it.
* Loops have a fuel that is at least the number of their turns.

A directory entry is sixteen bytes, its inode number and the name up to its first zero byte.
-/

namespace Xv6Mmap.Fs

open Function (update)

/-- `BSIZE`. -/
def bsize : Nat := 512
/-- `NDIRECT`. -/
def ndirect : Nat := 12
/-- `NINDIRECT`. -/
def nindirect : Nat := 128
/-- `MAXFILE`. -/
def maxfile : Nat := ndirect + nindirect
/-- `ROOTINO`. -/
def rootino : Nat := 1
/-- `DIRSIZ`. -/
def dirsiz : Nat := 14
/-- `sizeof(struct dirent)`. -/
def deSize : Nat := 16
/-- `CONSOLE`, the only entry of `devsw` that is set. -/
def console : BitVec 16 := 1#16

/-- `struct superblock`, less what locates the log, the inodes and the bitmap. -/
structure Superblock where
  size : Nat
  nblocks : Nat
  ninodes : Nat
  size_lt : size < 2 ^ 32
  nblocks_lt : nblocks < size

/-- The first data block. -/
def Superblock.first (sb : Superblock) : Nat := sb.size - sb.nblocks

/-- `struct dinode`. `nlink` is a `short` in the source and an integer here: a count that wraps would
take `2 ^ 15` names of one file, and the directories of a disk of `FSSIZE` blocks have no room for
them. -/
structure Dinode where
  type : Option FileType
  major : BitVec 16
  minor : BitVec 16
  nlink : Int
  size : Nat
  addrs : Nat → Nat

/-- A `dinode` after `memset(dip, 0, sizeof(*dip))`. -/
def Dinode.zero : Dinode := ⟨none, 0#16, 0#16, 0, 0, fun _ => 0⟩

/-- The bytes of a block. -/
abbrev Sector := Nat → Byte

structure Vol where
  /-- The bitmap: the block is in use. -/
  bit : Nat → Bool
  data : Nat → Sector

/-! ## Blocks -/

/-- `balloc(dev)`. -/
def balloc (sb : Superblock) (v : Vol) : Except Halt (Nat × Vol) :=
  match (List.range sb.size).find? fun b => !v.bit b with
  | none => .error (.panic "balloc: out of blocks")
  | some b =>
    .ok (b, ⟨update v.bit b true, update v.data b fun _ => 0#8⟩)

/-- `bfree(dev, b)`. -/
def bfree (v : Vol) (b : Nat) : Except Halt Vol :=
  if v.bit b then .ok { v with bit := update v.bit b false }
  else .error (.panic "freeing free block")

/-- `a[j]` of a block read as an array of `uint`. -/
def wordAt (x : Sector) (j : Nat) : Nat :=
  (x (4 * j)).toNat + 256 * (x (4 * j + 1)).toNat + 65536 * (x (4 * j + 2)).toNat +
    16777216 * (x (4 * j + 3)).toNat

/-- `a[j] = w`. -/
def setWord (x : Sector) (j w : Nat) : Sector := fun k =>
  if k / 4 = j then BitVec.ofNat 8 (w / 256 ^ (k % 4)) else x k

def Dinode.setAddr (d : Dinode) (k b : Nat) : Dinode :=
  { d with addrs := update d.addrs k b }

/-- The block that `ip->addrs[k]` points to, allocated if there is none. -/
def ensureAddr (sb : Superblock) (v : Vol) (d : Dinode) (k : Nat) :
    Except Halt (Nat × Vol × Dinode) :=
  if d.addrs k = 0 then do
    let (b, v) ← balloc sb v
    return (b, v, d.setAddr k b)
  else return (d.addrs k, v, d)

/-- `bmap(ip, bn)`. -/
def bmap (sb : Superblock) (v : Vol) (d : Dinode) (bn : Nat) : Except Halt (Nat × Vol × Dinode) :=
  if bn < ndirect then ensureAddr sb v d bn
  else if bn - ndirect < nindirect then do
    let (addr, v, d) ← ensureAddr sb v d ndirect
    if wordAt (v.data addr) (bn - ndirect) = 0 then do
      let (b, v) ← balloc sb v
      let a := setWord (v.data addr) (bn - ndirect) b
      return (b, { v with data := update v.data addr a }, d)
    else return (wordAt (v.data addr) (bn - ndirect), v, d)
  else throw (.panic "bmap: out of range")

/-- Free the blocks of a list, in order, except where it is zero. -/
def bfreeAll : List Nat → Vol → Except Halt Vol
  | [], v => return v
  | b :: bs, v => do
    let v ← if b = 0 then pure v else bfree v b
    bfreeAll bs v

/-- `itrunc` of the indirect block `a` and the blocks in it. -/
def bfreeIndirect (v : Vol) (a : Nat) : Except Halt Vol :=
  if a = 0 then return v
  else do
    let v ← bfreeAll ((List.range nindirect).map (wordAt (v.data a))) v
    bfree v a

/-- `itrunc(ip)` up to its `iupdate`. -/
def itrunc (v : Vol) (d : Dinode) : Except Halt (Vol × Dinode) := do
  let v ← bfreeAll ((List.range ndirect).map d.addrs) v
  let v ← bfreeIndirect v (d.addrs ndirect)
  return (v, { d with size := 0, addrs := fun _ => 0 })

/-- The bytes `memmove(dst, bp->data + start, m)` copies. -/
def slice (x : Sector) (start m : Nat) : List Byte := (List.range m).map fun k => x (start + k)

/-- The block after `memmove(bp->data + start, src, m)`. -/
def overwrite (x : Sector) (start : Nat) (src : List Byte) : Sector := fun k =>
  if start ≤ k ∧ k < start + src.length then src.getD (k - start) 0#8 else x k

/-- The loop of `readi`, with `n` bytes to go from `off` on. -/
def readLoop (sb : Superblock) : Nat → Vol → Dinode → Nat → Nat →
    Except Halt (List Byte × Vol × Dinode)
  | 0, v, d, _, _ => return ([], v, d)
  | fuel + 1, v, d, off, n =>
    if n = 0 then return ([], v, d)
    else do
      let (b, v, d) ← bmap sb v d (off / bsize)
      let m := min n (bsize - off % bsize)
      let (rest, v', d) ← readLoop sb fuel v d (off + m) (n - m)
      return (slice (v.data b) (off % bsize) m ++ rest, v', d)

/-- The loop of `writei`, with the bytes `src` to go from `off` on. -/
def writeLoop (sb : Superblock) : Nat → Vol → Dinode → Nat → List Byte →
    Except Halt (Vol × Dinode)
  | 0, v, d, _, _ => return (v, d)
  | fuel + 1, v, d, off, src =>
    if src = [] then return (v, d)
    else do
      let (b, v, d) ← bmap sb v d (off / bsize)
      let m := min src.length (bsize - off % bsize)
      let x := overwrite (v.data b) (off % bsize) (src.take m)
      writeLoop sb fuel { v with data := update v.data b x } d (off + m) (src.drop m)

/-! ## The state -/

/-- `struct inode`. -/
structure Inode where
  inum : Nat
  ref : Int
  /-- The sleep lock is held. -/
  locked : Bool
  valid : Bool
  /-- The copy of the inode on disk. -/
  copy : Dinode

/-- A slot of `icache` before its first use. -/
def Inode.unused : Inode := ⟨0, 0, false, false, .zero⟩

/-- The `type` of a `struct file`. -/
inductive FileKind where
  | none | pipe | inode
  deriving DecidableEq, Repr

/-- `struct file`, less the pointer to a pipe. -/
structure File where
  kind : FileKind
  ref : Int
  readable : Bool
  writable : Bool
  ip : Fin ninode
  off : Nat

/-- A slot of `ftable` before its first use. -/
def File.unused : File := ⟨.none, 0, false, false, 0, 0⟩

/-- The fields of `struct proc` that refer to files. -/
structure Proc where
  state : ProcState
  ofile : Fin nofile → Option (Fin nfile)
  cwd : Option (Fin ninode)

/-- A slot of `ptable` before its first use. -/
def Proc.unused : Proc := ⟨.unused, fun _ => none, none⟩

structure State where
  sb : Superblock
  vol : Vol
  dinode : Nat → Dinode
  inode : Fin ninode → Inode
  file : Fin nfile → File
  proc : Fin nproc → Proc

/-- A kernel function on the state: it returns, or halts. -/
abbrev FsM := StateT State (Except Halt)

/-- What a read from the console or a pipe does: the value returned and the bytes delivered. -/
structure DevIo where
  ret : Int
  input : List Byte

instance : Inhabited DevIo := ⟨⟨-1, []⟩⟩

/-- `if(c) m;`. -/
def when (c : Prop) [Decidable c] (m : FsM Unit) : FsM Unit := if c then m else pure ()

def getInode (ip : Fin ninode) : FsM Inode := return (← get).inode ip

def setInode (ip : Fin ninode) (x : Inode) : FsM Unit :=
  modify fun s => { s with inode := update s.inode ip x }

/-- `*ip = copy`, the fields that are on disk. -/
def setCopy (ip : Fin ninode) (copy : Dinode) : FsM Unit :=
  modify fun s =>
    { s with inode := update s.inode ip { s.inode ip with copy := copy } }

/-! ## Inodes -/

/-- `iupdate(ip)`. -/
def iupdate (ip : Fin ninode) : FsM Unit :=
  modify fun s =>
    { s with dinode := update s.dinode (s.inode ip).inum (s.inode ip).copy }

/-- `iget(dev, inum)`. -/
def iget (inum : Nat) : FsM (Fin ninode) := do
  let s ← get
  match (List.finRange ninode).find? fun ip =>
      decide (0 < (s.inode ip).ref ∧ (s.inode ip).inum = inum) with
  | some ip =>
    setInode ip { s.inode ip with ref := (s.inode ip).ref + 1 }
    return ip
  | none =>
    match (List.finRange ninode).find? fun ip => decide ((s.inode ip).ref = 0) with
    | some ip =>
      setInode ip { s.inode ip with inum := inum, ref := 1, valid := false }
      return ip
    | none => throw (.panic "iget: no inodes")

/-- `ialloc(dev, type)`. -/
def ialloc (type : FileType) : FsM (Fin ninode) := do
  let s ← get
  match (List.range s.sb.ninodes).find? fun inum =>
      decide (0 < inum ∧ (s.dinode inum).type = none) with
  | some inum =>
    set { s with dinode := update s.dinode inum { Dinode.zero with type := some type } }
    iget inum
  | none => throw (.panic "ialloc: no inodes")

/-- `idup(ip)`. -/
def idup (ip : Fin ninode) : FsM (Fin ninode) := do
  let x ← getInode ip
  setInode ip { x with ref := x.ref + 1 }
  return ip

/-- `acquiresleep(&ip->lock)`. -/
def acquiresleep (ip : Fin ninode) : FsM Unit := do
  let x ← getInode ip
  if x.locked then throw .deadlock
  else setInode ip { x with locked := true }

/-- `ilock(ip)`. -/
def ilock (ip : Fin ninode) : FsM Unit := do
  if (← getInode ip).ref < 1 then throw (.panic "ilock")
  else
    acquiresleep ip
    let s ← get
    let x := s.inode ip
    if x.valid then return ()
    else
      setInode ip { x with valid := true, copy := s.dinode x.inum }
      if (s.dinode x.inum).type = none then throw (.panic "ilock: no type")
      else return ()

/-- `iunlock(ip)`. -/
def iunlock (ip : Fin ninode) : FsM Unit := do
  let x ← getInode ip
  if !x.locked ∨ x.ref < 1 then throw (.panic "iunlock")
  else setInode ip { x with locked := false }

/-- `itrunc(ip)` with its `iupdate`. -/
def itruncInode (ip : Fin ninode) : FsM Unit := do
  let s ← get
  let (v, copy) ← liftM (itrunc s.vol (s.inode ip).copy)
  set { s with vol := v }
  setCopy ip copy
  iupdate ip

/-- `iput(ip)` of the last reference to an inode without links: truncate and free. -/
def ifree (ip : Fin ninode) : FsM Unit := do
  itruncInode ip
  let x ← getInode ip
  setCopy ip { x.copy with type := none }
  iupdate ip
  let x ← getInode ip
  setInode ip { x with valid := false }

/-- `iput(ip)`. -/
def iput (ip : Fin ninode) : FsM Unit := do
  acquiresleep ip
  let x ← getInode ip
  when (x.valid ∧ x.copy.nlink = 0 ∧ x.ref = 1) (ifree ip)
  let x ← getInode ip
  setInode ip { x with locked := false, ref := x.ref - 1 }

/-- `iunlockput(ip)`. -/
def iunlockput (ip : Fin ninode) : FsM Unit := do
  iunlock ip
  iput ip

/-! ## Contents -/

/-- `readi(ip, dst, off, n)`: the value returned and the bytes stored at `dst`. -/
def readi (ip : Fin ninode) (off n : Nat) (io : DevIo) : FsM (Int × List Byte) := do
  let s ← get
  let d := (s.inode ip).copy
  if d.type = some .dev then
    if d.major = console then return (io.ret, io.input) else return (-1, [])
  else if d.size < off ∨ 2 ^ 32 ≤ off + n then return (-1, [])
  else
    let n := min n (d.size - off)
    let (bytes, v, d) ← liftM (readLoop s.sb n s.vol d off n)
    set { s with vol := v }
    setCopy ip d
    return (n, bytes)

/-- `writei(ip, src, off, n)`; `consolewrite` returns the length. -/
def writei (ip : Fin ninode) (off : Nat) (src : List Byte) : FsM Int := do
  let s ← get
  let d := (s.inode ip).copy
  if d.type = some .dev then
    if d.major = console then return src.length else return -1
  else if d.size < off ∨ 2 ^ 32 ≤ off + src.length then return -1
  else if maxfile * bsize < off + src.length then return -1
  else
    let (v, d) ← liftM (writeLoop s.sb src.length s.vol d off src)
    set { s with vol := v }
    setCopy ip d
    when (0 < src.length ∧ d.size < off + src.length) do
      setCopy ip { d with size := off + src.length }
      iupdate ip
    return src.length

/-! ## Directories -/

/-- The bytes before the first zero byte, at most `DIRSIZ`: what `strncmp` compares. -/
def cname (name : List Byte) : List Byte := (name.take dirsiz).takeWhile (· ≠ 0#8)

/-- `de.inum` of an entry read from disk. -/
def deInum (de : List Byte) : Nat := (de.getD 0 0#8).toNat + 256 * (de.getD 1 0#8).toNat

/-- `de.name`, up to its end. -/
def deName (de : List Byte) : List Byte := cname (de.drop 2)

/-- The entry for `inum` with the name that `strncpy` copies. -/
def dirent (inum : Nat) (name : List Byte) : List Byte :=
  let name := cname name
  BitVec.ofNat 8 inum :: BitVec.ofNat 8 (inum / 256) ::
    (name ++ List.replicate (dirsiz - name.length) 0#8)

/-- `namecmp(s, t) == 0`. -/
def namecmp (s t : List Byte) : Bool := cname s == cname t

/-- Read the entry at `off`. -/
def readDirent (dp : Fin ninode) (off : Nat) (msg : String) : FsM (List Byte) := do
  let (r, de) ← readi dp off deSize default
  if r ≠ deSize then throw (.panic msg)
  else return de

/-- The loop of `dirlookup` from `off` on. -/
def dirlookupLoop (dp : Fin ninode) (name : List Byte) :
    Nat → Nat → FsM (Option (Fin ninode × Nat))
  | 0, _ => throw .deadlock
  | fuel + 1, off => do
    if off < (← getInode dp).copy.size then
      let de ← readDirent dp off "dirlookup read"
      if deInum de ≠ 0 ∧ namecmp name (deName de) = true then
        let ip ← iget (deInum de)
        return some (ip, off)
      else dirlookupLoop dp name fuel (off + deSize)
    else return none

/-- `dirlookup(dp, name, &off)`. -/
def dirlookup (dp : Fin ninode) (name : List Byte) : FsM (Option (Fin ninode × Nat)) := do
  let x ← getInode dp
  if x.copy.type ≠ some .dir then throw (.panic "dirlookup not DIR")
  else dirlookupLoop dp name (x.copy.size + 1) 0

/-- The loop of `dirlink` from `off` on: the offset of the first entry that is free. -/
def freeDirent (dp : Fin ninode) : Nat → Nat → FsM Nat
  | 0, _ => throw .deadlock
  | fuel + 1, off => do
    if off < (← getInode dp).copy.size then
      let de ← readDirent dp off "dirlink read"
      if deInum de = 0 then return off else freeDirent dp fuel (off + deSize)
    else return off

/-- `dirlink(dp, name, inum)`; `false` is `-1`. -/
def dirlink (dp : Fin ninode) (name : List Byte) (inum : Nat) : FsM Bool := do
  match ← dirlookup dp name with
  | some (ip, _) =>
    iput ip
    return false
  | none =>
    let off ← freeDirent dp ((← getInode dp).copy.size + 1) 0
    let r ← writei dp off (dirent inum name)
    if r ≠ deSize then throw (.panic "dirlink") else return true

/-! ## Paths -/

def slash : Byte := 47#8

/-- `skipelem(path, name)`: the name and the rest of the path. -/
def skipelem (path : List Byte) : Option (List Byte × List Byte) :=
  match path.dropWhile (· = slash) with
  | [] => none
  | s => some ((s.takeWhile (· ≠ slash)).take dirsiz,
      (s.dropWhile (· ≠ slash)).dropWhile (· = slash))

/-- The loop of `namex`; with `nameiparent` also the last name. -/
def namexLoop (nameiparent : Bool) : Nat → Fin ninode → List Byte →
    FsM (Option (Fin ninode × List Byte))
  | 0, _, _ => throw .deadlock
  | fuel + 1, ip, path =>
    match skipelem path with
    | none =>
      if nameiparent then do
        iput ip
        return none
      else return some (ip, [])
    | some (name, path) => do
      ilock ip
      if (← getInode ip).copy.type ≠ some .dir then
        iunlockput ip
        return none
      else if nameiparent ∧ path = [] then
        iunlock ip
        return some (ip, name)
      else
        match ← dirlookup ip name with
        | none =>
          iunlockput ip
          return none
        | some (next, _) =>
          iunlockput ip
          namexLoop nameiparent fuel next path

/-- Where `namex` starts in process `p`. -/
def namexStart (p : Fin nproc) (path : List Byte) : FsM (Fin ninode) := do
  if path.head? = some slash then iget rootino
  else
    match ((← get).proc p).cwd with
    | some cwd => idup cwd
    | none => throw .badDeref

/-- `namex(path, nameiparent, name)` in process `p`. -/
def namex (p : Fin nproc) (nameiparent : Bool) (path : List Byte) :
    FsM (Option (Fin ninode × List Byte)) := do
  let ip ← namexStart p path
  namexLoop nameiparent (path.length + 1) ip path

/-- `namei(path)`. -/
def namei (p : Fin nproc) (path : List Byte) : FsM (Option (Fin ninode)) := do
  match ← namex p false path with
  | some (ip, _) => return some ip
  | none => return none

/-- `nameiparent(path, name)`. -/
def nameiparent (p : Fin nproc) (path : List Byte) : FsM (Option (Fin ninode × List Byte)) :=
  namex p true path

end Xv6Mmap.Fs
