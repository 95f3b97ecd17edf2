import Mathlib.Data.Fintype.Basic
import Xv6Mmap.Kalloc
import Xv6Mmap.Lib.Run
import Xv6Mmap.Lib.Tally

/-!
# The inode cache (`fs.c:194-360`)

The cache as a system of processes. `Icache` holds the fifty cache slots, the type and link count
of every inode on disk, the inode numbers that the entries of each directory name, and for each
process the place inside `fs.c` where others can interfere with it and the references it holds. A
sleep lock is its holder; an attempt to take it that sleeps changes nothing.

* `iget` is the section under `icache.lock`. It is called through a directory entry (`igetEntry`),
  by a process that holds a reference to the inode (`igetHeld`), or at the end of `ialloc`.
* `ilock` is `acquiresleep` and `ilockRead`, `iput` is `acquiresleep`, then `iputTest`, `iputRef`,
  `iputFree`, `iputInvalid`, `iputRelease` and `iputDrop`: one step for each point where another
  process can come in between.
* The holder of a lock may write the inode's link count (`setNlink`, with its `iupdate`) and, if it
  is a directory, its entries (`setDirents`), as it likes.

`Moved` lists the steps, and `Base` is what every one of them keeps: a slot in use is the only one
with its inode, `ref` counts the references the processes hold, and each place inside `ilock` and
`iput` says what it has seen under the lock.
-/

namespace Xv6Mmap

open Lib
open Function (update update_self update_of_ne update_apply update_eq_self update_idem)

/-- `NINODE`. -/
def ninode : Nat := 50

instance : NeZero ninode := ⟨by decide⟩

/-- `T_DIR`, `T_FILE` and `T_DEV`; the type `0` of a free inode is `none`. -/
inductive FileType where
  | dir | file | dev
  deriving DecidableEq, Repr

/-- The fields of `struct dinode` that decide whether it is freed. -/
structure LinkInfo where
  type : Option FileType
  nlink : Int

/-- `struct inode`, less what the cache does not look at. -/
structure CachedInode (ι : Type) where
  /-- `dev` and `inum`. -/
  key : Nat × Nat
  ref : Nat
  valid : Bool
  /-- The copy of the inode on disk. -/
  copy : LinkInfo
  /-- Who holds the sleep lock. -/
  holder : Option ι

/-- Where a process is. -/
inductive IcachePc where
  | running
  /-- In `ilock`, asleep on the lock or about to take it. -/
  | locking (a : Fin ninode)
  /-- In `ilock`, with the lock. -/
  | loading (a : Fin ninode)
  /-- In `iput`, asleep on the lock or about to take it. -/
  | putting (a : Fin ninode)
  /-- In `iput`, with the lock, before `ip->valid && ip->nlink == 0`. -/
  | testing (a : Fin ninode)
  /-- Before `r = ip->ref`. -/
  | counting (a : Fin ninode)
  /-- After `r == 1`. -/
  | freeing (a : Fin ninode)
  /-- Before `ip->valid = 0`. -/
  | clearing (a : Fin ninode)
  /-- Before `releasesleep`; whether the inode was freed. -/
  | releasing (a : Fin ninode) (freed : Bool)
  /-- Before `ip->ref--`; whether the inode was freed. -/
  | dropping (a : Fin ninode) (freed : Bool)
  /-- In `ialloc`, before the `iget` of the inode it has marked. -/
  | allocated (key : Nat × Nat)
  deriving DecidableEq, Repr

structure IcacheProc where
  pc : IcachePc
  /-- How many references the process holds to each slot. -/
  refs : Fin ninode → Nat

structure Icache (ι : Type) where
  inode : Fin ninode → CachedInode ι
  dinode : Nat × Nat → LinkInfo
  /-- The inode numbers in the entries of a directory. -/
  dirent : Nat × Nat → List Nat
  proc : ι → IcacheProc

inductive IcacheAction (ι : Type) where
  /-- `dirlookup` in directory `dir` finds an entry that names `inum`. -/
  | igetEntry (i : ι) (dev dir inum : Nat)
  | igetHeld (i : ι) (a : Fin ninode)
  /-- The new reference is for process `j`: itself, or the child in `fork`. -/
  | idup (i : ι) (a : Fin ninode) (j : ι)
  | ilock (i : ι) (a : Fin ninode)
  | acquiresleep (i : ι)
  | ilockRead (i : ι)
  | iunlock (i : ι) (a : Fin ninode)
  | iput (i : ι) (a : Fin ninode)
  | iputTest (i : ι)
  | iputRef (i : ι)
  | iputFree (i : ι)
  | iputInvalid (i : ι)
  | iputRelease (i : ι)
  | iputDrop (i : ι)
  | ialloc (i : ι) (key : Nat × Nat) (type : FileType)
  | iallocGet (i : ι)
  | setNlink (i : ι) (a : Fin ninode) (nlink : Int)
  | setDirents (i : ι) (a : Fin ninode) (inums : List Nat)

namespace Icache

variable {ι : Type} [DecidableEq ι]

/-- `iinit` over a disk, before the first `iget`. -/
def iinit (ι : Type) (dinode : Nat × Nat → LinkInfo) (dirent : Nat × Nat → List Nat) :
    Icache ι where
  inode _ := ⟨(0, 0), 0, false, ⟨none, 0⟩, none⟩
  dinode := dinode
  dirent := dirent
  proc _ := ⟨.running, fun _ => 0⟩

def setInode (s : Icache ι) (a : Fin ninode) (x : CachedInode ι) : Icache ι :=
  { s with inode := update s.inode a x }

def setDinode (s : Icache ι) (key : Nat × Nat) (d : LinkInfo) : Icache ι :=
  { s with dinode := update s.dinode key d }

def goto (s : Icache ι) (i : ι) (pc : IcachePc) : Icache ι :=
  { s with proc := update s.proc i { s.proc i with pc := pc } }

/-- Process `i` has `n` references to slot `a`. -/
def setRefs (s : Icache ι) (i : ι) (a : Fin ninode) (n : Nat) : Icache ι :=
  { s with
    proc := update s.proc i
      { s.proc i with refs := update (s.proc i).refs a n } }

/-- A slot in use with this inode, or else the first unused slot. -/
def lookup (s : Icache ι) (key : Nat × Nat) : Option (Fin ninode) :=
  (List.finRange ninode).find? fun a => decide (0 < (s.inode a).ref ∧ (s.inode a).key = key)

def empty (s : Icache ι) : Option (Fin ninode) :=
  (List.finRange ninode).find? fun a => (s.inode a).ref == 0

/-- One more reference to slot `a`, held by `i`. -/
def addRef (s : Icache ι) (i : ι) (a : Fin ninode) : Icache ι :=
  (s.setInode a { s.inode a with ref := (s.inode a).ref + 1 }).setRefs i a ((s.proc i).refs a + 1)

/-- `iget(dev, inum)`. -/
def iget (s : Icache ι) (i : ι) (key : Nat × Nat) : Except Halt (Icache ι) :=
  match s.lookup key with
  | some a => .ok (s.addRef i a)
  | none =>
    match s.empty with
    | some a =>
      .ok ((s.setInode a { s.inode a with key := key, ref := 1, valid := false }).setRefs i a
        ((s.proc i).refs a + 1))
    | none => .error (.panic "iget: no inodes")

/-- `ilock(ip)` up to `acquiresleep`. -/
def ilock (s : Icache ι) (i : ι) (a : Fin ninode) : Except Halt (Icache ι) :=
  if (s.inode a).ref < 1 then .error (.panic "ilock") else .ok (s.goto i (.locking a))

/-- A turn of `acquiresleep(&ip->lock)`; the process goes to `pc` once it has the lock. -/
def acquiresleep (s : Icache ι) (i : ι) (a : Fin ninode) (pc : IcachePc) : Icache ι :=
  match (s.inode a).holder with
  | some _ => s
  | none => (s.setInode a { s.inode a with holder := some i }).goto i pc

/-- `ilock(ip)` from `acquiresleep` on. -/
def ilockRead (s : Icache ι) (i : ι) (a : Fin ninode) : Except Halt (Icache ι) :=
  if (s.inode a).valid then .ok (s.goto i .running)
  else if (s.dinode (s.inode a).key).type = none then .error (.panic "ilock: no type")
  else
    .ok ((s.setInode a
      { s.inode a with valid := true, copy := s.dinode (s.inode a).key }).goto i .running)

def iunlock (s : Icache ι) (i : ι) (a : Fin ninode) : Except Halt (Icache ι) :=
  if (s.inode a).holder ≠ some i ∨ (s.inode a).ref < 1 then .error (.panic "iunlock")
  else .ok (s.setInode a { s.inode a with holder := none })

/-- `ip->valid && ip->nlink == 0`. -/
def iputTest (s : Icache ι) (i : ι) (a : Fin ninode) : Icache ι :=
  if (s.inode a).valid ∧ (s.inode a).copy.nlink = 0 then s.goto i (.counting a)
  else s.goto i (.releasing a false)

/-- `r = ip->ref` and its test. -/
def iputRef (s : Icache ι) (i : ι) (a : Fin ninode) : Icache ι :=
  if (s.inode a).ref = 1 then s.goto i (.freeing a) else s.goto i (.releasing a false)

/-- `itrunc(ip); ip->type = 0; iupdate(ip)`. -/
def iputFree (s : Icache ι) (i : ι) (a : Fin ninode) : Icache ι :=
  let copy := { (s.inode a).copy with type := none }
  { (s.setInode a { s.inode a with copy := copy }).setDinode (s.inode a).key copy with
    dirent := update s.dirent (s.inode a).key [] }.goto i (.clearing a)

def iputInvalid (s : Icache ι) (i : ι) (a : Fin ninode) : Icache ι :=
  (s.setInode a { s.inode a with valid := false }).goto i (.releasing a true)

def iputRelease (s : Icache ι) (i : ι) (a : Fin ninode) (freed : Bool) : Icache ι :=
  (s.setInode a { s.inode a with holder := none }).goto i (.dropping a freed)

def iputDrop (s : Icache ι) (i : ι) (a : Fin ninode) : Icache ι :=
  ((s.setInode a { s.inode a with ref := (s.inode a).ref - 1 }).setRefs i a
    ((s.proc i).refs a - 1)).goto i .running

/-- `ialloc` on the inode it finds free, up to its `iget`. -/
def ialloc (s : Icache ι) (i : ι) (key : Nat × Nat) (type : FileType) : Icache ι :=
  (s.setDinode key ⟨some type, 0⟩).goto i (.allocated key)

/-- `ip->nlink = nlink; iupdate(ip)`. -/
def setNlink (s : Icache ι) (a : Fin ninode) (nlink : Int) : Icache ι :=
  let copy := { (s.inode a).copy with nlink := nlink }
  (s.setInode a { s.inode a with copy := copy }).setDinode (s.inode a).key copy

/-- The process runs and holds a reference to the slot. -/
def holds (s : Icache ι) (i : ι) (a : Fin ninode) : Bool :=
  decide ((s.proc i).pc = .running) && decide (0 < (s.proc i).refs a)

/-- The process runs and has locked and read the inode. -/
def owns (s : Icache ι) (i : ι) (a : Fin ninode) : Bool :=
  decide ((s.proc i).pc = .running) && decide ((s.inode a).holder = some i) && (s.inode a).valid

/-- An action of a process, where that process is. -/
def step (s : Icache ι) : IcacheAction ι → Except Halt (Icache ι)
  | .igetEntry i dev dir inum =>
    if (s.proc i).pc = .running ∧ inum ∈ s.dirent (dev, dir) then s.iget i (dev, inum)
    else .error .blocked
  | .igetHeld i a => if s.holds i a then s.iget i (s.inode a).key else .error .blocked
  | .idup i a j => if s.holds i a then .ok (s.addRef j a) else .error .blocked
  | .ilock i a => if s.holds i a then s.ilock i a else .error .blocked
  | .acquiresleep i =>
    match (s.proc i).pc with
    | .locking a => .ok (s.acquiresleep i a (.loading a))
    | .putting a => .ok (s.acquiresleep i a (.testing a))
    | _ => .error .blocked
  | .ilockRead i =>
    match (s.proc i).pc with
    | .loading a => s.ilockRead i a
    | _ => .error .blocked
  | .iunlock i a => if s.holds i a then s.iunlock i a else .error .blocked
  | .iput i a => if s.holds i a then .ok (s.goto i (.putting a)) else .error .blocked
  | .iputTest i =>
    match (s.proc i).pc with
    | .testing a => .ok (s.iputTest i a)
    | _ => .error .blocked
  | .iputRef i =>
    match (s.proc i).pc with
    | .counting a => .ok (s.iputRef i a)
    | _ => .error .blocked
  | .iputFree i =>
    match (s.proc i).pc with
    | .freeing a => .ok (s.iputFree i a)
    | _ => .error .blocked
  | .iputInvalid i =>
    match (s.proc i).pc with
    | .clearing a => .ok (s.iputInvalid i a)
    | _ => .error .blocked
  | .iputRelease i =>
    match (s.proc i).pc with
    | .releasing a freed => .ok (s.iputRelease i a freed)
    | _ => .error .blocked
  | .iputDrop i =>
    match (s.proc i).pc with
    | .dropping a _ => .ok (s.iputDrop i a)
    | _ => .error .blocked
  | .ialloc i key type =>
    if (s.proc i).pc = .running ∧ (s.dinode key).type = none then .ok (s.ialloc i key type)
    else .error .blocked
  | .iallocGet i =>
    match (s.proc i).pc with
    | .allocated key => (s.goto i .running).iget i key
    | _ => .error .blocked
  | .setNlink i a nlink => if s.owns i a then .ok (s.setNlink a nlink) else .error .blocked
  | .setDirents i a inums =>
    if s.owns i a then .ok { s with dirent := update s.dirent (s.inode a).key inums }
    else .error .blocked

end Icache

/-! ## What a step can do -/

namespace Icache

variable {ι : Type} [DecidableEq ι]

/-- The steps that return, each with the place it is taken in. -/
inductive Moved (s : Icache ι) : IcacheAction ι → Icache ι → Prop where
  | igetEntry {i : ι} {dev dir inum : Nat} {s' : Icache ι} (hpc : (s.proc i).pc = .running)
      (hnamed : inum ∈ s.dirent (dev, dir)) (hs : s.iget i (dev, inum) = .ok s') :
      Moved s (.igetEntry i dev dir inum) s'
  | igetHeld {i : ι} {a : Fin ninode} {s' : Icache ι} (hpc : (s.proc i).pc = .running)
      (hrefs : 0 < (s.proc i).refs a) (hs : s.iget i (s.inode a).key = .ok s') :
      Moved s (.igetHeld i a) s'
  | idup {i j : ι} {a : Fin ninode} (hpc : (s.proc i).pc = .running)
      (hrefs : 0 < (s.proc i).refs a) : Moved s (.idup i a j) (s.addRef j a)
  | ilock {i : ι} {a : Fin ninode} (hpc : (s.proc i).pc = .running)
      (hrefs : 0 < (s.proc i).refs a) : Moved s (.ilock i a) (s.goto i (.locking a))
  | ilockAcquire {i : ι} {a : Fin ninode} (hpc : (s.proc i).pc = .locking a) :
      Moved s (.acquiresleep i) (s.acquiresleep i a (.loading a))
  | iputAcquire {i : ι} {a : Fin ninode} (hpc : (s.proc i).pc = .putting a) :
      Moved s (.acquiresleep i) (s.acquiresleep i a (.testing a))
  | ilockValid {i : ι} {a : Fin ninode} (hpc : (s.proc i).pc = .loading a)
      (hvalid : (s.inode a).valid = true) : Moved s (.ilockRead i) (s.goto i .running)
  | ilockRead {i : ι} {a : Fin ninode} (hpc : (s.proc i).pc = .loading a)
      (htype : (s.dinode (s.inode a).key).type ≠ none) :
      Moved s (.ilockRead i) ((s.setInode a
        { s.inode a with valid := true, copy := s.dinode (s.inode a).key }).goto i .running)
  | iunlock {i : ι} {a : Fin ninode} (hpc : (s.proc i).pc = .running)
      (hholder : (s.inode a).holder = some i) :
      Moved s (.iunlock i a) (s.setInode a { s.inode a with holder := none })
  | iput {i : ι} {a : Fin ninode} (hpc : (s.proc i).pc = .running)
      (hrefs : 0 < (s.proc i).refs a) : Moved s (.iput i a) (s.goto i (.putting a))
  | iputTest {i : ι} {a : Fin ninode} (hpc : (s.proc i).pc = .testing a)
      (hvalid : (s.inode a).valid = true) (hnlink : (s.inode a).copy.nlink = 0) :
      Moved s (.iputTest i) (s.goto i (.counting a))
  | iputLinked {i : ι} {a : Fin ninode} (hpc : (s.proc i).pc = .testing a) :
      Moved s (.iputTest i) (s.goto i (.releasing a false))
  | iputRef {i : ι} {a : Fin ninode} (hpc : (s.proc i).pc = .counting a)
      (hone : (s.inode a).ref = 1) : Moved s (.iputRef i) (s.goto i (.freeing a))
  | iputShared {i : ι} {a : Fin ninode} (hpc : (s.proc i).pc = .counting a) :
      Moved s (.iputRef i) (s.goto i (.releasing a false))
  | iputFree {i : ι} {a : Fin ninode} (hpc : (s.proc i).pc = .freeing a) :
      Moved s (.iputFree i) (s.iputFree i a)
  | iputInvalid {i : ι} {a : Fin ninode} (hpc : (s.proc i).pc = .clearing a) :
      Moved s (.iputInvalid i) (s.iputInvalid i a)
  | iputRelease {i : ι} {a : Fin ninode} {freed : Bool}
      (hpc : (s.proc i).pc = .releasing a freed) :
      Moved s (.iputRelease i) (s.iputRelease i a freed)
  | iputDrop {i : ι} {a : Fin ninode} {freed : Bool}
      (hpc : (s.proc i).pc = .dropping a freed) : Moved s (.iputDrop i) (s.iputDrop i a)
  | ialloc {i : ι} {key : Nat × Nat} {type : FileType} (hpc : (s.proc i).pc = .running)
      (hnone : (s.dinode key).type = none) : Moved s (.ialloc i key type) (s.ialloc i key type)
  | iallocGet {i : ι} {key : Nat × Nat} {s' : Icache ι} (hpc : (s.proc i).pc = .allocated key)
      (hs : (s.goto i .running).iget i key = .ok s') : Moved s (.iallocGet i) s'
  | setNlink {i : ι} {a : Fin ninode} {nlink : Int} (hpc : (s.proc i).pc = .running)
      (hholder : (s.inode a).holder = some i) (hvalid : (s.inode a).valid = true) :
      Moved s (.setNlink i a nlink) (s.setNlink a nlink)
  | setDirents {i : ι} {a : Fin ninode} {inums : List Nat} :
      Moved s (.setDirents i a inums)
        { s with dirent := update s.dirent (s.inode a).key inums }

variable {s s' : Icache ι}

omit [DecidableEq ι] in
theorem holds_iff {i : ι} {a : Fin ninode} :
    s.holds i a = true ↔ (s.proc i).pc = .running ∧ 0 < (s.proc i).refs a := by
  simp [holds]

theorem owns_iff {i : ι} {a : Fin ninode} :
    s.owns i a = true ↔
      ((s.proc i).pc = .running ∧ (s.inode a).holder = some i) ∧ (s.inode a).valid = true := by
  simp [owns]

theorem step_cases {act : IcacheAction ι} (hs : s.step act = .ok s') : s.Moved act s' := by
  cases act with
  | igetEntry i dev dir inum =>
    simp only [step] at hs
    split at hs
    · rename_i hc
      exact .igetEntry hc.1 hc.2 hs
    · cases hs
  | igetHeld i a =>
    simp only [step] at hs
    split at hs
    · rename_i hc
      obtain ⟨hpc, hrefs⟩ := holds_iff.mp hc
      exact .igetHeld hpc hrefs hs
    · cases hs
  | idup i a j =>
    simp only [step] at hs
    split at hs
    · rename_i hc
      obtain ⟨hpc, hrefs⟩ := holds_iff.mp hc
      cases hs
      exact .idup hpc hrefs
    · cases hs
  | ilock i a =>
    simp only [step] at hs
    split at hs
    · rename_i hc
      obtain ⟨hpc, hrefs⟩ := holds_iff.mp hc
      unfold ilock at hs
      split at hs <;> cases hs
      exact .ilock hpc hrefs
    · cases hs
  | acquiresleep i =>
    simp only [step] at hs
    split at hs
    · cases hs
      exact .ilockAcquire ‹_›
    · cases hs
      exact .iputAcquire ‹_›
    · cases hs
  | ilockRead i =>
    simp only [step] at hs
    split at hs
    · unfold ilockRead at hs
      split at hs
      · cases hs
        exact .ilockValid ‹_› ‹_›
      · split at hs <;> cases hs
        exact .ilockRead ‹_› ‹_›
    · cases hs
  | iunlock i a =>
    simp only [step] at hs
    split at hs
    · rename_i hc
      unfold iunlock at hs
      split at hs
      · cases hs
      · rename_i hheld
        cases hs
        exact .iunlock (holds_iff.mp hc).1 (not_not.mp fun hne => hheld (.inl hne))
    · cases hs
  | iput i a =>
    simp only [step] at hs
    split at hs
    · rename_i hc
      obtain ⟨hpc, hrefs⟩ := holds_iff.mp hc
      cases hs
      exact .iput hpc hrefs
    · cases hs
  | iputTest i =>
    simp only [step] at hs
    split at hs <;> cases hs
    unfold iputTest
    split
    · rename_i hc
      exact .iputTest ‹_› hc.1 hc.2
    · exact .iputLinked ‹_›
  | iputRef i =>
    simp only [step] at hs
    split at hs <;> cases hs
    unfold iputRef
    split
    · exact .iputRef ‹_› ‹_›
    · exact .iputShared ‹_›
  | iputFree i =>
    simp only [step] at hs
    split at hs <;> cases hs
    exact .iputFree ‹_›
  | iputInvalid i =>
    simp only [step] at hs
    split at hs <;> cases hs
    exact .iputInvalid ‹_›
  | iputRelease i =>
    simp only [step] at hs
    split at hs <;> cases hs
    exact .iputRelease ‹_›
  | iputDrop i =>
    simp only [step] at hs
    split at hs <;> cases hs
    exact .iputDrop ‹_›
  | ialloc i key type =>
    simp only [step] at hs
    split at hs
    · rename_i hc
      cases hs
      exact .ialloc hc.1 hc.2
    · cases hs
  | iallocGet i =>
    simp only [step] at hs
    split at hs
    · exact .iallocGet ‹_› hs
    · cases hs
  | setNlink i a nlink =>
    simp only [step] at hs
    split at hs
    · rename_i hc
      obtain ⟨⟨hpc, hholder⟩, hvalid⟩ := owns_iff.mp hc
      cases hs
      exact .setNlink hpc hholder hvalid
    · cases hs
  | setDirents i a inums =>
    simp only [step] at hs
    split at hs <;> cases hs
    exact .setDirents

end Icache

/-! ## What every run keeps -/

namespace IcachePc

/-- What a place inside `ilock` or `iput` says of the slot: the process has a reference, has the lock
or not, and what it has seen under the lock is still so. -/
def Fits {ι : Type} (i : ι) (refs : Fin ninode → Nat) (inode : Fin ninode → CachedInode ι) :
    IcachePc → Prop
  | .running | .allocated _ => True
  | .locking a | .putting a => 0 < refs a
  | .dropping a _ => 0 < refs a ∧ (inode a).holder ≠ some i
  | .loading a | .testing a | .clearing a | .releasing a _ =>
    0 < refs a ∧ (inode a).holder = some i
  | .counting a | .freeing a =>
    0 < refs a ∧ (inode a).holder = some i ∧ (inode a).valid = true ∧ (inode a).copy.nlink = 0

/-- The process has freed the inode of `a` and still has its reference. -/
def freed (a : Fin ninode) : IcachePc → Bool
  | .clearing b | .releasing b true | .dropping b true => a == b
  | _ => false

variable {ι : Type} {i : ι} {refs : Fin ninode → Nat} {inode : Fin ninode → CachedInode ι}

theorem Fits.refs_pos_of_freed {pc : IcachePc} (h : pc.Fits i refs inode) {a : Fin ninode}
    (hf : pc.freed a = true) : 0 < refs a := by
  cases pc with
  | clearing b =>
    obtain rfl : a = b := by simpa [freed] using hf
    exact h.1
  | releasing b f =>
    cases f with
    | false => cases hf
    | true =>
      obtain rfl : a = b := by simpa [freed] using hf
      exact h.1
  | dropping b f =>
    cases f with
    | false => cases hf
    | true =>
      obtain rfl : a = b := by simpa [freed] using hf
      exact h.1
  | _ => cases hf

/-- Another process changes slot `a`: it does not take or release the lock of this process, and what
it changes under the lock it changes as the holder. -/
theorem Fits.update {pc : IcachePc} (h : pc.Fits i refs inode) {a : Fin ninode}
    {x : CachedInode ι} (hholder : x.holder = some i ↔ (inode a).holder = some i)
    (hsame : (inode a).holder = some i → x.valid = (inode a).valid ∧ x.copy = (inode a).copy) :
    pc.Fits i refs (Function.update inode a x) := by
  have hother : ∀ b, b ≠ a → Function.update inode a x b = inode b := fun b hb =>
    update_of_ne hb ..
  cases pc with
  | running => trivial
  | allocated key => trivial
  | locking b => exact h
  | putting b => exact h
  | dropping b f =>
    by_cases hb : b = a
    · subst hb
      simp only [Fits, update_self, ne_eq, hholder]
      exact h
    · simpa only [Fits, hother b hb] using h
  | loading b | testing b | clearing b | releasing b f =>
    by_cases hb : b = a
    · subst hb
      simp only [Fits, update_self, hholder]
      exact h
    · simpa only [Fits, hother b hb] using h
  | counting b | freeing b =>
    by_cases hb : b = a
    · subst hb
      obtain ⟨hvalid, hcopy⟩ := hsame h.2.1
      simp only [Fits, update_self, hholder, hvalid, hcopy]
      exact h
    · simpa only [Fits, hother b hb] using h

theorem Fits.mono {pc : IcachePc} (h : pc.Fits i refs inode) {refs' : Fin ninode → Nat}
    (hle : ∀ a, refs a ≤ refs' a) : pc.Fits i refs' inode := by
  cases pc with
  | running => trivial
  | allocated key => trivial
  | locking a | putting a => exact Nat.lt_of_lt_of_le h (hle a)
  | dropping a f | loading a | testing a | clearing a | releasing a f | counting a | freeing a =>
    exact ⟨Nat.lt_of_lt_of_le h.1 (hle a), h.2⟩

end IcachePc

namespace Icache

variable {ι : Type} [Fintype ι] {s s' : Icache ι}

/-- What holds of the cache in every run. -/
structure Base (s : Icache ι) : Prop where
  unique : ∀ a b, 0 < (s.inode a).ref → 0 < (s.inode b).ref →
    (s.inode a).key = (s.inode b).key → a = b
  ref : ∀ a, (s.inode a).ref = tally (fun p => p.refs a) s.proc
  holder : ∀ i a, (s.inode a).holder = some i → 0 < (s.proc i).refs a
  place : ∀ i, (s.proc i).pc.Fits i (s.proc i).refs s.inode

theorem base_iinit (dinode : Nat × Nat → LinkInfo) (dirent : Nat × Nat → List Nat) :
    (iinit ι dinode dirent).Base where
  unique _ _ ha := absurd ha (lt_irrefl 0)
  ref a := (tally_eq_zero.mpr fun _ => rfl).symm
  holder _ _ hi := by cases hi
  place _ := trivial

theorem Base.congr (h : s.Base) {t : Icache ι} (hinode : t.inode = s.inode)
    (hproc : t.proc = s.proc) : t.Base := by
  constructor <;> rw [hinode]
  · exact h.unique
  · rw [hproc]
    exact h.ref
  · rw [hproc]
    exact h.holder
  · rw [hproc]
    exact h.place

theorem Base.sole (h : s.Base) {a : Fin ninode} {i j : ι} (hone : (s.inode a).ref = 1)
    (hi : 0 < (s.proc i).refs a) (hj : 0 < (s.proc j).refs a) : i = j := by
  by_contra hne
  have hsum := add_le_tally (fun p : IcacheProc => p.refs a) s.proc hne
  have href := h.ref a
  omega

theorem Base.ref_pos (h : s.Base) {a : Fin ninode} {i : ι} (hi : 0 < (s.proc i).refs a) :
    0 < (s.inode a).ref := by
  have hle := le_tally (fun p : IcacheProc => p.refs a) s.proc i
  have href := h.ref a
  omega

theorem Base.fits (h : s.Base) {i : ι} {pc : IcachePc} (hpc : (s.proc i).pc = pc) :
    pc.Fits i (s.proc i).refs s.inode := by
  have hfits := h.place i
  rwa [hpc] at hfits

theorem Base.refs_pos_of_freed (h : s.Base) {a : Fin ninode} {i : ι}
    (hf : (s.proc i).pc.freed a = true) : 0 < (s.proc i).refs a :=
  (h.place i).refs_pos_of_freed hf

variable {x : CachedInode ι}

omit [Fintype ι] in
theorem update_ref {a : Fin ninode} (h : x.ref = (s.inode a).ref) (b : Fin ninode) :
    (update s.inode a x b).ref = (s.inode b).ref := by
  by_cases hb : b = a
  · subst hb
    rw [update_self, h]
  · rw [update_of_ne hb]

omit [Fintype ι] in
theorem update_key {a : Fin ninode} (h : x.key = (s.inode a).key) (b : Fin ninode) :
    (update s.inode a x b).key = (s.inode b).key := by
  by_cases hb : b = a
  · subst hb
    rw [update_self, h]
  · rw [update_of_ne hb]

variable [DecidableEq ι]

section Moves

variable (s) (i : ι) (pc : IcachePc)

omit [Fintype ι] in
theorem goto_pc_self : ((s.goto i pc).proc i).pc = pc := by
  simp only [goto, update_self]

omit [Fintype ι] in
theorem goto_proc_of_ne {i j : ι} (h : j ≠ i) : (s.goto i pc).proc j = s.proc j :=
  update_of_ne h ..

variable {s i pc}

omit [Fintype ι] in
theorem goto_eq_self (h : (s.proc i).pc = pc) : s.goto i pc = s := by
  subst h
  simp only [goto, update_eq_self]

omit [Fintype ι] in
/-- A process that is somewhere else than where `i` goes was there before. -/
theorem pc_of_goto {j : ι} {pc' : IcachePc} (hj : ((s.goto i pc).proc j).pc = pc')
    (hne : pc ≠ pc') : j ≠ i ∧ (s.proc j).pc = pc' := by
  by_cases hji : j = i
  · subst hji
    rw [goto_pc_self] at hj
    exact absurd hj hne
  · rw [goto_proc_of_ne s pc hji] at hj
    exact ⟨hji, hj⟩

omit [Fintype ι] in
/-- What some process has done it still has when another one moves, or when it does not forget it. -/
theorem exists_pc_update {p : IcacheProc} (Q : IcachePc → Prop) (hi : Q (s.proc i).pc → Q p.pc)
    (hex : ∃ j, Q (s.proc j).pc) : ∃ j, Q (update s.proc i p j).pc := by
  obtain ⟨j, hj⟩ := hex
  refine ⟨j, ?_⟩
  by_cases hji : j = i
  · subst hji
    rw [update_self]
    exact hi hj
  · rwa [update_of_ne hji]

end Moves

/-- Slot `a` becomes `x` and process `i` becomes `p`, whatever happens to the disk. The other
processes keep their locks, and nobody else writes under them. -/
theorem Base.change (h : s.Base) {t : Icache ι} {i : ι} {p : IcacheProc} {a : Fin ninode}
    {x : CachedInode ι} (hinode : t.inode = update s.inode a x) (hproc : t.proc = update s.proc i p)
    (hrefs : ∀ b, b ≠ a → p.refs b = (s.proc i).refs b)
    (href : x.ref + (s.proc i).refs a = (s.inode a).ref + p.refs a)
    (hkey : ∀ b, b ≠ a → 0 < (s.inode b).ref → 0 < x.ref → (s.inode b).key ≠ x.key)
    (hholder : x.holder = some i → 0 < p.refs a)
    (hother : ∀ j, j ≠ i → (x.holder = some j ↔ (s.inode a).holder = some j) ∧
      ((s.inode a).holder = some j → x.valid = (s.inode a).valid ∧ x.copy = (s.inode a).copy))
    (hplace : p.pc.Fits i p.refs (update s.inode a x)) : t.Base := by
  constructor <;> rw [hinode]
  case unique =>
    intro b c
    by_cases hb : b = a <;> by_cases hc : c = a
    · exact fun _ _ _ => hb.trans hc.symm
    · subst hb
      rw [update_self, update_of_ne hc]
      exact fun hx hpos he => absurd he.symm (hkey c hc hpos hx)
    · subst hc
      rw [update_self, update_of_ne hb]
      exact fun hpos hx he => absurd he (hkey b hb hpos hx)
    · rw [update_of_ne hb, update_of_ne hc]
      exact h.unique b c
  case ref =>
    intro b
    have hcount := tally_update (fun p : IcacheProc => p.refs b) s.proc i p
    have hold := h.ref b
    rw [hproc]
    by_cases hb : b = a
    · subst hb
      rw [update_self]
      omega
    · rw [hrefs b hb] at hcount
      rw [update_of_ne hb]
      omega
  case holder =>
    intro j b
    rw [hproc]
    by_cases hj : j = i <;> by_cases hb : b = a
    · subst hj hb
      simpa only [update_self] using hholder
    · subst hj
      rw [update_self, update_of_ne hb, hrefs b hb]
      exact h.holder j b
    · subst hb
      rw [update_self, update_of_ne hj, (hother j hj).1]
      exact h.holder j b
    · rw [update_of_ne hj, update_of_ne hb]
      exact h.holder j b
  case place =>
    intro j
    rw [hproc]
    by_cases hj : j = i
    · subst hj
      rw [update_self]
      exact hplace
    · rw [update_of_ne hj]
      exact (h.place j).update (hother j hj).1 (hother j hj).2

/-- A process goes on inside `ilock` or `iput`: it may take or release the lock of slot `a`, and as
the holder write the copy. -/
theorem Base.move (h : s.Base) {i : ι} (pc : IcachePc) {a : Fin ninode} {x : CachedInode ι}
    (hkey : x.key = (s.inode a).key) (href : x.ref = (s.inode a).ref)
    (hholder : x.holder = (s.inode a).holder ∨
      ((s.inode a).holder = none ∨ (s.inode a).holder = some i) ∧
        (x.holder = none ∨ x.holder = some i ∧ 0 < (s.proc i).refs a))
    (hsame : x.valid = (s.inode a).valid ∧ x.copy = (s.inode a).copy ∨
      (s.inode a).holder = some i)
    (hplace : pc.Fits i (s.proc i).refs (update s.inode a x)) :
    ((s.setInode a x).goto i pc).Base := by
  have hne : ∀ {j} {o : Option ι}, j ≠ i → o = none ∨ o = some i → ¬ o = some j := by
    rintro j o hj (rfl | rfl)
    · exact nofun
    · exact fun he => hj (Option.some.inj he).symm
  refine h.change rfl rfl (fun _ _ => rfl) (by rw [href]; rfl) (fun b hb hpos hx he => ?_) ?_
    (fun j hj => ⟨?_, fun hold => ?_⟩) hplace
  · exact hb (h.unique b a hpos (href ▸ hx) (he.trans hkey))
  · obtain hx | ⟨-, hx | ⟨-, hpos⟩⟩ := hholder
    · rw [hx]
      exact h.holder i a
    · rw [hx]
      exact nofun
    · exact fun _ => hpos
  · obtain hx | ⟨ho, hx⟩ := hholder
    · rw [hx]
    · exact iff_of_false (hne hj (hx.imp_right And.left)) (hne hj ho)
  · exact hsame.resolve_right fun hi => hne hj (.inr hi) hold

/-- A process goes on inside `ilock` or `iput` and changes nothing. -/
theorem Base.goto (h : s.Base) {i : ι} (pc : IcachePc)
    (hplace : pc.Fits i (s.proc i).refs s.inode) : (s.goto i pc).Base := by
  have hsame : s.setInode 0 (s.inode 0) = s := by
    simp only [setInode, update_eq_self]
  have hmoved : ((s.setInode 0 (s.inode 0)).goto i pc).Base :=
    h.move pc rfl rfl (.inl rfl) (.inl ⟨rfl, rfl⟩) (by rwa [update_eq_self])
  rwa [hsame] at hmoved

/-- A process gains a reference: to a slot in use, or to an unused one, for an inode that no slot
holds. -/
theorem Base.gain (h : s.Base) (i : ι) {a : Fin ninode} {x : CachedInode ι}
    (href : x.ref = (s.inode a).ref + 1) (hholder : x.holder = (s.inode a).holder)
    (hsame : (x.valid = (s.inode a).valid ∧ x.copy = (s.inode a).copy ∧
        x.key = (s.inode a).key ∧ 0 < (s.inode a).ref) ∨
      (s.inode a).ref = 0 ∧ ∀ b, 0 < (s.inode b).ref → (s.inode b).key ≠ x.key) :
    ((s.setInode a x).setRefs i a ((s.proc i).refs a + 1)).Base := by
  have hcopy : ∀ {j}, (s.inode a).holder = some j →
      x.valid = (s.inode a).valid ∧ x.copy = (s.inode a).copy := by
    intro j hj
    obtain ⟨hvalid, hcopy, -⟩ | ⟨hzero, -⟩ := hsame
    · exact ⟨hvalid, hcopy⟩
    · have := h.ref_pos (h.holder j a hj)
      omega
  refine h.change rfl rfl (fun b hb => update_of_ne hb ..) ?_ (fun b hb hpos _ => ?_) (fun _ => ?_)
    (fun j _ => ⟨by rw [hholder], hcopy⟩) ?_
  · rw [href]
    simp only [setInode, update_self]
    omega
  · obtain ⟨-, -, hkey, hused⟩ | ⟨-, hfresh⟩ := hsame
    · rw [hkey]
      exact fun he => hb (h.unique b a hpos hused he)
    · exact hfresh b hpos
  · simp only [setInode, update_self]
    exact Nat.succ_pos _
  · refine ((h.place i).update (by rw [hholder]) hcopy).mono fun b => ?_
    show (s.proc i).refs b ≤ update (s.proc i).refs a ((s.proc i).refs a + 1) b
    rw [update_apply]
    split
    · rename_i hb
      rw [hb]
      exact Nat.le_succ _
    · exact le_rfl

variable {key : Nat × Nat}

omit [Fintype ι] [DecidableEq ι] in
theorem lookup_spec {a : Fin ninode} (hl : s.lookup key = some a) :
    0 < (s.inode a).ref ∧ (s.inode a).key = key := by
  have := List.find?_some hl
  simpa using this

omit [Fintype ι] [DecidableEq ι] in
theorem lookup_eq_none (hl : s.lookup key = none) (a : Fin ninode) (hpos : 0 < (s.inode a).ref) :
    (s.inode a).key ≠ key := by
  have := List.find?_eq_none.mp hl a (List.mem_finRange a)
  simp only [decide_eq_true_eq, not_and] at this
  exact this hpos

omit [Fintype ι] [DecidableEq ι] in
theorem empty_spec {a : Fin ninode} (he : s.empty = some a) : (s.inode a).ref = 0 := by
  have := List.find?_some he
  simpa using this

omit [Fintype ι] in
/-- `iget` finds the inode in a slot in use, or gives it an unused one. -/
theorem iget_cases {i : ι} (hs : s.iget i key = .ok s') :
    (∃ a, 0 < (s.inode a).ref ∧ (s.inode a).key = key ∧ s' = s.addRef i a) ∨
      ∃ a, (s.inode a).ref = 0 ∧ (∀ b, 0 < (s.inode b).ref → (s.inode b).key ≠ key) ∧
        s' = (s.setInode a { s.inode a with key := key, ref := 1, valid := false }).setRefs i a
          ((s.proc i).refs a + 1) := by
  unfold iget at hs
  cases hl : s.lookup key with
  | some a =>
    rw [hl] at hs
    cases hs
    obtain ⟨hpos, hkey⟩ := lookup_spec hl
    exact .inl ⟨a, hpos, hkey, rfl⟩
  | none =>
    rw [hl] at hs
    cases he : s.empty with
    | none => simp [he] at hs
    | some a =>
      simp only [he, Except.ok.injEq] at hs
      exact .inr ⟨a, empty_spec he, lookup_eq_none hl, hs.symm⟩

theorem Base.addRef (h : s.Base) (i : ι) {a : Fin ninode} (hused : 0 < (s.inode a).ref) :
    (s.addRef i a).Base :=
  h.gain i rfl rfl (.inl ⟨rfl, rfl, rfl, hused⟩)

theorem Base.iget (h : s.Base) {i : ι} (hs : s.iget i key = .ok s') :
    s'.Base := by
  obtain ⟨a, hpos, -, rfl⟩ | ⟨a, hzero, hfresh, rfl⟩ := iget_cases hs
  · exact h.addRef i hpos
  · exact h.gain i (by rw [hzero]) rfl (.inr ⟨hzero, hfresh⟩)

theorem Base.acquiresleep (h : s.Base) {i : ι} {a : Fin ninode} {pc : IcachePc}
    (hpos : 0 < (s.proc i).refs a) (hpc : pc = .loading a ∨ pc = .testing a) :
    (s.acquiresleep i a pc).Base := by
  unfold Icache.acquiresleep
  cases ha : (s.inode a).holder with
  | some j => exact h
  | none =>
    refine h.move pc rfl rfl (.inr ⟨.inl ha, .inr ⟨rfl, hpos⟩⟩) (.inl ⟨rfl, rfl⟩) ?_
    obtain rfl | rfl := hpc <;> simp [IcachePc.Fits, hpos]

omit [Fintype ι] in
theorem iputDrop_proc (i : ι) (a : Fin ninode) : (s.iputDrop i a).proc = update s.proc i
    ⟨.running, update (s.proc i).refs a ((s.proc i).refs a - 1)⟩ := by
  simp only [Icache.iputDrop, goto, setRefs, setInode, update_self, update_idem]

theorem Base.iputDrop (h : s.Base) {i : ι} {a : Fin ninode} {freed : Bool}
    (hpc : (s.proc i).pc = .dropping a freed) : (s.iputDrop i a).Base := by
  obtain ⟨hrefs, hholder⟩ := h.fits hpc
  have hused := h.ref_pos hrefs
  refine h.change rfl (iputDrop_proc i a) (fun b hb => update_of_ne hb ..) ?_ (fun b hb hpos _ he => ?_)
    (fun hi => absurd hi hholder) (fun _ _ => ⟨.rfl, fun _ => ⟨rfl, rfl⟩⟩) trivial
  · simp only [update_self]
    omega
  · exact hb (h.unique b a hpos hused he)

theorem Base.iputInvalid (h : s.Base) {i : ι} {a : Fin ninode}
    (hpc : (s.proc i).pc = .clearing a) : (s.iputInvalid i a).Base := by
  have hfits := h.fits hpc
  refine h.move (.releasing a true) rfl rfl (.inl rfl) (.inr hfits.2) ?_
  simp only [IcachePc.Fits, update_self]
  exact hfits

theorem Base.iputRelease (h : s.Base) {i : ι} {a : Fin ninode} {freed : Bool}
    (hpc : (s.proc i).pc = .releasing a freed) : (s.iputRelease i a freed).Base := by
  have hfits := h.fits hpc
  refine h.move (.dropping a freed) rfl rfl (.inr ⟨.inr hfits.2, .inl rfl⟩) (.inl ⟨rfl, rfl⟩) ?_
  simp only [IcachePc.Fits, update_self]
  exact ⟨hfits.1, nofun⟩

theorem Base.iputFree (h : s.Base) {i : ι} {a : Fin ninode} (hpc : (s.proc i).pc = .freeing a) :
    (s.iputFree i a).Base := by
  obtain ⟨hrefs, hholder, -, -⟩ := h.fits hpc
  have hmoved := h.move (i := i) (.clearing a)
    (x := { s.inode a with copy := { (s.inode a).copy with type := none } }) rfl rfl (.inl rfl)
    (.inr hholder) (by
      simp only [IcachePc.Fits, update_self]
      exact ⟨hrefs, hholder⟩)
  exact hmoved.congr rfl rfl

/-- A running process that holds the lock of `a` changes the slot, all but its inode and count. -/
theorem Base.setInode (h : s.Base) {i : ι} {a : Fin ninode} (hpc : (s.proc i).pc = .running)
    (hi : (s.inode a).holder = some i) (hkey : x.key = (s.inode a).key)
    (href : x.ref = (s.inode a).ref) (hholder : x.holder = (s.inode a).holder ∨ x.holder = none) :
    (s.setInode a x).Base := by
  have hmoved := h.move (i := i) .running hkey href
    (hholder.imp_right fun hx => ⟨.inr hi, .inl hx⟩) (.inr hi) trivial
  rwa [goto_eq_self (by exact hpc)] at hmoved

theorem Base.step (h : s.Base) {act : IcacheAction ι} (hs : s.step act = .ok s') : s'.Base := by
  cases step_cases hs with
  | igetEntry hpc hnamed hs => exact h.iget hs
  | igetHeld hpc hrefs hs => exact h.iget hs
  | idup hpc hrefs => exact h.addRef _ (h.ref_pos hrefs)
  | ilock hpc hrefs => exact h.goto _ hrefs
  | ilockAcquire hpc => exact h.acquiresleep (h.fits hpc) (.inl rfl)
  | iputAcquire hpc => exact h.acquiresleep (h.fits hpc) (.inr rfl)
  | ilockValid hpc hvalid => exact h.goto .running trivial
  | ilockRead hpc htype =>
    exact h.move .running rfl rfl (.inl rfl) (.inr (h.fits hpc).2) trivial
  | iunlock hpc hholder => exact h.setInode hpc hholder rfl rfl (.inr rfl)
  | iput hpc hrefs => exact h.goto _ hrefs
  | iputTest hpc hvalid hnlink =>
    have hfits := h.fits hpc
    exact h.goto _ ⟨hfits.1, hfits.2, hvalid, hnlink⟩
  | iputLinked hpc =>
    have hfits := h.fits hpc
    exact h.goto _ hfits
  | iputRef hpc hone =>
    have hfits := h.fits hpc
    exact h.goto _ hfits
  | iputShared hpc =>
    have hfits := h.fits hpc
    exact h.goto _ ⟨hfits.1, hfits.2.1⟩
  | iputFree hpc => exact h.iputFree hpc
  | iputInvalid hpc => exact h.iputInvalid hpc
  | iputRelease hpc => exact h.iputRelease hpc
  | iputDrop hpc => exact h.iputDrop hpc
  | ialloc hpc hnone => exact (h.goto (.allocated _) trivial).congr rfl rfl
  | iallocGet hpc hs => exact (h.goto .running trivial).iget hs
  | @setNlink i a nlink hpc hholder hvalid =>
    have hset := h.setInode (x := { s.inode a with copy := { (s.inode a).copy with nlink := nlink } })
      hpc hholder rfl rfl (.inl rfl)
    exact hset.congr rfl rfl
  | setDirents => exact h.congr rfl rfl

end Icache

end Xv6Mmap
