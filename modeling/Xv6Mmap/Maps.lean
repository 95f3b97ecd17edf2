import Mathlib.Logic.Function.Basic
import Xv6Mmap.Mmu

/-!
# The mapping table of a process (`sysfile.c:447-706`, `sysfile.c:784-895`, `proc.h`)

A process has sixteen `mem_block`s (`p->arr`), kept sorted by `start` with the used ones first,
and the parallel arrays of `p->wmapinfo`. An array is a function on indices; the code uses the
indices `0 … 15`, and the one read past the end, `p->arr[location + 1]` in `sys_wremap`, yields
whatever `oob` says.

* `insertMapping` / `removeMapping` are `insert_mapping` and `remove_mapping`: the hand-written
  shifting loops are `shiftRight` (which leaves `leftmostLoadedAddr` alone) and `shiftLeft`.
* `sysWmap`, `sysWremap`, `sysGetwmapinfo` are the system calls that touch nothing else;
  `leftmostAddr` is the placement loop that `sys_wmap` and `sys_wremap` share.

Two ghost fields carry history and are never read: `MemBlock.rid` says which `sys_wmap` call made
an entry (the pid of its process and the number of table calls made before), and `Maps.calls`
lists the calls of `insert_mapping` that added an entry and of `remove_mapping`, oldest first.

Out of scope here: the `cprintf`s, the fetching of arguments from the user stack, the page table
the page cache of a mapping (`Calls`), the file behind `fd` (`MappedFiles`), and other processes (`Proc`).
-/

namespace Xv6Mmap

open Function (update)

/-- Ghost: the pid and the call number of the `sys_wmap` call that made a mapping. -/
abbrev Rid := Nat × Nat

/-- `struct mem_block`. -/
structure MemBlock where
  start : Word
  end_ : Word
  flags : Word
  length : Word
  fd : Word
  ref : Word
  valid : Word
  rid : Rid
  deriving DecidableEq, Repr

/-- `struct wmapinfo`. -/
structure Wmapinfo where
  totalMmaps : Int
  addr : Nat → Word
  length : Nat → Word
  nLoadedPages : Nat → Word
  leftmostLoadedAddr : Nat → Word

/-- A call that changes the table. -/
inductive TableCall where
  | insert (start end_ flags length fd : Word)
  | remove (addr : Word)
  deriving DecidableEq, Repr

/-- `p->arr` and `p->wmapinfo`. -/
structure Maps where
  arr : Nat → MemBlock
  wmapinfo : Wmapinfo
  calls : List TableCall

/-- A `mem_block` as `allocproc` initialises it. -/
def MemBlock.empty : MemBlock := ⟨0#32, 0#32, 0#32, 0#32, 0#32, 0#32, 0#32, (0, 0)⟩

/-- The table as `allocproc` initialises it. -/
def Maps.init : Maps where
  arr _ := MemBlock.empty
  wmapinfo :=
    { totalMmaps := 0, addr := fun _ => 0#32, length := fun _ => 0#32,
      nLoadedPages := fun _ => 0#32, leftmostLoadedAddr := fun _ => maxAddr + 1#32 }
  calls := []

/-- The number of entries the table claims. -/
def Maps.total (m : Maps) : Int := m.wmapinfo.totalMmaps

/-! ## `insert_mapping` -/

/-- One turn of the right shift: slot `i` to slot `i + 1`, but not `leftmostLoadedAddr`. -/
def Maps.copyRight (m : Maps) (i : Nat) : Maps :=
  { m with
    arr := update m.arr (i + 1) (m.arr i)
    wmapinfo :=
      { m.wmapinfo with
        addr := update m.wmapinfo.addr (i + 1) (m.wmapinfo.addr i)
        length := update m.wmapinfo.length (i + 1) (m.wmapinfo.length i)
        nLoadedPages :=
          update m.wmapinfo.nLoadedPages (i + 1) (m.wmapinfo.nLoadedPages i) } }

/-- `while (insert_idx > 0 && p->arr[insert_idx - 1]->start > start) …`: the final `insert_idx`
and the shifted table. -/
def Maps.shiftRight (start : Word) : Nat → Maps → Nat × Maps
  | 0, m => (0, m)
  | i + 1, m => if start < (m.arr i).start then shiftRight start i (m.copyRight i) else (i + 1, m)

/-- Write a new entry at slot `idx` and count it; `n_loaded_pages[idx]` is not written. -/
def Maps.place (m : Maps) (idx : Nat) (rid : Rid) (start end_ flags length fd : Word) : Maps where
  arr := update m.arr idx ⟨start, end_, flags, length, fd, 1#32, 1#32, rid⟩
  wmapinfo :=
    { m.wmapinfo with
      addr := update m.wmapinfo.addr idx start
      length := update m.wmapinfo.length idx length
      totalMmaps := m.wmapinfo.totalMmaps + 1 }
  calls := m.calls ++ [.insert start end_ flags length fd]

/-- `insert_mapping(start, end, flags, length, numMappings, fd)`. -/
def insertMapping (m : Maps) (rid : Rid) (start end_ flags length : Word) (numMappings : Int)
    (fd : Word) : Word × Maps :=
  if numMappings = maxWmmapInfo then (failed, m)
  else if numMappings = 0 then (start, m.place 0 rid start end_ flags length fd)
  else
    let (idx, m') := m.shiftRight start numMappings.toNat
    (start, m'.place idx rid start end_ flags length fd)

/-! ## `remove_mapping` -/

/-- One turn of the left shift: slot `i + 1` to slot `i`. -/
def Maps.copyLeft (m : Maps) (i : Nat) : Maps :=
  { m with
    arr := update m.arr i (m.arr (i + 1))
    wmapinfo :=
      { m.wmapinfo with
        addr := update m.wmapinfo.addr i (m.wmapinfo.addr (i + 1))
        length := update m.wmapinfo.length i (m.wmapinfo.length (i + 1))
        nLoadedPages :=
          update m.wmapinfo.nLoadedPages i (m.wmapinfo.nLoadedPages (i + 1))
        leftmostLoadedAddr :=
          update m.wmapinfo.leftmostLoadedAddr i
            (m.wmapinfo.leftmostLoadedAddr (i + 1)) } }

/-- `for (i = found; i < MAX_WMMAP_INFO - 1; i++) …`, with the number of turns left. -/
def Maps.shiftLeft : Nat → Nat → Maps → Maps
  | 0, _, m => m
  | n + 1, i, m => shiftLeft n (i + 1) (m.copyLeft i)

/-- The slot is wiped (all but `start`) and the count dropped before the shift. -/
def Maps.wipe (m : Maps) (found : Nat) : Maps :=
  { m with
    arr := update m.arr found
      { m.arr found with
        end_ := 0#32, flags := 0#32, length := 0#32, fd := 0#32, ref := 0#32, valid := 0#32 }
    wmapinfo :=
      { totalMmaps := m.wmapinfo.totalMmaps - 1
        addr := update m.wmapinfo.addr found 0#32
        length := update m.wmapinfo.length found 0#32
        nLoadedPages := update m.wmapinfo.nLoadedPages found 0#32
        leftmostLoadedAddr := update m.wmapinfo.leftmostLoadedAddr found 0#32 } }

/-- The slot `remove_mapping` removes: the first valid one that starts at `addr`. -/
def Maps.find (m : Maps) (addr : Word) : Option Nat :=
  (List.range maxWmmapInfo).find? fun i => (m.arr i).valid != 0#32 && (m.arr i).start == addr

/-- `p->arr[found]->ref -= 1`. -/
def Maps.unref (m : Maps) (found : Nat) : Maps :=
  { m with arr := update m.arr found { m.arr found with ref := (m.arr found).ref - 1#32 } }

/-- `remove_mapping(addr)`: whether an entry was found, and the table afterwards. -/
def removeMapping (m : Maps) (addr : Word) : Bool × Maps :=
  let m : Maps := { m with calls := m.calls ++ [.remove addr] }
  match m.find addr with
  | none => (false, m)
  | some found =>
    let m := m.unref found
    if (m.arr found).ref = 0#32 then
      (true, (m.wipe found).shiftLeft (maxWmmapInfo - 1 - found) found)
    else (true, m)

/-! ## Placement -/

/-- The search loop from slot `i`, with the number of turns left: `prevEnd` is the end of the
entry before, `leftmost` the candidate so far. A free slot ends the search right after the
previous entry; a gap wider than `size` (compared as `int`s) replaces the candidate. -/
def searchFrom (arr : Nat → MemBlock) (size : Word) : Nat → Nat → Word → Word → Word
  | 0, _, _, leftmost => leftmost
  | n + 1, i, prevEnd, leftmost =>
    if (arr i).valid = 0#32 then prevEnd + 1#32
    else
      searchFrom arr size n (i + 1) (arr i).end_
        (if size.toInt < ((arr i).start - prevEnd).toInt then prevEnd + 1#32 else leftmost)

/-- The address the search settles on for `size` bytes (a rounded-up length). -/
def leftmostAddr (arr : Nat → MemBlock) (size : Word) : Word :=
  searchFrom arr size maxWmmapInfo 0 (minAddr - 1#32) minAddr

/-- The two tests of the `MAP_FIXED` case against one entry: an endpoint of `[addr, end]` falls
strictly inside it. -/
def MemBlock.splits (b : MemBlock) (addr end_ : Word) : Bool :=
  b.valid != 0#32 &&
    ((decide (b.start < addr) && decide (addr < b.end_)) ||
      (decide (b.start < end_) && decide (end_ < b.end_)))

/-! ## The system calls -/

/-- `sys_wmap()`; `pid` is only for the ghost `rid`. `addr < 0` never holds of a `uint`. -/
def sysWmap (pid : Nat) (m : Maps) (addr length flags fd : Word) : Word × Maps :=
  let rid : Rid := (pid, m.calls.length)
  if length.toInt < 1 then (failed, m)
  else if hasFlag flags mapFixed then
    if addr.toNat % 4096 ≠ 0 then (failed, m)
    else
      let end_ := addr + pgRoundUp length - 1#32
      if (List.range maxWmmapInfo).any fun i => (m.arr i).splits addr end_ then (failed, m)
      else insertMapping m rid addr end_ flags length m.total fd
  else if m.total = maxWmmapInfo then (failed, m)
  else
    let start := leftmostAddr m.arr (pgRoundUp length)
    insertMapping m rid start (start + pgRoundUp length - 1#32) flags length m.total fd

/-- The slot `sys_wremap` works on. -/
def Maps.findLive (m : Maps) (addr : Word) : Option Nat :=
  (List.range m.total.toNat).find? fun i => (m.arr i).valid == 1#32 && (m.arr i).start == addr

/-- The entry after `location`, as `p->arr[location + 1]` reads it. -/
def Maps.next (m : Maps) (oob : MemBlock) (location : Nat) : MemBlock :=
  if location + 1 < maxWmmapInfo then m.arr (location + 1) else oob

/-- Remove the entry at `oldaddr` and insert it again as `[start, end]` with the new length. -/
def Maps.reinsert (m : Maps) (oldaddr start end_ newsize : Word) (old : MemBlock) : Word × Maps :=
  let (x, m') := removeMapping m oldaddr
  if x then insertMapping m' old.rid start end_ old.flags newsize m'.total old.fd
  else (failed, m')

/-- `sys_wremap()`. `oldsize` is fetched and never used. -/
def sysWremap (m : Maps) (oob : MemBlock) (oldaddr _oldsize newsize flag : Word) : Word × Maps :=
  if oldaddr.toNat % 4096 ≠ 0 then (failed, m)
  else
    match m.findLive oldaddr with
    | none => (failed, m)
    | some location =>
      let old := m.arr location
      let next := m.next oob location
      let end_ := oldaddr + pgRoundUp newsize
      if next.valid = 1#32 ∧ end_ < next.start then
        m.reinsert oldaddr oldaddr (end_ - 1#32) newsize old
      else if next.valid = 0#32 then
        if maxAddr < end_ then (failed, m)
        else m.reinsert oldaddr oldaddr (end_ - 1#32) newsize old
      else if flag = 0#32 then (failed, m)
      else
        let (x, m') := removeMapping m oldaddr
        if x then
          -- `end` already has its `- 1`; the call subtracts one more
          let start := leftmostAddr m'.arr (pgRoundUp newsize)
          let end_ := start + pgRoundUp newsize - 1#32
          insertMapping m' old.rid start (end_ - 1#32) old.flags newsize m'.total old.fd
        else (failed, m')

/-- `sys_getwmapinfo()` for a non-null pointer: what it writes over the caller's structure. -/
def sysGetwmapinfo (m : Maps) (wminfo : Wmapinfo) : Wmapinfo :=
  { wminfo with
    totalMmaps := m.wmapinfo.totalMmaps
    addr := fun i => if (i : Int) < m.total then m.wmapinfo.addr i else wminfo.addr i
    length := fun i => if (i : Int) < m.total then m.wmapinfo.length i else wminfo.length i
    nLoadedPages := fun i =>
      if (i : Int) < m.total then m.wmapinfo.nLoadedPages i else wminfo.nLoadedPages i }

end Xv6Mmap
