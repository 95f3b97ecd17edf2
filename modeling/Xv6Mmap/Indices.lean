import Xv6Mmap.Inherit
import Xv6Mmap.Lib.Traced

/-!
# Indices into the mapping table (`sysfile.c:456-895`, `proc.h:78-79`)

`p->arr` and the arrays of `p->wmapinfo` have sixteen elements, and no access checks its index. Here
the calls are written once more with every index they use recorded, the loops that print the table
included; `callT_val` says that without the indices they are the calls of the model.

* `run_counted`: `total_mmaps` stays in `0 … 16` for every process, whatever is called and however
  often it is forked, with gaps in the table or without.
* `indices_in_range_iff`: every index is in `0 … 15`, except in a `wremap` of the mapping in the last
  slot of a full table, which looks at the slot behind it (`wremap_reads_past_end`).
-/

namespace Xv6Mmap

open Lib
open Lib.Traced (use lift scan Within val_bind_ok mem_used_bind mem_used_use within_pure within_lift
  within_use scan_val scan_within)

/-- A kernel computation with the indices it uses on the arrays of a process. -/
abbrev Tr := Traced Int Halt

/-- `for (i = 0; i < n; i++)` over the slots, up to the first hit. -/
def scanSlots (hit : Nat → Bool) (n : Nat) : Tr (Option Nat) := scan (fun i => (i : Int)) hit n 0

/-- The loop that prints the table. -/
def printTable : Tr (Option Nat) := scanSlots (fun _ => false) maxWmmapInfo

/-! ## The calls with their indices -/

/-- `Maps.shiftRight`: `arr[insert_idx - 1]` is compared, and copied to `arr[insert_idx]`. -/
def Maps.shiftRightT (start : Word) : Nat → Maps → Tr (Nat × Maps)
  | 0, m => pure (0, m)
  | i + 1, m => do
    use (i : Int)
    if start < (m.arr i).start then
      use ((i : Int) + 1)
      shiftRightT start i (m.copyRight i)
    else pure (i + 1, m)

def insertMappingT (m : Maps) (rid : Rid) (start end_ flags length : Word) (numMappings : Int)
    (fd : Word) : Tr (Word × Maps) :=
  if numMappings = maxWmmapInfo then pure (failed, m)
  else if numMappings = 0 then do
    use 0
    pure (start, m.place 0 rid start end_ flags length fd)
  else do
    let r ← m.shiftRightT start numMappings.toNat
    -- the loop does not run for a negative count, which is then the index itself
    use (if numMappings < 0 then numMappings else r.1)
    pure (start, r.2.place r.1 rid start end_ flags length fd)

/-- `Maps.shiftLeft`: `arr[i + 1]` is copied to `arr[i]`. -/
def Maps.shiftLeftT : Nat → Nat → Maps → Tr Maps
  | 0, _, m => pure m
  | n + 1, i, m => do
    use (i : Int)
    use ((i : Int) + 1)
    shiftLeftT n (i + 1) (m.copyLeft i)

def removeMappingT (m : Maps) (addr : Word) : Tr (Bool × Maps) := do
  let m : Maps := { m with calls := m.calls ++ [.remove addr] }
  let r ← scanSlots (fun i => (m.arr i).valid != 0#32 && (m.arr i).start == addr) maxWmmapInfo
  match r with
  | none => pure (false, m)
  | some found => do
    use (found : Int)
    let m := m.unref found
    if (m.arr found).ref = 0#32 then do
      let m ← (m.wipe found).shiftLeftT (maxWmmapInfo - 1 - found) found
      pure (true, m)
    else pure (true, m)

/-- `searchFrom`: `arr[i]` at every turn. -/
def searchFromT (arr : Nat → MemBlock) (size : Word) : Nat → Nat → Word → Word → Tr Word
  | 0, _, _, leftmost => pure leftmost
  | n + 1, i, prevEnd, leftmost => do
    use (i : Int)
    if (arr i).valid = 0#32 then pure (prevEnd + 1#32)
    else
      searchFromT arr size n (i + 1) (arr i).end_
        (if size.toInt < ((arr i).start - prevEnd).toInt then prevEnd + 1#32 else leftmost)

def leftmostAddrT (arr : Nat → MemBlock) (size : Word) : Tr Word :=
  searchFromT arr size maxWmmapInfo 0 (minAddr - 1#32) minAddr

def printWhen (b : Bool) : Tr (Option Nat) := if b then printTable else pure none

/-- The table is printed after a call that did not fail. -/
def printIf (r : Word × Maps) : Tr (Word × Maps) := do
  let _ ← printWhen (r.1 != failed)
  pure r

def sysWmapT (pid : Nat) (m : Maps) (addr length flags fd : Word) : Tr (Word × Maps) :=
  let rid : Rid := (pid, m.calls.length)
  if length.toInt < 1 then pure (failed, m)
  else if hasFlag flags mapFixed then
    if addr.toNat % 4096 ≠ 0 then pure (failed, m)
    else do
      let end_ := addr + pgRoundUp length - 1#32
      let r ← scanSlots (fun i => (m.arr i).splits addr end_) maxWmmapInfo
      if r.isSome then pure (failed, m)
      else do
        let r ← insertMappingT m rid addr end_ flags length m.total fd
        printIf r
  else if m.total = maxWmmapInfo then pure (failed, m)
  else do
    let start ← leftmostAddrT m.arr (pgRoundUp length)
    let r ← insertMappingT m rid start (start + pgRoundUp length - 1#32) flags length m.total fd
    printIf r

def Maps.reinsertT (m : Maps) (oldaddr start end_ newsize : Word) (old : MemBlock) :
    Tr (Word × Maps) := do
  let r ← removeMappingT m oldaddr
  if r.1 then insertMappingT r.2 old.rid start end_ old.flags newsize r.2.total old.fd
  else pure (failed, r.2)

def sysWremapT (m : Maps) (oob : MemBlock) (oldaddr newsize flag : Word) : Tr (Word × Maps) :=
  if oldaddr.toNat % 4096 ≠ 0 then pure (failed, m)
  else do
    let r ← scanSlots (fun i => (m.arr i).valid == 1#32 && (m.arr i).start == oldaddr) m.total.toNat
    -- flags and descriptor are read before it is known whether there is a mapping
    use ((r.getD 0 : Nat) : Int)
    match r with
    | none => pure (failed, m)
    | some location => do
      let old := m.arr location
      let end_ := oldaddr + pgRoundUp newsize
      use ((location : Int) + 1)
      let next := m.next oob location
      if next.valid = 1#32 ∧ end_ < next.start then
        m.reinsertT oldaddr oldaddr (end_ - 1#32) newsize old
      else if next.valid = 0#32 then
        if maxAddr < end_ then pure (failed, m)
        else m.reinsertT oldaddr oldaddr (end_ - 1#32) newsize old
      else if flag = 0#32 then pure (failed, m)
      else do
        let r ← removeMappingT m oldaddr
        if r.1 then do
          let start ← leftmostAddrT r.2.arr (pgRoundUp newsize)
          let end_ := start + pgRoundUp newsize - 1#32
          let r ← insertMappingT r.2 old.rid start (end_ - 1#32) old.flags newsize r.2.total old.fd
          printIf r
        else pure (failed, r.2)

/-- The part of the fault handler that looks at the table: the scan, and then the entry found and
its counters. -/
def faultIndices (m : Maps) (va : Word) : Tr Unit := do
  let r ← scanSlots
    (fun i => (m.arr i).valid != 0#32 && decide ((m.arr i).start ≤ va) && decide (va ≤ (m.arr i).end_))
    maxWmmapInfo
  match r with
  | none => pure ()
  | some location => use (location : Int)

/-- Reading an absent page inside `filewrite` runs the fault handler. -/
def touchIndices (p : Proc) (va : Word) : Tr Unit :=
  if present (p.pgdir.entry (vpn va)) then pure () else faultIndices p.maps va

def touchAllT (io : FileIo) : List Word → Kmem → Proc → Tr (Kmem × Proc)
  | [], k, p => pure (k, p)
  | va :: vas, k, p => do
    touchIndices p va
    let s ← lift (touchPage k p va io)
    touchAllT io vas s.1 s.2

def writeBackT (k : Kmem) (p : Proc) (toFree : MemBlock) (io : FileIo) : Tr (Kmem × Proc) :=
  if hasFlag toFree.flags mapAnonymous || hasFlag toFree.flags mapPrivate then pure (k, p)
  else
    match p.ofileAt toFree.fd with
    | .file _ =>
      if io.reads then touchAllT io (touched toFree.start toFree.length.toInt.toNat) k p
      else pure (k, p)
    | _ => lift (.error .badDeref)

def sysWunmapT (k : Kmem) (p : Proc) (addr : Word) (io : FileIo) : Tr (Word × Kmem × Proc) :=
  if addr.toNat % 4096 ≠ 0 then pure (failed, k, p)
  else do
    let r ← scanSlots (fun i => (p.maps.arr i).start == addr) p.maps.total.toNat
    match r with
    | none => pure (failed, k, p)
    | some location => do
      let toFree := p.maps.arr location
      let s ← writeBackT k p toFree io
      -- `leftmostLoadedAddr[location]`, `n_loaded_pages[location]`, and `arr[location]` again
      use (location : Int)
      let d ← lift (unmapLoop (s.2.maps.unmapBound location) 1048577 s.1 s.2.pgdir
        (s.2.maps.unmapFrom location))
      let r ← removeMappingT s.2.maps toFree.start
      let _ ← printWhen r.1
      pure (if r.1 then success else failed, d.1, { s.2 with pgdir := d.2, maps := r.2 })

/-- A system call, with its indices. -/
def callT (k : Kmem) (p : Proc) : Call → Tr (Word × Kmem × Proc)
  | .wmap addr length flags fd => do
    let r ← sysWmapT p.pid p.maps addr length flags fd
    pure (r.1, k, { p with maps := r.2 })
  | .wunmap addr io => sysWunmapT k p addr io
  | .wremap oldaddr _ newsize flag oob => do
    let r ← sysWremapT p.maps oob oldaddr newsize flag
    pure (r.1, k, { p with maps := r.2 })
  | .fault va io => do
    faultIndices p.maps va
    let s ← lift (pgflt k p va io)
    pure (success, s.1, s.2)

/-! ## Without the indices they are the calls -/

theorem scanSlots_val (hit : Nat → Bool) (n : Nat) :
    (scanSlots hit n).val = .ok ((List.range n).find? hit) := by
  rw [List.range_eq_range']
  exact scan_val ..

theorem scanSlots_find (m : Maps) (addr : Word) :
    (scanSlots (fun i => (m.arr i).valid != 0#32 && (m.arr i).start == addr) maxWmmapInfo).val
      = .ok (m.find addr) :=
  scanSlots_val ..

theorem scanSlots_findLive (m : Maps) (addr : Word) :
    (scanSlots (fun i => (m.arr i).valid == 1#32 && (m.arr i).start == addr) m.total.toNat).val
      = .ok (m.findLive addr) :=
  scanSlots_val ..

theorem scanSlots_findStart (m : Maps) (addr : Word) :
    (scanSlots (fun i => (m.arr i).start == addr) m.total.toNat).val = .ok (m.findStart addr) :=
  scanSlots_val ..

theorem shiftRightT_val (start : Word) :
    ∀ (n : Nat) (m : Maps), (m.shiftRightT start n).val = .ok (m.shiftRight start n)
  | 0, m => rfl
  | n + 1, m => by
    rw [Maps.shiftRightT, Maps.shiftRight, val_bind_ok rfl]
    split
    · rw [val_bind_ok rfl]
      exact shiftRightT_val start n _
    · rfl

theorem insertMappingT_val (m : Maps) (rid : Rid) (start end_ flags length : Word)
    (numMappings : Int) (fd : Word) :
    (insertMappingT m rid start end_ flags length numMappings fd).val
      = .ok (insertMapping m rid start end_ flags length numMappings fd) := by
  unfold insertMappingT insertMapping
  split
  · rfl
  · split
    · rfl
    · rw [val_bind_ok (shiftRightT_val ..), val_bind_ok rfl]
      rfl

theorem shiftLeftT_val :
    ∀ (n i : Nat) (m : Maps), (m.shiftLeftT n i).val = .ok (m.shiftLeft n i)
  | 0, i, m => rfl
  | n + 1, i, m => by
    rw [Maps.shiftLeftT, Maps.shiftLeft, val_bind_ok rfl, val_bind_ok rfl]
    exact shiftLeftT_val n (i + 1) _

theorem removeMappingT_val (m : Maps) (addr : Word) :
    (removeMappingT m addr).val = .ok (removeMapping m addr) := by
  unfold removeMappingT removeMapping
  dsimp only
  rw [val_bind_ok (scanSlots_find { m with calls := m.calls ++ [.remove addr] } addr)]
  cases ({ m with calls := m.calls ++ [.remove addr] } : Maps).find addr with
  | none => rfl
  | some found =>
    dsimp only
    rw [val_bind_ok rfl]
    split
    · rw [val_bind_ok (shiftLeftT_val ..)]
      rfl
    · rfl

theorem searchFromT_val (arr : Nat → MemBlock) (size : Word) :
    ∀ (n i : Nat) (prevEnd leftmost : Word),
      (searchFromT arr size n i prevEnd leftmost).val = .ok (searchFrom arr size n i prevEnd leftmost)
  | 0, _, _, _ => rfl
  | n + 1, i, prevEnd, leftmost => by
    rw [searchFromT, searchFrom, val_bind_ok rfl]
    split
    · rfl
    · exact searchFromT_val arr size n (i + 1) _ _

theorem leftmostAddrT_val (arr : Nat → MemBlock) (size : Word) :
    (leftmostAddrT arr size).val = .ok (leftmostAddr arr size) :=
  searchFromT_val ..

theorem printTable_val : printTable.val = .ok none := by
  unfold printTable
  rw [scanSlots_val]
  simp

theorem printWhen_val (b : Bool) : (printWhen b).val = .ok none := by
  unfold printWhen
  split
  · exact printTable_val
  · rfl

theorem printIf_val (r : Word × Maps) : (printIf r).val = .ok r := by
  rw [printIf, val_bind_ok (printWhen_val _)]
  rfl

theorem reinsertT_val (m : Maps) (oldaddr start end_ newsize : Word) (old : MemBlock) :
    (m.reinsertT oldaddr start end_ newsize old).val
      = .ok (m.reinsert oldaddr start end_ newsize old) := by
  unfold Maps.reinsertT Maps.reinsert
  rw [val_bind_ok (removeMappingT_val ..)]
  dsimp only
  split
  · exact insertMappingT_val ..
  · rfl

theorem sysWmapT_val (pid : Nat) (m : Maps) (addr length flags fd : Word) :
    (sysWmapT pid m addr length flags fd).val = .ok (sysWmap pid m addr length flags fd) := by
  unfold sysWmapT sysWmap
  dsimp only
  split
  · rfl
  split
  · split
    · rfl
    · rw [val_bind_ok (scanSlots_val ..)]
      have hany : ((List.range maxWmmapInfo).find? fun i =>
          (m.arr i).splits addr (addr + pgRoundUp length - 1#32)).isSome
          = (List.range maxWmmapInfo).any fun i =>
              (m.arr i).splits addr (addr + pgRoundUp length - 1#32) := by
        rw [Bool.eq_iff_iff, List.find?_isSome, List.any_eq_true]
      rw [hany]
      split
      · rfl
      · rw [val_bind_ok (insertMappingT_val ..)]
        exact printIf_val _
  · split
    · rfl
    · rw [val_bind_ok (leftmostAddrT_val ..), val_bind_ok (insertMappingT_val ..)]
      exact printIf_val _

theorem sysWremapT_val (m : Maps) (oob : MemBlock) (oldaddr oldsize newsize flag : Word) :
    (sysWremapT m oob oldaddr newsize flag).val
      = .ok (sysWremap m oob oldaddr oldsize newsize flag) := by
  unfold sysWremapT sysWremap
  split
  · rfl
  rw [val_bind_ok (scanSlots_findLive ..), val_bind_ok rfl]
  cases m.findLive oldaddr with
  | none => rfl
  | some location =>
    dsimp only
    rw [val_bind_ok rfl]
    split
    · exact reinsertT_val ..
    split
    · split
      · rfl
      · exact reinsertT_val ..
    split
    · rfl
    rw [val_bind_ok (removeMappingT_val ..)]
    split
    · rw [val_bind_ok (leftmostAddrT_val ..), val_bind_ok (insertMappingT_val ..)]
      exact printIf_val _
    · rfl

theorem faultIndices_val (m : Maps) (va : Word) : (faultIndices m va).val = .ok () := by
  unfold faultIndices
  rw [val_bind_ok (scanSlots_val ..)]
  split <;> rfl

theorem touchIndices_val (p : Proc) (va : Word) : (touchIndices p va).val = .ok () := by
  unfold touchIndices
  split
  · rfl
  · exact faultIndices_val ..

theorem touchAllT_val (io : FileIo) :
    ∀ (vas : List Word) (k : Kmem) (p : Proc), (touchAllT io vas k p).val = touchAll io vas k p
  | [], _, _ => rfl
  | va :: vas, k, p => by
    rw [touchAllT, touchAll, val_bind_ok (touchIndices_val ..), Traced.val_bind, Traced.val_lift]
    cases touchPage k p va io with
    | error e => rfl
    | ok s => exact touchAllT_val io vas s.1 s.2

theorem writeBackT_val (k : Kmem) (p : Proc) (toFree : MemBlock) (io : FileIo) :
    (writeBackT k p toFree io).val = writeBack k p toFree io := by
  unfold writeBackT writeBack
  split
  · rfl
  cases p.ofileAt toFree.fd with
  | null => rfl
  | wild => rfl
  | file slot =>
    dsimp only
    split
    · exact touchAllT_val ..
    · rfl

theorem sysWunmapT_val (k : Kmem) (p : Proc) (addr : Word) (io : FileIo) :
    (sysWunmapT k p addr io).val = sysWunmap k p addr io := by
  unfold sysWunmapT sysWunmap
  split
  · rfl
  rw [val_bind_ok (scanSlots_findStart ..)]
  cases p.maps.findStart addr with
  | none => rfl
  | some location =>
    dsimp only
    rw [Traced.val_bind, writeBackT_val]
    cases writeBack k p (p.maps.arr location) io with
    | error e => rfl
    | ok s =>
      dsimp only
      rw [val_bind_ok rfl, Traced.val_bind, Traced.val_lift]
      cases unmapLoop (s.2.maps.unmapBound location) 1048577 s.1 s.2.pgdir
          (s.2.maps.unmapFrom location) with
      | error e => rfl
      | ok d =>
        dsimp only
        rw [val_bind_ok (removeMappingT_val ..)]
        rw [val_bind_ok (printWhen_val _)]
        rfl

/-- **Without its indices a traced call is the call.** -/
theorem callT_val (k : Kmem) (p : Proc) (c : Call) : (callT k p c).val = call k p c := by
  cases c with
  | wmap addr length flags fd =>
    rw [callT, val_bind_ok (sysWmapT_val ..)]
    rfl
  | wunmap addr io => exact sysWunmapT_val ..
  | wremap oldaddr oldsize newsize flag oob =>
    rw [callT, val_bind_ok (sysWremapT_val p.maps oob oldaddr oldsize newsize flag)]
    rfl
  | fault va io =>
    rw [callT, val_bind_ok (faultIndices_val ..), Traced.val_bind, Traced.val_lift, call]
    cases pgflt k p va io <;> rfl

/-! ## The count -/

/-- `total_mmaps` is a count of slots. -/
def Maps.Counted (m : Maps) : Prop := 0 ≤ m.total ∧ m.total ≤ maxWmmapInfo

variable {m : Maps}

theorem insertMapping_counted (h : m.Counted) (rid : Rid) (start end_ flags length fd : Word) :
    (insertMapping m rid start end_ flags length m.total fd).2.Counted := by
  by_cases hfull : m.total = maxWmmapInfo
  · unfold insertMapping
    rw [if_pos hfull]
    exact h
  · rw [insertMapping_inserted hfull]
    obtain ⟨h0, h16⟩ := h
    change 0 ≤ m.total + 1 ∧ m.total + 1 ≤ maxWmmapInfo
    omega

theorem Maps.total_shiftLeft : ∀ (n i : Nat) (m : Maps), (m.shiftLeft n i).total = m.total
  | 0, _, _ => rfl
  | n + 1, i, m => (Maps.total_shiftLeft n (i + 1) (m.copyLeft i)).trans rfl

theorem removeMapping_total (m : Maps) (addr : Word) :
    (removeMapping m addr).2.total = m.total ∨ (removeMapping m addr).2.total = m.total - 1 := by
  unfold removeMapping
  dsimp only
  split
  · exact .inl rfl
  · split
    · refine .inr ?_
      rw [Maps.total_shiftLeft]
      rfl
    · exact .inl rfl

/-- The count after a removal that a call makes: it has found an entry below the count. -/
theorem Maps.Counted.removeMapping (h : m.Counted) (hpos : 0 < m.total) (addr : Word) :
    (removeMapping m addr).2.Counted := by
  obtain ⟨h0, h16⟩ := h
  unfold Maps.Counted
  rcases removeMapping_total m addr with heq | heq <;> omega

theorem Maps.Counted.reinsert (h : m.Counted) (hpos : 0 < m.total)
    (oldaddr start end_ newsize : Word) (old : MemBlock) :
    (m.reinsert oldaddr start end_ newsize old).2.Counted := by
  unfold Maps.reinsert
  dsimp only
  split
  · exact insertMapping_counted (h.removeMapping hpos oldaddr) ..
  · exact h.removeMapping hpos oldaddr

theorem Maps.findLive_pos {addr : Word} {l : Nat} (h : m.findLive addr = some l) :
    0 < m.total := by
  have := (Maps.findLive_spec h).1
  omega

theorem Maps.Counted.sameTable {m' : Maps} (h : m.Counted) (hs : m.SameTable m') : m'.Counted := by
  unfold Maps.Counted
  rw [hs.total]
  exact h

variable {k : Kmem} {p : Proc}

theorem call_counted {k' : Kmem} {p' : Proc} {c : Call} {r : Word} (h : p.maps.Counted)
    (hc : call k p c = .ok (r, k', p')) : p'.maps.Counted := by
  cases c with
  | wmap addr length flags fd =>
    obtain ⟨-, -, rfl⟩ := call_wmap hc
    dsimp only
    obtain heq | ⟨-, -, -, heq⟩ := sysWmap_cases p.pid p.maps addr length flags fd
    · rw [heq]
      exact h
    · rw [heq]
      exact insertMapping_counted h ..
  | wunmap addr io =>
    obtain ⟨-, -, rfl⟩ | ⟨l, k1, p1, d, hal, hfind, hw, -, -, rfl⟩ := sysWunmap_cases hc
    · exact h
    · have hspec := Maps.findStart_spec hfind
      have hsame := writeBack_sameTable (by rw [hspec.2.1]; exact hal) hw
      have htotal := hsame.total
      exact (h.sameTable hsame).removeMapping (by have := hspec.1; omega) addr
  | wremap oldaddr oldsize newsize flag oob =>
    obtain ⟨-, -, rfl⟩ := call_wremap hc
    dsimp only
    obtain heq | ⟨l, -, hl, ⟨-, heq⟩ | ⟨-, heq⟩⟩ :=
      sysWremap_cases p.maps oob oldaddr oldsize newsize flag
    · rw [heq]
      exact h
    · rw [heq]
      exact h.reinsert (Maps.findLive_pos hl) ..
    · rw [heq]
      exact h.reinsert (Maps.findLive_pos hl) ..
  | fault va io => exact h.sameTable (pgflt_sameTable (call_fault hc))

theorem Maps.counted_init : Maps.init.Counted := ⟨le_rfl, Int.natCast_nonneg _⟩

/-- A child counts at most one mapping for every slot of its parent. -/
theorem Maps.counted_inheritFirst (m : Maps) : (m.inheritFirst maxWmmapInfo).Counted := by
  unfold Maps.Counted
  rw [Maps.inheritFirst_total]
  have hle := m.inheritedBelow_le maxWmmapInfo
  omega

/-! ## A property of every table, over all runs -/

/-- Every process that can call has a table with `P`. -/
def Sys.Each (P : Maps → Prop) (s : Sys) : Prop := ∀ i, (s.proc i).state.live = true → P (s.proc i).maps

section Each

variable {P : Maps → Prop}

variable {s : Sys} {i : Fin nproc}

theorem Sys.Each.setProc {k : Kmem} {p : Proc} (h : s.Each P)
    (hp : p.state.live = true → P p.maps) : (s.setProc k i p).Each P := by
  intro x hx
  by_cases hxi : x = i
  · subst hxi
    rw [Sys.setProc_proc_self] at hx ⊢
    exact hp hx
  · rw [Sys.setProc_proc_of_ne _ _ _ hxi] at hx ⊢
    exact h x hx

variable {s' : Sys} {o : Option (Fin nproc)}

theorem Sys.Each.allocproc (h : s.Each P) (ha : allocproc s = .ok (o, s')) : s'.Each P := by
  obtain ⟨-, -, -, hsame⟩ | ⟨j, k, kstack, wmap, pages, k1, k2, -, -, -, -, -, rfl⟩ :=
    allocproc_cases ha
  · intro x hx
    obtain heq | ⟨-, hunused⟩ := hsame x
    · rw [heq] at hx ⊢
      exact h x hx
    · rw [hunused] at hx
      cases hx
  · exact Sys.Each.setProc (s := { s with nextpid := s.nextpid + 1 }) h nofun

/-- A slot that was just handed out has an empty table. -/
theorem allocproc_maps (ha : allocproc s = .ok (some i, s')) :
    (s'.proc i).maps = Maps.init := by
  obtain ⟨hnone, -⟩ | ⟨j, k0, kstack, wmap, pages, k1, k2, hj, -, -, -, -, rfl⟩ := allocproc_cases ha
  · cases hnone
  · cases hj
    rw [Sys.setProc_proc_self]

theorem Sys.Each.fork (hchild : ∀ m : Maps, P (m.inheritFirst maxWmmapInfo)) (h : s.Each P)
    (hf : fork s i = .ok (o, s')) : s'.Each P := by
  obtain ⟨-, ha⟩ | ⟨j, s1, ha, ⟨-, k, k', -, -, rfl⟩ | ⟨d, k, k', np, -, -, hfe, rfl⟩⟩ := fork_cases hf
  · exact h.allocproc ha
  · exact (h.allocproc ha).setProc nofun
  · refine (h.allocproc ha).setProc fun _ => ?_
    have hmaps : np.maps = (s1.proc i).maps.inheritFirst maxWmmapInfo := by
      refine forkEntries_maps ?_ hfe
      exact allocproc_maps ha
    change P np.maps
    rw [hmaps]
    exact hchild _

theorem exitBlocks_maps (hunref : ∀ (m : Maps) (x : Nat), P m → P (m.unref x)) {p : Proc} :
    ∀ {n x : Nat} {k k' : Kmem} {m m' : Maps}, P m → exitBlocks p n x k m = .ok (k', m') → P m'
  | 0, _, _, _, _, _, hm, h => by
    cases h
    exact hm
  | n + 1, x, k, k', m, m', hm, h => by
    rw [exitBlocks] at h
    split at h
    · cases h
    · exact exitBlocks_maps hunref (hunref m x hm) h

/-- The exiting process becomes a zombie, and the only table written is its parent's. -/
theorem Sys.Each.exit (hunref : ∀ (m : Maps) (x : Nat), P m → P (m.unref x)) (h : s.Each P)
    (he : exit s i = .ok s') : s'.Each P := by
  unfold Xv6Mmap.exit at he
  split at he
  · cases he
  dsimp only at he
  split at he
  · cases he
  split at he
  · cases he
  rename_i j _
  split at he
  · cases he
  rename_i k m hblocks
  split at he
  · cases he
  cases he
  -- the children that go to `initproc` keep their state and their table
  have horphan : ∀ x, (if (s.proc x).parent = some i then
      { s.proc x with parent := some s.initproc } else s.proc x).state = (s.proc x).state ∧
      (if (s.proc x).parent = some i then
        { s.proc x with parent := some s.initproc } else s.proc x).maps = (s.proc x).maps := by
    intro x
    split <;> exact ⟨rfl, rfl⟩
  intro x hx
  dsimp only at hx ⊢
  by_cases hxi : x = i
  · subst hxi
    rw [Function.update_self] at hx
    cases hx
  rw [Function.update_of_ne hxi] at hx ⊢
  by_cases hxj : x = j
  · subst hxj
    rw [Function.update_self] at hx ⊢
    refine exitBlocks_maps hunref ?_ hblocks
    rw [(horphan x).2]
    exact h x ((horphan x).1 ▸ hx)
  · rw [Function.update_of_ne hxj] at hx ⊢
    rw [(horphan x).2]
    exact h x ((horphan x).1 ▸ hx)

theorem Sys.Each.wait (h : s.Each P) (hw : wait s i = .ok (o, s')) : s'.Each P := by
  unfold Xv6Mmap.wait at hw
  split at hw
  · dsimp only at hw
    split at hw
    · cases hw
    split at hw <;> cases hw
    exact h.setProc nofun
  · split at hw <;> cases hw
    exact h

/-- What the calls keep, what lowering a reference keeps and what every child starts with holds of
every table, over all runs. -/
theorem run_each (hcall : ∀ (k k' : Kmem) (p p' : Proc) (c : Call) (r : Word), P p.maps →
      call k p c = .ok (r, k', p') → P p'.maps)
    (hunref : ∀ (m : Maps) (x : Nat), P m → P (m.unref x))
    (hchild : ∀ m : Maps, P (m.inheritFirst maxWmmapInfo))
    {as : List (Fin nproc × Action)} (h : s.Each P) (hr : run step s as = .ok s') : s'.Each P := by
  refine run_invariant_of_step (Sys.Each P) (fun s a s' hs hstep => ?_) h hr
  unfold step at hstep
  split at hstep
  · rename_i hlive
    split at hstep
    · split at hstep
      · cases hstep
      · rename_i hc
        cases hstep
        exact hs.setProc fun _ => hcall _ _ _ _ _ _ (hs _ hlive) hc
    · split at hstep
      · cases hstep
      · rename_i hf
        cases hstep
        exact hs.fork hchild hf
    · exact hs.exit hunref hstep
    · split at hstep
      · cases hstep
      · rename_i hw
        cases hstep
        exact hs.wait hw
  · cases hstep

end Each

theorem userinit_each {P : Maps → Prop} (hinit : P Maps.init) {init : Page} {s : Sys}
    (h : userinit k init = .ok s) : s.Each P := by
  unfold userinit at h
  split at h
  · cases h
  · cases h
  rename_i i s1 ha
  split at h
  · cases h
  · cases h
  split at h
  · cases h
  rename_i k' d _
  cases h
  have hboot : (Sys.boot k ⟨0, by decide⟩).Each P := nofun
  intro x hx
  refine (hboot.allocproc ha).setProc (k := k') (i := i) (fun _ => ?_) x hx
  change P (s1.proc i).maps
  rw [allocproc_maps ha]
  exact hinit

/-- **The count stays a count of slots**, whatever the processes call and however they are forked. -/
theorem run_counted {init : Page} {s s' : Sys} {as : List (Fin nproc × Action)}
    (hboot : userinit k init = .ok s) (hr : run step s as = .ok s') : s'.Each Maps.Counted :=
  run_each (fun _ _ _ _ _ _ hp hc => call_counted hp hc) (fun _ _ hm => hm)
    Maps.counted_inheritFirst (userinit_each Maps.counted_init hboot) hr

/-! ## The indices -/

/-- The index of a slot. -/
def SlotIndex (i : Int) : Prop := 0 ≤ i ∧ i < maxWmmapInfo

theorem slotIndex_natCast {i : Nat} (h : i < maxWmmapInfo) : SlotIndex (i : Int) :=
  ⟨Int.natCast_nonneg i, Int.ofNat_lt.mpr h⟩

theorem scanSlots_within {hit : Nat → Bool} {n : Nat} (hn : n ≤ maxWmmapInfo) :
    Within SlotIndex (scanSlots hit n) :=
  scan_within fun j _ hj => slotIndex_natCast (by omega)

theorem printTable_within : Within SlotIndex printTable := scanSlots_within le_rfl

theorem shiftRightT_within (start : Word) :
    ∀ {n : Nat} {m : Maps}, n < maxWmmapInfo → Within SlotIndex (m.shiftRightT start n)
  | 0, m, _ => within_pure _
  | n + 1, m, hn => by
    refine Within.use_then (slotIndex_natCast (by omega)) ?_
    split
    · exact Within.use_then (slotIndex_natCast hn) (shiftRightT_within start (by omega))
    · exact within_pure _

theorem insertMappingT_within {numMappings : Int} {rid : Rid} {start end_ flags length fd : Word}
    (h0 : 0 ≤ numMappings) (h16 : numMappings ≤ maxWmmapInfo) :
    Within SlotIndex (insertMappingT m rid start end_ flags length numMappings fd) := by
  unfold insertMappingT
  split
  · exact within_pure _
  split
  · exact Within.use_then (slotIndex_natCast (by decide)) (within_pure _)
  · refine (shiftRightT_within start (by omega)).bind fun r hr => ?_
    rw [shiftRightT_val, shiftRight_eq] at hr
    cases hr
    have hle := insertIndex_le start m.arr numMappings.toNat
    refine Within.use_then ?_ (within_pure _)
    rw [if_neg (by omega)]
    exact slotIndex_natCast (by dsimp only; omega)

theorem shiftLeftT_within :
    ∀ {n i : Nat} {m : Maps}, i + n < maxWmmapInfo → Within SlotIndex (m.shiftLeftT n i)
  | 0, _, _, _ => within_pure _
  | n + 1, i, m, h => by
    refine Within.use_then (slotIndex_natCast (by omega)) ?_
    exact Within.use_then (slotIndex_natCast (i := i + 1) (by omega)) (shiftLeftT_within (by omega))

theorem removeMappingT_within (m : Maps) (addr : Word) :
    Within SlotIndex (removeMappingT m addr) := by
  unfold removeMappingT
  refine (scanSlots_within le_rfl).bind fun r hr => ?_
  rw [scanSlots_find { m with calls := m.calls ++ [.remove addr] } addr] at hr
  cases r with
  | none => exact within_pure _
  | some found =>
    have hlt : found < maxWmmapInfo := (Maps.find_spec (Except.ok.inj hr)).1
    refine Within.use_then (slotIndex_natCast hlt) ?_
    dsimp only
    split
    · refine (shiftLeftT_within ?_).bind fun _ _ => within_pure _
      unfold maxWmmapInfo at hlt ⊢
      omega
    · exact within_pure _

theorem searchFromT_within {arr : Nat → MemBlock} {size : Word} :
    ∀ {n i : Nat} {prevEnd leftmost : Word}, i + n ≤ maxWmmapInfo →
      Within SlotIndex (searchFromT arr size n i prevEnd leftmost)
  | 0, _, _, _, _ => within_pure _
  | n + 1, i, _, _, h => by
    refine Within.use_then (slotIndex_natCast (by omega)) ?_
    split
    · exact within_pure _
    · exact searchFromT_within (by omega)

theorem printWhen_within (b : Bool) : Within SlotIndex (printWhen b) := by
  unfold printWhen
  split
  · exact printTable_within
  · exact within_pure _

theorem printIf_within (r : Word × Maps) : Within SlotIndex (printIf r) :=
  (printWhen_within _).bind fun _ _ => within_pure _

theorem sysWmapT_within (h : m.Counted) (pid : Nat) (addr length flags fd : Word) :
    Within SlotIndex (sysWmapT pid m addr length flags fd) := by
  have hins : ∀ rid start end_, Within SlotIndex
      (insertMappingT m rid start end_ flags length m.total fd >>= printIf) := fun rid start end_ =>
    (insertMappingT_within h.1 h.2).bind fun r _ => printIf_within r
  unfold sysWmapT
  dsimp only
  split
  · exact within_pure _
  split
  · split
    · exact within_pure _
    · refine (scanSlots_within le_rfl).bind fun r _ => ?_
      split
      · exact within_pure _
      · exact hins _ _ _
  · split
    · exact within_pure _
    · exact (searchFromT_within (by decide)).bind fun start _ => hins _ _ _

theorem reinsertT_within {oldaddr start end_ newsize : Word} {old : MemBlock} (h : m.Counted)
    (hpos : 0 < m.total) :
    Within SlotIndex (m.reinsertT oldaddr start end_ newsize old) := by
  refine (removeMappingT_within m oldaddr).bind fun r hr => ?_
  rw [removeMappingT_val] at hr
  cases hr
  have hcount := h.removeMapping hpos oldaddr
  split
  · exact insertMappingT_within hcount.1 hcount.2
  · exact within_pure _

/-- A `wremap` that finds its mapping looks at the slot behind it. -/
theorem sysWremapT_next (oob : MemBlock) {oldaddr : Word} (newsize flag : Word) {l : Nat}
    (hal : oldaddr.toNat % 4096 = 0) (hl : m.findLive oldaddr = some l) :
    (l : Int) + 1 ∈ (sysWremapT m oob oldaddr newsize flag).used := by
  have hscan := scanSlots_findLive m oldaddr
  rw [hl] at hscan
  unfold sysWremapT
  rw [if_neg (not_not.mpr hal)]
  exact mem_used_bind hscan (mem_used_bind rfl (mem_used_use _ _))

theorem sysWremapT_within_iff (h : m.Counted) (oob : MemBlock) (oldaddr newsize flag : Word) :
    Within SlotIndex (sysWremapT m oob oldaddr newsize flag) ↔
      ¬ (oldaddr.toNat % 4096 = 0 ∧ m.findLive oldaddr = some 15) := by
  constructor
  · rintro hall ⟨hal, hlast⟩
    exact absurd (hall _ (sysWremapT_next oob newsize flag hal hlast)).2 (by decide)
  unfold sysWremapT
  by_cases hal : oldaddr.toNat % 4096 ≠ 0
  · rw [if_pos hal]
    exact fun _ => within_pure _
  rw [if_neg hal]
  have htotal : m.total.toNat ≤ maxWmmapInfo := by
    have := h.2
    omega
  intro hok
  refine (scanSlots_within htotal).bind fun r hr => ?_
  rw [scanSlots_findLive] at hr
  cases hr
  cases hl : m.findLive oldaddr with
  | none => exact Within.use_then (slotIndex_natCast (by decide)) (within_pure _)
  | some l =>
    have hpos := Maps.findLive_pos hl
    have hlt : l < m.total.toNat := (Maps.findLive_spec hl).1
    have hne : l ≠ 15 := fun heq => hok ⟨not_not.mp hal, heq ▸ hl⟩
    have hl15 : l + 1 < maxWmmapInfo := by
      unfold maxWmmapInfo at *
      omega
    refine Within.use_then (slotIndex_natCast (show l < maxWmmapInfo by omega)) ?_
    refine Within.use_then (slotIndex_natCast (i := l + 1) hl15) ?_
    dsimp only
    split
    · exact reinsertT_within h hpos
    split
    · split
      · exact within_pure _
      · exact reinsertT_within h hpos
    split
    · exact within_pure _
    refine (removeMappingT_within m oldaddr).bind fun r hr => ?_
    rw [removeMappingT_val] at hr
    cases hr
    have hcount := h.removeMapping hpos oldaddr
    split
    · refine (searchFromT_within (by decide)).bind fun start _ => ?_
      exact (insertMappingT_within hcount.1 hcount.2).bind fun r _ => printIf_within r
    · exact within_pure _

theorem faultIndices_within (m : Maps) (va : Word) : Within SlotIndex (faultIndices m va) := by
  refine (scanSlots_within le_rfl).bind fun r hr => ?_
  rw [scanSlots_val] at hr
  cases r with
  | none => exact within_pure _
  | some location =>
    have hmem := List.mem_of_find?_eq_some (Except.ok.inj hr)
    exact within_use (slotIndex_natCast (List.mem_range.mp hmem))

theorem touchAllT_within {io : FileIo} :
    ∀ {vas : List Word} {k : Kmem} {p : Proc}, Within SlotIndex (touchAllT io vas k p)
  | [], _, _ => within_pure _
  | va :: vas, k, p => by
    have htouch : Within SlotIndex (touchIndices p va) := by
      unfold touchIndices
      split
      · exact within_pure _
      · exact faultIndices_within p.maps va
    refine htouch.bind fun _ _ => (within_lift _).bind fun s _ => ?_
    exact touchAllT_within

theorem writeBackT_within (k : Kmem) (p : Proc) (toFree : MemBlock) (io : FileIo) :
    Within SlotIndex (writeBackT k p toFree io) := by
  unfold writeBackT
  split
  · exact within_pure _
  split
  · split
    · exact touchAllT_within
    · exact within_pure _
  · exact within_lift _

theorem sysWunmapT_within (h : p.maps.Counted) (addr : Word) (io : FileIo) :
    Within SlotIndex (sysWunmapT k p addr io) := by
  have htotal : p.maps.total.toNat ≤ maxWmmapInfo := by
    have := h.2
    omega
  unfold sysWunmapT
  split
  · exact within_pure _
  refine (scanSlots_within htotal).bind fun r hr => ?_
  rw [scanSlots_findStart] at hr
  cases r with
  | none => exact within_pure _
  | some location =>
    have hlt := (Maps.findStart_spec (Except.ok.inj hr)).1
    refine (writeBackT_within k p _ io).bind fun s _ => ?_
    refine Within.use_then (slotIndex_natCast (show location < maxWmmapInfo by omega)) ?_
    refine (within_lift _).bind fun d _ => (removeMappingT_within _ _).bind fun r _ => ?_
    exact (printWhen_within _).bind fun _ _ => within_pure _

/-- A `wremap` of the mapping in the last slot. -/
def Maps.RemapsLast (m : Maps) : Call → Prop
  | .wremap oldaddr _ _ _ _ => oldaddr.toNat % 4096 = 0 ∧ m.findLive oldaddr = some 15
  | _ => False

theorem callT_within_iff (h : p.maps.Counted) (c : Call) :
    Within SlotIndex (callT k p c) ↔ ¬ p.maps.RemapsLast c := by
  cases c with
  | wmap addr length flags fd =>
    exact iff_of_true ((sysWmapT_within h _ _ _ _ _).bind fun _ _ => within_pure _) id
  | wunmap addr io => exact iff_of_true (sysWunmapT_within h addr io) id
  | wremap oldaddr oldsize newsize flag oob =>
    refine Iff.trans ?_ (sysWremapT_within_iff h oob oldaddr newsize flag)
    refine ⟨fun hw i hi => hw i ?_, fun hw => hw.bind fun _ _ => within_pure _⟩
    rw [callT, Traced.used_bind_ok (sysWremapT_val p.maps oob oldaddr oldsize newsize flag)]
    exact List.mem_append_left _ hi
  | fault va io =>
    refine iff_of_true ((faultIndices_within _ va).bind fun _ _ => ?_) id
    exact (within_lift _).bind fun _ _ => within_pure _

/-- Sixteen mappings of one page. -/
def sixteenPages : List (Word × Word) := List.replicate 16 (4096#32, mapAnonymous)

theorem exists_full_table :
    ∃ s s', userinit (Kmem.initial 200) (fun _ => 0#8) = .ok s ∧
      run step s (wmapActions 0 sixteenPages) = .ok s' ∧ (s'.proc 0).state.live = true ∧
      (s'.proc 0).maps = wmapAll 1 Maps.init sixteenPages := by
  obtain ⟨s, hs, hboot, -, -⟩ := exists_booted
  have hlive : (s.proc 0).state.live = true := by rw [hboot.frame]; rfl
  refine ⟨s, _, hs, run_wmaps _ hlive, ?_, ?_⟩
  · rw [Sys.setProc_proc_self]
    exact hlive
  · rw [Sys.setProc_proc_self]
    have hpid : (s.proc 0).pid = 1 := by rw [hboot.frame]
    have hmaps : (s.proc 0).maps = Maps.init := by rw [hboot.frame]; rfl
    dsimp only
    rw [hpid, hmaps]

end Xv6Mmap
