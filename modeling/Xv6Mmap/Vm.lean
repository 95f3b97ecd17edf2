import Xv6Mmap.Kalloc

/-!
# Page tables (`vm.c`)

A page directory is kept by value: `pde i` is the page table that entry `i` points to, if present,
with the page it lives in and its 1024 entries as words. The present, writable and user bits that
`walkpgdir` sets in every directory entry are not stored, since no modelled function tests them.
`entry n` is the page table entry of virtual page `n`, zero where there is no table.

* `walkpgdir` reports whether it returned a pointer; the entry it points to is `entry (vpn va)`,
  read with `entry` and written with `setEntry`.
* A `panic` is `Except.error`, a `-1` or null return is an ordinary result.
* Loops that end on an equality or a wrapping comparison have a fuel of `2 ^ 20` turns, the number
  of pages of the address space.

Out of scope: `seginit`, `switchkvm` and `kvmalloc` (segments, `cr3` and the directory the scheduler
runs on), and the TLB. `loaduvm` is in `Exec`, `uva2ka` and `copyout` in `Copyout`. That tables are
memory which stray writes can reach is the subject of `Tables`.
-/

namespace Xv6Mmap

/-- A page table: the page it lives in and its entries. -/
structure PgTab where
  page : Word
  pte : Nat → Word

/-- A page directory: the page it lives in and the tables its entries point to. -/
structure PgDir where
  page : Word
  pde : Nat → Option PgTab

namespace PgDir

/-- A directory just after `memset(pgdir, 0, PGSIZE)`. -/
def empty (page : Word) : PgDir := ⟨page, fun _ => none⟩

/-- The entry of virtual page `n`. -/
def entry (d : PgDir) (n : Nat) : Word :=
  match d.pde (n / 1024) with
  | none => 0#32
  | some t => t.pte (n % 1024)

/-- `*pte = w` for the entry of virtual page `n`. -/
def setEntry (d : PgDir) (n : Nat) (w : Word) : PgDir :=
  match d.pde (n / 1024) with
  | none => d
  | some t =>
    { d with pde := Function.update d.pde (n / 1024) (some ⟨t.page, Function.update t.pte (n % 1024) w⟩) }

/-- The page table that covers virtual page `n` exists. -/
def hasTab (d : PgDir) (n : Nat) : Bool := (d.pde (n / 1024)).isSome

end PgDir

/-- `walkpgdir(pgdir, va, alloc)`: whether it returns a non-null pointer. -/
def walkpgdir (k : Kmem) (d : PgDir) (va : Word) (alloc : Bool) : Bool × Kmem × PgDir :=
  match d.pde (pdx va) with
  | some _ => (true, k, d)
  | none =>
    if alloc then
      match kalloc k .pgtab with
      | none => (false, k, d)
      | some (pgtab, k') =>
        (true, k'.memset pgtab 0#8,
          { d with pde := Function.update d.pde (pdx va) (some ⟨pgtab, fun _ => 0#32⟩) })
    else (false, k, d)

/-- The loop of `mappages` from page `a`, ending after page `last`. -/
def mapLoop (last perm : Word) : Nat → Kmem → PgDir → Word → Word → Except Halt (Bool × Kmem × PgDir)
  | 0, _, _, _, _ => .error .deadlock
  | fuel + 1, k, d, a, pa =>
    match walkpgdir k d a true with
    | (false, k, d) => .ok (false, k, d)
    | (true, k, d) =>
      if present (d.entry (vpn a)) then .error (.panic "remap")
      else
        let d := d.setEntry (vpn a) (pa ||| perm ||| pteP)
        if a = last then .ok (true, k, d)
        else mapLoop last perm fuel k d (a + pgSize) (pa + pgSize)

/-- `mappages(pgdir, va, size, pa, perm)`; `true` for `0`, `false` for `-1`. -/
def mappages (k : Kmem) (d : PgDir) (va size pa perm : Word) : Except Halt (Bool × Kmem × PgDir) :=
  mapLoop (pgRoundDown (va + size - 1#32)) perm 1048576 k d (pgRoundDown va) pa

/-- `deallocuvm`'s loop from page `a` up to `oldsz`. -/
def deallocLoop (oldsz : Word) : Nat → Kmem → PgDir → Word → Except Halt (Kmem × PgDir)
  | 0, _, _, _ => .error .deadlock
  | fuel + 1, k, d, a =>
    if a < oldsz then
      match walkpgdir k d a false with
      | (false, _, _) =>
        -- no page table: on to the last page of this directory entry
        deallocLoop oldsz fuel k d (pgAddr (pdx a + 1) - pgSize + pgSize)
      | (true, _, _) =>
        let pte := d.entry (vpn a)
        if present pte then
          if pteAddr pte = 0#32 then .error (.panic "kfree")
          else
            match kfree k (p2v (pteAddr pte)) with
            | .error e => .error e
            | .ok k => deallocLoop oldsz fuel k (d.setEntry (vpn a) 0#32) (a + pgSize)
        else deallocLoop oldsz fuel k d (a + pgSize)
    else .ok (k, d)

/-- `deallocuvm(pgdir, oldsz, newsz)`: the size it returns. -/
def deallocuvm (k : Kmem) (d : PgDir) (oldsz newsz : Word) : Except Halt (Word × Kmem × PgDir) :=
  if oldsz ≤ newsz then .ok (oldsz, k, d)
  else
    match deallocLoop oldsz 1048577 k d (pgRoundUp newsz) with
    | .error e => .error e
    | .ok (k, d) => .ok (newsz, k, d)

/-- The last loop of `freevm`: free the page tables of directory entries `i, i + 1, …`. -/
def freeTabs (d : PgDir) : Nat → Nat → Kmem → Except Halt Kmem
  | 0, _, k => .ok k
  | n + 1, i, k =>
    match d.pde i with
    | none => freeTabs d n (i + 1) k
    | some t =>
      match kfree k t.page with
      | .error e => .error e
      | .ok k => freeTabs d n (i + 1) k

/-- `freevm(pgdir)` for a non-null directory. -/
def freevm (k : Kmem) (d : PgDir) : Except Halt Kmem :=
  match deallocuvm k d minAddr 0#32 with
  | .error e => .error e
  | .ok (_, k, d) =>
    match freeTabs d 1024 0 k with
    | .error e => .error e
    | .ok k => kfree k d.page

/-! ## The kernel part of a page table -/

/-- A row of `kmap`. -/
structure Kmap where
  virt : Word
  physStart : Word
  physEnd : Word
  perm : Word

/-- `kmap[]`. -/
def kmap (im : KernelImage) : List Kmap :=
  [⟨kernBase, 0#32, extMem, pteW⟩,
   ⟨kernLink, v2p kernLink, v2p im.data, 0#32⟩,
   ⟨im.data, v2p im.data, phystop, pteW⟩,
   ⟨devSpace, devSpace, 0#32, pteW⟩]

/-- The loop of `setupkvm` over the rows of `kmap`; `none` is the null return. -/
def setupRows : List Kmap → Kmem → PgDir → Except Halt (Option PgDir × Kmem)
  | [], k, d => .ok (some d, k)
  | r :: rows, k, d =>
    match mappages k d r.virt (r.physEnd - r.physStart) r.physStart r.perm with
    | .error e => .error e
    | .ok (true, k, d) => setupRows rows k d
    | .ok (false, k, d) =>
      match freevm k d with
      | .error e => .error e
      | .ok k => .ok (none, k)

/-- `setupkvm()`. -/
def setupkvm (k : Kmem) : Except Halt (Option PgDir × Kmem) :=
  match kalloc k .pgdir with
  | none => .ok (none, k)
  | some (pgdir, k) => setupRows (kmap k.image) (k.memset pgdir 0#8) (PgDir.empty pgdir)

/-! ## User memory -/

/-- The loop of `allocuvm` from `a` up to `newsz`. -/
def allocLoop (oldsz newsz : Word) : Nat → Kmem → PgDir → Word → Except Halt (Word × Kmem × PgDir)
  | 0, _, _, _ => .error .deadlock
  | fuel + 1, k, d, a =>
    if a < newsz then
      match kalloc k .user with
      | none =>
        match deallocuvm k d newsz oldsz with
        | .error e => .error e
        | .ok (_, k, d) => .ok (0#32, k, d)
      | some (mem, k) =>
        match mappages (k.memset mem 0#8) d a pgSize (v2p mem) (pteW ||| pteU) with
        | .error e => .error e
        | .ok (true, k, d) => allocLoop oldsz newsz fuel k d (a + pgSize)
        | .ok (false, k, d) =>
          match deallocuvm k d newsz oldsz with
          | .error e => .error e
          | .ok (_, k, d) =>
            match kfree k mem with
            | .error e => .error e
            | .ok k => .ok (0#32, k, d)
    else .ok (newsz, k, d)

/-- `allocuvm(pgdir, oldsz, newsz)`: the size it returns, zero on failure. -/
def allocuvm (k : Kmem) (d : PgDir) (oldsz newsz : Word) : Except Halt (Word × Kmem × PgDir) :=
  if kernBase ≤ newsz then .ok (0#32, k, d)
  else if newsz < oldsz then .ok (oldsz, k, d)
  else allocLoop oldsz newsz 1048577 k d (pgRoundUp oldsz)

/-- `inituvm(pgdir, init, sz)` for an initcode smaller than a page. -/
def inituvm (k : Kmem) (d : PgDir) (init : Page) : Except Halt (Kmem × PgDir) :=
  match kalloc k .user with
  | none => .error .badDeref
  | some (mem, k) =>
    match mappages (k.memset mem 0#8) d 0#32 pgSize (v2p mem) (pteW ||| pteU) with
    | .error e => .error e
    | .ok (_, k, d) => .ok ({ k with mem := Function.update k.mem mem init }, d)

/-- `clearpteu(pgdir, uva)`. -/
def clearpteu (d : PgDir) (uva : Word) : Except Halt PgDir :=
  if d.hasTab (vpn uva) then .ok (d.setEntry (vpn uva) (d.entry (vpn uva) &&& ~~~pteU))
  else .error (.panic "clearpteu")

/-- The loop of `copyuvm` from `i` up to `sz`; `none` is the null return. -/
def copyLoop (pgdir : PgDir) (sz : Word) : Nat → Kmem → PgDir → Word →
    Except Halt (Option PgDir × Kmem)
  | 0, _, _, _ => .error .deadlock
  | fuel + 1, k, d, i =>
    if i < sz then
      if pgdir.hasTab (vpn i) then
        let pte := pgdir.entry (vpn i)
        if present pte then
          match kalloc k .user with
          | none =>
            match freevm k d with
            | .error e => .error e
            | .ok k => .ok (none, k)
          | some (mem, k) =>
            match mappages (k.memmove mem (p2v (pteAddr pte))) d i pgSize (v2p mem) (pteFlags pte) with
            | .error e => .error e
            | .ok (true, k, d) => copyLoop pgdir sz fuel k d (i + pgSize)
            | .ok (false, k, d) =>
              match kfree k mem with
              | .error e => .error e
              | .ok k =>
                match freevm k d with
                | .error e => .error e
                | .ok k => .ok (none, k)
        else .error (.panic "copyuvm: page not present")
      else .error (.panic "copyuvm: pte should exist")
    else .ok (some d, k)

/-- `copyuvm(pgdir, sz)`. -/
def copyuvm (k : Kmem) (pgdir : PgDir) (sz : Word) : Except Halt (Option PgDir × Kmem) :=
  match setupkvm k with
  | .error e => .error e
  | .ok (none, k) => .ok (none, k)
  | .ok (some d, k) => copyLoop pgdir sz 1048577 k d 0#32

end Xv6Mmap
