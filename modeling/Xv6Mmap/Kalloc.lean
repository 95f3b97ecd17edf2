import Xv6Mmap.Lib.AllocLog
import Xv6Mmap.Maps

/-!
# The physical page allocator (`kalloc.c`)

`Kmem` is the allocator's state: the free list as the list of page addresses in list order (kernel
virtual addresses, as `kalloc` returns them) and the bytes of every page. The addresses the linker
chooses, `end` and `data`, are the `KernelImage`. The `next` pointers are the list itself, so the
first word of a free page is the junk `kfree` writes there, not the link.

`log` is a ghost: every `kalloc` that returned a page, with who asked for it, and every `kfree`,
newest first. The interrupt and lock handling around the list is left out: both operations are
atomic.
-/

namespace Xv6Mmap

/-- How a kernel operation can end without returning. -/
inductive Halt where
  /-- `panic(msg)`. -/
  | panic (msg : String)
  /-- A null pointer, or one read past the end of `ofile`, is followed. -/
  | badDeref
  /-- The process sleeps on a lock it holds itself. -/
  | deadlock
  /-- Not a step: the process does not run, or sleeps in `wait` or in a read. -/
  | blocked
  deriving DecidableEq, Repr

/-- The addresses `kernel.ld` provides: the first address after the kernel, and its data. -/
structure KernelImage where
  end_ : Word
  data : Word
  deriving DecidableEq, Repr

abbrev Byte := BitVec 8

/-- The bytes of a page, by offset. -/
abbrev Page := Nat → Byte

/-- Ghost: what a page is allocated for. -/
inductive Caller where
  | kstack
  | wmapinfo
  | memBlock
  | pgdir
  | pgtab
  /-- `inituvm`, `allocuvm`, `copyuvm`. -/
  | user
  /-- The page fault handler, for a mapping. -/
  | fault (rid : Rid)
  /-- `fork`, for a private mapping. -/
  | fork (rid : Rid)
  deriving DecidableEq, Repr

/-- Ghost: a call of the allocator. -/
abbrev Kevent := Lib.Event Word Caller

structure Kmem where
  image : KernelImage
  freelist : List Word
  mem : Word → Page
  log : List Kevent

/-- `memset(v, c, PGSIZE)` of a whole page. -/
def Kmem.memset (k : Kmem) (v : Word) (c : Byte) : Kmem :=
  { k with mem := Function.update k.mem v fun _ => c }

/-- `memmove(dst, src, PGSIZE)` of a whole page. -/
def Kmem.memmove (k : Kmem) (dst src : Word) : Kmem :=
  { k with mem := Function.update k.mem dst (k.mem src) }

/-- A page `kfree` accepts: aligned, after the kernel, below `PHYSTOP`. -/
def KernelImage.isPage (im : KernelImage) (v : Word) : Bool :=
  decide (v.toNat % 4096 = 0) && decide (im.end_ ≤ v) && decide (v2p v < phystop)

/-- `kfree(v)`. -/
def kfree (k : Kmem) (v : Word) : Except Halt Kmem :=
  if k.image.isPage v then
    .ok { k.memset v 1#8 with freelist := v :: k.freelist, log := .free v :: k.log }
  else .error (.panic "kfree")

/-- `kalloc()`; `none` is the null pointer. -/
def kalloc (k : Kmem) (who : Caller) : Option (Word × Kmem) :=
  match k.freelist with
  | [] => none
  | v :: rest => some (v, { k with freelist := rest, log := .alloc v who :: k.log })

end Xv6Mmap
