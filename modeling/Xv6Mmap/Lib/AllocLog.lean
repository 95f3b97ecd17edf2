/-!
# The log of an allocator

The calls of an allocator, the newest first.
-/

namespace Xv6Mmap.Lib

/-- A call of the allocator, with what the page is wanted for. -/
inductive Event (P T : Type) where
  | alloc (p : P) (t : T)
  | free (p : P)
  deriving DecidableEq, Repr

end Xv6Mmap.Lib
