import Xv6Mmap.Kalloc

/-!
# The two `memmove`s (`string.c:31-49`, `ulib.c:95-106`)

Memory is a function of the address, and pointers wrap as those of the machine do. The kernel copies
from the end where the destination begins inside the source; the user library always copies from the
beginning, so that it reads bytes it has already written.

* `kmemmove_eq_moved`: the kernel's version moves the bytes, for every overlap.
* **`memmove_agrees_iff`**: the library's version does exactly if the destination is not inside the
  source, or the source repeats itself with the distance of the two as its period.
-/

namespace Xv6Mmap.Memmove

open Function (update update_self update_of_ne)

/-- Memory, by address. -/
abbrev Memory := Word → Byte

/-- `while(n-- > 0) *d++ = *s++;`, for pointers of any type. -/
def copyUp {α : Type} [DecidableEq α] [Add α] [OfNat α 1] (m : α → Byte) (d s : α) :
    Nat → α → Byte
  | 0 => m
  | n + 1 => copyUp (update m d (m s)) (d + 1) (s + 1) n

/-- `while(n-- > 0) *--d = *--s;` -/
def copyDown (m : Memory) (d s : Word) : Nat → Memory
  | 0 => m
  | n + 1 => copyDown (update m (d - 1) (m (s - 1))) (d - 1) (s - 1) n

/-- `memmove(dst, src, n)` of `string.c`, where `n` is a `uint`. -/
def kmemmove (m : Memory) (dst src n : Word) : Memory :=
  if src < dst ∧ src + n > dst then copyDown m (dst + n) (src + n) n.toNat
  else copyUp m dst src n.toNat

/-- `memmove(vdst, vsrc, n)` of `ulib.c`, where `n` is an `int`. -/
def umemmove (m : Memory) (dst src n : Word) : Memory := copyUp m dst src n.toInt.toNat

/-- The byte at address `x`. -/
def byteAt (m : Memory) (x : Nat) : Byte := m (BitVec.ofNat 32 x)

/-- The `n` bytes from `dst` on are replaced, byte `i` by byte `index i` from `src` on. -/
def placed (m : Memory) (dst src : Word) (n : Nat) (index : Nat → Nat) : Memory := fun a =>
  if dst.toNat ≤ a.toNat ∧ a.toNat < dst.toNat + n then
    byteAt m (src.toNat + index (a.toNat - dst.toNat))
  else m a

/-- What `memmove` is for. -/
def moved (m : Memory) (dst src : Word) (n : Nat) : Memory := placed m dst src n id

/-- The bytes from `src` on repeat with period `dst - src`. -/
def Repeats (m : Memory) (dst src : Word) (n : Nat) : Prop :=
  ∀ i < n, byteAt m (src.toNat + i) = byteAt m (src.toNat + i % (dst.toNat - src.toNat))

theorem byteAt_toNat (m : Memory) (a : Word) : byteAt m a.toNat = m a := by
  rw [byteAt, BitVec.ofNat_toNat, BitVec.setWidth_eq]

variable {i : Nat}

theorem eq_add_ofNat {a c : Word} (h : c.toNat = a.toNat + i) :
    c = a + BitVec.ofNat 32 i :=
  BitVec.eq_of_toNat_eq (by rw [toNat_add_ofNat (h ▸ c.isLt), h])

theorem byteAt_add (m : Memory) {a : Word} (h : a.toNat + i < 2 ^ 32) :
    m (a + BitVec.ofNat 32 i) = byteAt m (a.toNat + i) := by
  rw [← toNat_add_ofNat h, byteAt_toNat]

/-- Where the source of byte `i` ends before the destination begins, nothing is repeated. -/
theorem mod_distance {dst src : Nat} (h : dst ≤ src ∨ src + i < dst) : i % (dst - src) = i := by
  obtain hle | hlt := h
  · rw [Nat.sub_eq_zero_of_le hle, Nat.mod_zero]
  · exact Nat.mod_eq_of_lt (by omega)

variable {dst : Word} {n : Nat}

theorem placed_eq_iff (m : Memory) (src : Word) (f g : Nat → Nat) (hdst : dst.toNat + n ≤ 2 ^ 32) :
    placed m dst src n f = placed m dst src n g ↔
      ∀ i < n, byteAt m (src.toNat + f i) = byteAt m (src.toNat + g i) := by
  constructor
  · intro h i hi
    have hat := congrFun h (dst + BitVec.ofNat 32 i)
    rw [placed, placed, toNat_add_ofNat (by omega), if_pos (by omega), if_pos (by omega),
      Nat.add_sub_cancel_left] at hat
    exact hat
  · intro h
    funext a
    rw [placed, placed]
    split
    case isTrue hin => exact h _ (by omega)
    case isFalse => rfl

theorem placed_succ (m : Memory) (src : Word) (index : Nat → Nat) (hdst : dst.toNat + n < 2 ^ 32) :
    placed m dst src (n + 1) index = update (placed m dst src n index) (dst + BitVec.ofNat 32 n)
      (byteAt m (src.toNat + index n)) := by
  funext a
  by_cases ha : a = dst + BitVec.ofNat 32 n
  · have hnat := toNat_add_ofNat hdst
    rw [ha, update_self, placed, hnat, if_pos (by omega), Nat.add_sub_cancel_left]
  · have hne : a.toNat ≠ dst.toNat + n := fun he => ha (eq_add_ofNat he)
    rw [update_of_ne ha, placed, placed]
    exact if_congr (by omega) rfl rfl

theorem copyUp_succ (n : Nat) : ∀ (m : Memory) (d s : Word), copyUp m d s (n + 1)
    = update (copyUp m d s n) (d + BitVec.ofNat 32 n) (copyUp m d s n (s + BitVec.ofNat 32 n)) := by
  induction n with
  | zero =>
    intro m d s
    rw [copyUp, copyUp, copyUp, BitVec.add_zero, BitVec.add_zero]
  | succ n ih =>
    intro m d s
    have hnext : ∀ a : Word, a + 1 + BitVec.ofNat 32 n = a + BitVec.ofNat 32 (n + 1) := fun a => by
      rw [BitVec.add_assoc, Nat.add_comm n, BitVec.ofNat_add]
      rfl
    rw [copyUp, ih, hnext, hnext, ← copyUp]

variable {src : Word}

/-- **Copying upwards** repeats the bytes before the destination, if it begins inside the source. -/
theorem copyUp_eq_placed (m : Memory) (hdst : dst.toNat + n ≤ 2 ^ 32)
    (hsrc : src.toNat + n ≤ 2 ^ 32) :
    copyUp m dst src n = placed m dst src n (· % (dst.toNat - src.toNat)) := by
  induction n with
  | zero =>
    funext a
    rw [copyUp, placed, if_neg (by omega)]
  | succ n ih =>
    rw [copyUp_succ, ih (by omega) (by omega), placed_succ m src _ (by omega)]
    congr 1
    -- what is read was written before if the loop is a whole period into the destination
    rw [placed, toNat_add_ofNat (by omega)]
    split
    case isTrue hin =>
      rw [Nat.mod_eq_sub_mod (by omega : n ≥ dst.toNat - src.toNat)]
      congr 3
      omega
    case isFalse hout =>
      rw [byteAt_add m (by omega), mod_distance (by omega)]

/-- **Copying downwards** moves the bytes, if the destination is above the source. -/
theorem copyDown_eq_moved (hlt : src.toNat < dst.toNat) (n : Nat) :
    ∀ m : Memory, dst.toNat + n ≤ 2 ^ 32 →
    copyDown m (dst + BitVec.ofNat 32 n) (src + BitVec.ofNat 32 n) n = moved m dst src n := by
  induction n with
  | zero =>
    intro m _
    funext a
    rw [copyDown, moved, placed, if_neg (by omega)]
  | succ n ih =>
    intro m hdst
    have hprev : ∀ a : Word, a + BitVec.ofNat 32 (n + 1) - 1 = a + BitVec.ofNat 32 n := fun a => by
      rw [BitVec.ofNat_add, ← BitVec.add_assoc]
      exact BitVec.add_sub_cancel ..
    rw [copyDown, hprev, hprev, ih _ (by omega), moved, moved, placed_succ m src _ (by omega)]
    funext a
    have hd := toNat_add_ofNat (show dst.toNat + n < 2 ^ 32 by omega)
    by_cases ha : a = dst + BitVec.ofNat 32 n
    · rw [ha, update_self, placed, if_neg (by omega), update_self, byteAt_add m (by omega), id]
    rw [update_of_ne ha, placed, placed, update_of_ne ha]
    split
    case isTrue hin =>
      refine update_of_ne (fun he => ?_) ..
      have := congrArg BitVec.toNat he
      rw [hd, BitVec.toNat_ofNat, id] at this
      omega
    case isFalse => rfl

/-- **The kernel's `memmove` moves the bytes**, for every overlap. -/
theorem kmemmove_eq_moved (m : Memory) {n : Word} (hdst : dst.toNat + n.toNat ≤ 2 ^ 32)
    (hsrc : src.toNat + n.toNat ≤ 2 ^ 32) : kmemmove m dst src n = moved m dst src n.toNat := by
  have hn : BitVec.ofNat 32 n.toNat = n := by rw [BitVec.ofNat_toNat, BitVec.setWidth_eq]
  unfold kmemmove
  split
  case isTrue hin =>
    have hdown := copyDown_eq_moved (BitVec.lt_def.mp hin.1) n.toNat m hdst
    rwa [hn] at hdown
  case isFalse hout =>
    rw [copyUp_eq_placed m hdst hsrc, moved, placed_eq_iff m src _ _ hdst]
    intro i hi
    rw [mod_distance, id]
    by_contra hinside
    refine hout ⟨BitVec.lt_def.mpr (by omega), BitVec.lt_def.mpr ?_⟩
    rw [BitVec.toNat_add, Nat.mod_eq_of_lt (by omega)]
    omega

/-- **The two `memmove`s agree if and only if** the destination does not begin inside the source, or
the source repeats itself with the distance of the two as its period. -/
theorem memmove_agrees_iff (m : Memory) (dst src n : Word) (hn : 0 ≤ n.toInt)
    (hdst : dst.toNat + n.toNat ≤ 2 ^ 32) (hsrc : src.toNat + n.toNat ≤ 2 ^ 32) :
    (umemmove m dst src n = kmemmove m dst src n ∧
        kmemmove m dst src n = moved m dst src n.toNat) ↔
      dst.toNat ≤ src.toNat ∨ src.toNat + n.toNat ≤ dst.toNat ∨ Repeats m dst src n.toNat := by
  have hcount : n.toInt.toNat = n.toNat := by
    have := BitVec.toInt_eq_toNat_cond n
    omega
  have hrep : umemmove m dst src n = moved m dst src n.toNat ↔ Repeats m dst src n.toNat := by
    rw [umemmove, hcount, copyUp_eq_placed m hdst hsrc, moved, placed_eq_iff m src _ _ hdst]
    exact forall₂_congr fun i _ => eq_comm
  rw [kmemmove_eq_moved m hdst hsrc, hrep, and_iff_left rfl]
  refine ⟨fun h => .inr (.inr h), ?_⟩
  rintro (hle | hle | h)
  · exact fun i _ => by rw [mod_distance (.inl hle)]
  · exact fun i hi => by rw [mod_distance (.inr (by omega))]
  · exact h

/-- Over equal bytes, which repeat with period one, the library moves up by one byte as the kernel
does. -/
theorem memmove_agrees_equal_bytes :
    umemmove (fun _ => 97#8) 1#32 0#32 2#32 = kmemmove (fun _ => 97#8) 1#32 0#32 2#32 :=
  ((memmove_agrees_iff (fun _ => 97#8) 1#32 0#32 2#32 (by decide) (by decide) (by decide)).mpr
    (.inr (.inr fun _ _ => rfl))).1

/-- Moving two bytes up by one: the library copies the first byte twice. -/
theorem umemmove_repeats_byte :
    kmemmove (fun a => a.setWidth 8) 1#32 0#32 2#32 2#32 = 1#8 ∧
      umemmove (fun a => a.setWidth 8) 1#32 0#32 2#32 2#32 = 0#8 ∧
      moved (fun a => a.setWidth 8) 1#32 0#32 2 2#32 = 1#8 := by
  decide

end Xv6Mmap.Memmove
