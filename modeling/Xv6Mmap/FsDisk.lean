import Mathlib.Algebra.Group.Pi.Basic
import Xv6Mmap.FsContent

/-!
# The disk and the inode cache agree (`fs.c:95-365`)

`Disk` is the invariant of the file system between operations: the block pointers of the inodes and
the bitmap agree, every inode has exactly the blocks of its first `size` bytes, and a cached inode
that is valid is the one on disk. A node is what is left of an inode in use when blocks are
forgotten: its type, its link count and its bytes. `State.nodes` are the nodes of the disk.

A function that changes an inode writes the copy and the disk: `State.store`. What that does to the
nodes is said once (`nodes_store`).
-/

namespace Xv6Mmap.Fs

open Lib
open Function (update update_self update_of_ne)

/-! ## Nodes -/

/-- An inode in use, without the blocks it is made of. -/
structure Node where
  type : FileType
  nlink : Int
  bytes : List Byte

abbrev Nodes := Nat → Option Node

def nodeOf (ino : Nat → Dinode) (data : Nat → Sector) (i : Nat) : Option Node :=
  (ino i).type.map fun type => ⟨type, (ino i).nlink, bytes ino data i 0 (ino i).size⟩

/-- The inodes in use on the disk. -/
def State.nodes (s : State) : Nodes := nodeOf s.dinode s.vol.data

/-- `src` written into `bs` at `off`, which may be the end. -/
def splice (bs src : List Byte) (off : Nat) : List Byte :=
  bs.take off ++ src ++ bs.drop (off + src.length)

variable {off : Nat}

theorem getElem?_splice {bs src : List Byte} (h : off ≤ bs.length) (k : Nat) :
    (splice bs src off)[k]?
      = if off ≤ k ∧ k < off + src.length then src[k - off]? else bs[k]? := by
  have htake : (bs.take off).length = off := by
    rw [List.length_take]
    omega
  unfold splice
  by_cases hlo : k < off
  · rw [List.append_assoc, List.getElem?_append_left (by omega), List.getElem?_take_of_lt hlo,
      if_neg (by omega)]
  · by_cases hhi : k < off + src.length
    · rw [List.getElem?_append_left (by rw [List.length_append]; omega),
        List.getElem?_append_right (by omega), htake, if_pos (by omega)]
    · rw [List.getElem?_append_right (by rw [List.length_append]; omega), List.getElem?_drop,
        List.length_append, htake, if_neg (by omega)]
      congr 1
      omega

variable {ino : Nat → Dinode} {data : Nat → Sector} {i len : Nat}

theorem getElem?_bytes {k : Nat} :
    (bytes ino data i 0 len)[k]? = if k < len then some (byteAt ino data i k) else none := by
  by_cases hk : k < len
  · simp [bytes, hk]
  · simp [bytes, hk]

@[simp] theorem length_bytes :
    (bytes ino data i off len).length = len := by
  simp [bytes]

theorem take_drop_bytes {n : Nat} :
    ((bytes ino data i 0 len).drop off).take n = bytes ino data i off (min n (len - off)) := by
  simp only [bytes, ← List.map_drop, ← List.map_take, Nat.zero_add]
  refine List.ext_getElem (by simp) fun k _ _ => by simp

theorem Written.bytes_eq {sb : Superblock} {v v' : Vol} {d d' : Dinode} {src : List Byte}
    (h : Written sb v ino i d len off src v' d') (hoff : off ≤ len) :
    bytes (update ino i d') v'.data i 0 (max len (off + src.length))
      = splice (bytes ino v.data i 0 len) src off := by
  refine List.ext_getElem? fun k => ?_
  rw [getElem?_bytes, getElem?_splice (by simpa using hoff), getElem?_bytes]
  by_cases hk : k < max len (off + src.length)
  · rw [if_pos hk, h.byte k hk]
    by_cases hin : off ≤ k ∧ k < off + src.length
    · rw [if_pos hin, if_pos hin, List.getElem?_eq_getElem (by omega),
        List.getD_eq_getElem _ _ (by omega)]
    · rw [if_neg hin, if_neg hin, if_pos (by omega)]
  · rw [if_neg hk, if_neg (by omega), if_neg (by omega)]

/-! ## The invariant -/

/-- The disk is well formed, and the valid inodes of the cache are those on disk. -/
structure Disk (s : State) : Prop where
  own : Own s.sb s.vol s.dinode
  covers : ∀ i, (s.dinode i).type ≠ none → Covers s.dinode s.vol.data i (s.dinode i).size
  cached : ∀ a, 0 < (s.inode a).ref → (s.inode a).valid = true →
    (s.inode a).copy = s.dinode (s.inode a).inum ∧ (s.dinode (s.inode a).inum).type ≠ none
  unique : ∀ a b, 0 < (s.inode a).ref → 0 < (s.inode b).ref →
    (s.inode a).inum = (s.inode b).inum → a = b

/-- The state with slot `a` of the cache replaced. -/
def State.slot (s : State) (a : Fin ninode) (x : Inode) : State :=
  { s with inode := update s.inode a x }

/-- The state in which the inode of slot `a` is `d`, in the cache and on disk, on volume `v`. -/
def State.store (s : State) (a : Fin ninode) (v : Vol) (d : Dinode) : State :=
  { s.slot a { s.inode a with copy := d } with
    vol := v
    dinode := update s.dinode (s.inode a).inum d }

@[simp] theorem slot_self (s : State) (a : Fin ninode) (x : Inode) : (s.slot a x).inode a = x :=
  update_self ..

theorem slot_of_ne (s : State) {a b : Fin ninode} (x : Inode) (h : b ≠ a) :
    (s.slot a x).inode b = s.inode b :=
  update_of_ne h ..

@[simp] theorem store_self (s : State) (a : Fin ninode) (v : Vol) (d : Dinode) :
    (s.store a v d).inode a = { s.inode a with copy := d } :=
  update_self ..

theorem store_of_ne (s : State) {a b : Fin ninode} (v : Vol) (d : Dinode) (h : b ≠ a) :
    (s.store a v d).inode b = s.inode b :=
  update_of_ne h ..

section Disk

variable {s : State} {a : Fin ninode}

theorem Disk.slot (h : Disk s) {x : Inode}
    (hcopy : 0 < x.ref → x.valid = true →
      x.copy = s.dinode x.inum ∧ (s.dinode x.inum).type ≠ none)
    (hother : ∀ b, b ≠ a → 0 < x.ref → 0 < (s.inode b).ref → (s.inode b).inum ≠ x.inum) :
    Disk (s.slot a x) where
  own := h.own
  covers := h.covers
  cached b := by
    by_cases hb : b = a
    · subst hb
      rw [slot_self]
      exact hcopy
    · rw [slot_of_ne s x hb]
      exact h.cached b
  unique b c := by
    by_cases hb : b = a <;> by_cases hc : c = a
    · exact fun _ _ _ => hb.trans hc.symm
    · subst hb
      rw [slot_self, slot_of_ne s x hc]
      exact fun hx hcr he => absurd he.symm (hother c hc hx hcr)
    · subst hc
      rw [slot_self, slot_of_ne s x hb]
      exact fun hbr hx he => absurd he (hother b hb hx hbr)
    · rw [slot_of_ne s x hb, slot_of_ne s x hc]
      exact h.unique b c

/-- Only the fields of a slot that do not describe the inode change. -/
theorem Disk.slot_same (h : Disk s) {x : Inode} (hinum : x.inum = (s.inode a).inum)
    (href : 0 < x.ref → 0 < (s.inode a).ref)
    (hcopy : 0 < x.ref → x.valid = true →
      x.copy = s.dinode x.inum ∧ (s.dinode x.inum).type ≠ none) : Disk (s.slot a x) :=
  h.slot hcopy fun b hb hx hbr he => hb (h.unique b a hbr (href hx) (he.trans hinum))

theorem Disk.store (h : Disk s) {v : Vol} {d : Dinode} (hpos : 0 < (s.inode a).ref)
    (hown : Own s.sb v (update s.dinode (s.inode a).inum d)) (hused : d.type ≠ none)
    (hcov : Covers (update s.dinode (s.inode a).inum d) v.data (s.inode a).inum d.size)
    (hothers : ∀ j, j ≠ (s.inode a).inum → ∀ k,
      ptrs (update s.dinode (s.inode a).inum d) v.data (j, k)
        = ptrs s.dinode s.vol.data (j, k)) :
    Disk (s.store a v d) where
  own := hown
  covers j := by
    show (update s.dinode (s.inode a).inum d j).type ≠ none → Covers _ _ j _
    by_cases hj : j = (s.inode a).inum
    · subst hj
      intro _
      show Covers _ _ _ (update s.dinode (s.inode a).inum d (s.inode a).inum).size
      rw [update_self]
      exact hcov
    · intro ht bn
      show ptrs (update s.dinode (s.inode a).inum d) v.data (j, some bn) ≠ 0
        ↔ _ < (update s.dinode (s.inode a).inum d j).size
      rw [update_of_ne hj] at ht ⊢
      rw [hothers j hj]
      exact h.covers j ht bn
  cached b := by
    by_cases hb : b = a
    · subst hb
      rw [store_self]
      intro _ _
      show d = update s.dinode (s.inode b).inum d (s.inode b).inum ∧
        (update s.dinode (s.inode b).inum d (s.inode b).inum).type ≠ none
      rw [update_self]
      exact ⟨rfl, hused⟩
    · rw [store_of_ne s v d hb]
      intro hr hv
      have hne : (s.inode b).inum ≠ (s.inode a).inum := fun he => hb (h.unique b a hr hpos he)
      show _ = update s.dinode (s.inode a).inum d (s.inode b).inum ∧
        (update s.dinode (s.inode a).inum d (s.inode b).inum).type ≠ none
      rw [update_of_ne hne]
      exact h.cached b hr hv
  unique b c := by
    have hsame : ∀ b, ((s.store a v d).inode b).ref = (s.inode b).ref ∧
        ((s.store a v d).inode b).inum = (s.inode b).inum := by
      intro b
      by_cases hb : b = a
      · subst hb
        rw [store_self]
        exact ⟨rfl, rfl⟩
      · rw [store_of_ne s v d hb]
        exact ⟨rfl, rfl⟩
    rw [(hsame b).1, (hsame b).2, (hsame c).1, (hsame c).2]
    exact h.unique b c

theorem bytes_congr {ino ino' : Nat → Dinode} {data data' : Nat → Sector} {j len : Nat}
    (hcov : Covers ino data j len)
    (hptr : ∀ k, ptrs ino' data' (j, k) = ptrs ino data (j, k))
    (hdata : ∀ bn, ptrs ino data (j, some bn) ≠ 0 →
      data' (ptrs ino data (j, some bn)) = data (ptrs ino data (j, some bn))) :
    bytes ino' data' j 0 len = bytes ino data j 0 len := by
  refine List.map_congr_left fun k hk => ?_
  have hk : k < len := List.mem_range.mp hk
  have hpos : ptrs ino data (j, some ((0 + k) / bsize)) ≠ 0 :=
    (hcov _).mpr (by have := Nat.div_mul_le_self (0 + k) bsize; omega)
  rw [byteAt, byteAt, hptr, hdata _ hpos]

/-- A node whose inode and blocks are as they were. -/
theorem nodeOf_congr {ino ino' : Nat → Dinode} {data data' : Nat → Sector} {j : Nat}
    (hino : ino' j = ino j) (hcov : (ino j).type ≠ none → Covers ino data j (ino j).size)
    (hptr : ∀ k, ptrs ino' data' (j, k) = ptrs ino data (j, k))
    (hdata : ∀ bn, ptrs ino data (j, some bn) ≠ 0 →
      data' (ptrs ino data (j, some bn)) = data (ptrs ino data (j, some bn))) :
    nodeOf ino' data' j = nodeOf ino data j := by
  unfold nodeOf
  rw [hino]
  cases ht : (ino j).type with
  | none => rfl
  | some type =>
    rw [bytes_congr (hcov (by rw [ht]; nofun)) hptr hdata]

theorem nodes_store (h : Disk s) {v : Vol} {d : Dinode} {type : FileType}
    (ht : d.type = some type)
    (hothers : ∀ j, j ≠ (s.inode a).inum → ∀ k,
      ptrs (update s.dinode (s.inode a).inum d) v.data (j, k)
        = ptrs s.dinode s.vol.data (j, k))
    (hdata : ∀ j, j ≠ (s.inode a).inum → ∀ bn, ptrs s.dinode s.vol.data (j, some bn) ≠ 0 →
      v.data (ptrs s.dinode s.vol.data (j, some bn))
        = s.vol.data (ptrs s.dinode s.vol.data (j, some bn))) :
    (s.store a v d).nodes = update s.nodes (s.inode a).inum
      (some ⟨type, d.nlink, bytes (update s.dinode (s.inode a).inum d) v.data
        (s.inode a).inum 0 d.size⟩) := by
  funext j
  show nodeOf (update s.dinode (s.inode a).inum d) v.data j = _
  by_cases hj : j = (s.inode a).inum
  · subst hj
    simp only [nodeOf, update_self, ht, Option.map_some]
  · rw [update_of_ne hj]
    exact nodeOf_congr (update_of_ne hj ..) (h.covers j) (hothers j hj) (hdata j hj)

/-- A node in use and the inode it is of. -/
theorem nodes_eq_some {i : Nat} {type : FileType} (ht : (s.dinode i).type = some type) :
    s.nodes i = some ⟨type, (s.dinode i).nlink, bytes s.dinode s.vol.data i 0 (s.dinode i).size⟩ := by
  simp only [State.nodes, nodeOf, ht, Option.map_some]

end Disk

end Xv6Mmap.Fs
