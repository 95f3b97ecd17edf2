import Mathlib.Tactic.Ring
import Xv6Mmap.Fs
import Xv6Mmap.Lib.Allot
import Xv6Mmap.Lib.Outcome

/-!
# Who owns which block (`fs.c:55-95`, `fs.c:372-400`)

The block pointers of the inodes as one map `ptrs`: key `(i, some bn)` is the pointer of inode `i`
to its block `bn`, direct or in the indirect block, key `(i, none)` the one to the indirect block
itself; a free inode has none. `Own` says that this map and the bitmap agree (`Lib.Allot`).

In the middle of `writei` the inode on disk is behind the one in the cache, so all of this is about
a table `ino` of inodes as they are in effect. `bmap_spec` is what `bmap` returns, what it changes
and when it runs out of blocks.
-/

namespace Xv6Mmap.Fs

open Lib
open Function (update update_self update_of_ne update_eq_self)

/-! ## Words in a block -/

theorem wordAt_setWord_self (x : Sector) (j : Nat) {w : Nat} (hw : w < 2 ^ 32) :
    wordAt (setWord x j w) j = w := by
  have h0 : (4 * j) / 4 = j ∧ (4 * j) % 4 = 0 := by omega
  have h1 : (4 * j + 1) / 4 = j ∧ (4 * j + 1) % 4 = 1 := by omega
  have h2 : (4 * j + 2) / 4 = j ∧ (4 * j + 2) % 4 = 2 := by omega
  have h3 : (4 * j + 3) / 4 = j ∧ (4 * j + 3) % 4 = 3 := by omega
  simp only [wordAt, setWord, h0, h1, h2, h3, if_true, BitVec.toNat_ofNat]
  omega

theorem wordAt_setWord_of_ne (x : Sector) {j k : Nat} (w : Nat) (h : k ≠ j) :
    wordAt (setWord x j w) k = wordAt x k := by
  have h0 : (4 * k) / 4 ≠ j := by omega
  have h1 : (4 * k + 1) / 4 ≠ j := by omega
  have h2 : (4 * k + 2) / 4 ≠ j := by omega
  have h3 : (4 * k + 3) / 4 ≠ j := by omega
  simp only [wordAt, setWord, h0, h1, h2, h3, if_false]

@[simp] theorem wordAt_zero (j : Nat) : wordAt (fun _ => 0#8) j = 0 := rfl

/-! ## Pointers -/

/-- The pointer of an inode to block `bn` of the file, or to its indirect block. -/
def Dinode.ptr (d : Dinode) (data : Nat → Sector) : Option Nat → Nat
  | none => d.addrs ndirect
  | some bn =>
    if bn < ndirect then d.addrs bn
    else if bn < maxfile ∧ d.addrs ndirect ≠ 0 then wordAt (data (d.addrs ndirect)) (bn - ndirect)
    else 0

@[simp] theorem setAddr_self (d : Dinode) (k b : Nat) : (d.setAddr k b).addrs k = b :=
  update_self ..

theorem setAddr_of_ne (d : Dinode) {j k : Nat} (b : Nat) (h : j ≠ k) :
    (d.setAddr k b).addrs j = d.addrs j :=
  update_of_ne h ..

@[simp] theorem setAddr_type (d : Dinode) (k b : Nat) : (d.setAddr k b).type = d.type := rfl

theorem Dinode.ptr_direct (d : Dinode) (data : Nat → Sector) {bn : Nat} (h : bn < ndirect) :
    d.ptr data (some bn) = d.addrs bn :=
  if_pos h

theorem Dinode.ptr_indirect (d : Dinode) (data : Nat → Sector) {bn : Nat} (h : bn < nindirect) :
    d.ptr data (some (ndirect + bn))
      = if d.addrs ndirect = 0 then 0 else wordAt (data (d.addrs ndirect)) bn := by
  have hlt : ¬ ndirect + bn < ndirect := by omega
  have hmax : ndirect + bn < maxfile := Nat.add_lt_add_left h ndirect
  by_cases hzero : d.addrs ndirect = 0
  · simp only [Dinode.ptr, hlt, hmax, hzero, if_false, if_true, ne_eq, not_true_eq_false, and_false]
  · simp only [Dinode.ptr, hlt, hmax, hzero, if_false, if_true, ne_eq, not_false_eq_true, and_self,
      Nat.add_sub_cancel_left]

theorem Dinode.ptr_of_le (d : Dinode) (data : Nat → Sector) {bn : Nat} (h : maxfile ≤ bn) :
    d.ptr data (some bn) = 0 := by
  have hlt : ¬ bn < ndirect := by
    unfold maxfile at h
    omega
  simp only [Dinode.ptr, hlt, Nat.not_lt.mpr h, if_false, false_and]

/-- A block number is that of a direct block, of one in the indirect block, or too large. -/
theorem bn_cases (bn : Nat) :
    bn < ndirect ∨ (∃ m, m < nindirect ∧ bn = ndirect + m) ∨ maxfile ≤ bn := by
  rcases Nat.lt_or_ge bn ndirect with h | h
  · exact .inl h
  · rcases Nat.lt_or_ge bn maxfile with hm | hm
    · exact .inr (.inl ⟨bn - ndirect, by unfold maxfile at hm; omega, by omega⟩)
    · exact .inr (.inr hm)

theorem Dinode.ptr_of_addrs {d : Dinode} (data : Nat → Sector) (h : ∀ k, d.addrs k = 0)
    (k : Option Nat) : d.ptr data k = 0 := by
  cases k with
  | none => exact h ndirect
  | some bn =>
    obtain hbn | ⟨m, hm, rfl⟩ | hbn := bn_cases bn
    · rw [Dinode.ptr_direct _ _ hbn, h]
    · rw [Dinode.ptr_indirect _ _ hm, if_pos (h _)]
    · exact Dinode.ptr_of_le _ _ hbn

/-- All block pointers of the inodes in use. -/
def ptrs (ino : Nat → Dinode) (data : Nat → Sector) (k : Nat × Option Nat) : Nat :=
  if (ino k.1).type = none then 0 else (ino k.1).ptr data k.2

section Pointers

variable {ino : Nat → Dinode} {data : Nat → Sector} {i : Nat} {d : Dinode}

theorem ptrs_of_used (hd : ino i = d) (hused : d.type ≠ none) (k : Option Nat) :
    ptrs ino data (i, k) = d.ptr data k := by
  subst hd
  exact if_neg hused

theorem ptrs_update_of_ne {k : Nat × Option Nat} (h : k.1 ≠ i) :
    ptrs (update ino i d) data k = ptrs ino data k := by
  unfold ptrs
  rw [update_of_ne h]

theorem ptrs_update_self (hused : d.type ≠ none) (k : Option Nat) :
    ptrs (update ino i d) data (i, k) = d.ptr data k :=
  ptrs_of_used (update_self ..) hused k

/-- Only the type and the addresses of an inode matter. -/
theorem ptrs_update_congr {d' : Dinode} (ht : d'.type = d.type) (ha : d'.addrs = d.addrs) :
    ptrs (update ino i d') data = ptrs (update ino i d) data := by
  funext ⟨j, k⟩
  by_cases hj : j = i
  · subst hj
    simp only [ptrs, update_self, ht]
    split
    · rfl
    · cases k <;> simp only [Dinode.ptr, ha]
  · rw [ptrs_update_of_ne hj, ptrs_update_of_ne hj]

/-- The contents of a block matter only if it is an indirect block. -/
theorem ptrs_update_data {b : Nat} {x : Sector}
    (h : ∀ i, ptrs ino data (i, none) ≠ 0 → ptrs ino data (i, none) ≠ b) :
    ptrs ino (update data b x) = ptrs ino data := by
  funext ⟨i, k⟩
  by_cases hfree : (ino i).type = none
  · simp only [ptrs, hfree, if_true]
  have hne := h i
  rw [ptrs_of_used rfl hfree] at hne
  change (ino i).addrs ndirect ≠ 0 → (ino i).addrs ndirect ≠ b at hne
  rw [ptrs_of_used rfl hfree, ptrs_of_used rfl hfree]
  cases k with
  | none => rfl
  | some bn =>
    obtain hbn | ⟨m, hm, rfl⟩ | hbn := bn_cases bn
    · rw [Dinode.ptr_direct _ _ hbn, Dinode.ptr_direct _ _ hbn]
    · rw [Dinode.ptr_indirect _ _ hm, Dinode.ptr_indirect _ _ hm]
      split
      · rfl
      · rename_i hind
        rw [update_of_ne (hne hind)]
    · rw [Dinode.ptr_of_le _ _ hbn, Dinode.ptr_of_le _ _ hbn]

theorem ptrs_setAddr (hd : ino i = d) (hused : d.type ≠ none) {bn b : Nat} (hbn : bn < ndirect) :
    ptrs (update ino i (d.setAddr bn b)) data
      = update (ptrs ino data) (i, some bn) b := by
  have hkeep : (d.setAddr bn b).addrs ndirect = d.addrs ndirect := setAddr_of_ne d b (by omega)
  funext ⟨j, k⟩
  by_cases hj : j = i
  · subst hj
    rw [ptrs_update_self (by exact hused)]
    by_cases hk : k = some bn
    · subst hk
      rw [update_self, Dinode.ptr_direct _ _ hbn, setAddr_self]
    rw [update_of_ne (by simpa using hk), ptrs_of_used hd hused]
    cases k with
    | none => exact hkeep
    | some m =>
      obtain hm | ⟨l, hl, rfl⟩ | hm := bn_cases m
      · rw [Dinode.ptr_direct _ _ hm, Dinode.ptr_direct _ _ hm,
          setAddr_of_ne d b fun he => hk (by rw [he])]
      · rw [Dinode.ptr_indirect _ _ hl, Dinode.ptr_indirect _ _ hl, hkeep]
      · rw [Dinode.ptr_of_le _ _ hm, Dinode.ptr_of_le _ _ hm]
  · rw [ptrs_update_of_ne hj, update_of_ne (by simp [hj])]

/-- The pointer to the indirect block is set, to a block of zeros. -/
theorem ptrs_setIndirect (hd : ino i = d) (hused : d.type ≠ none) {b : Nat}
    (hold : d.addrs ndirect = 0) (hzero : data b = fun _ => 0#8) :
    ptrs (update ino i (d.setAddr ndirect b)) data
      = update (ptrs ino data) (i, none) b := by
  funext ⟨j, k⟩
  by_cases hj : j = i
  · subst hj
    rw [ptrs_update_self (by exact hused)]
    cases k with
    | none =>
      rw [update_self]
      exact setAddr_self ..
    | some m =>
      rw [update_of_ne (by simp), ptrs_of_used hd hused]
      obtain hm | ⟨l, hl, rfl⟩ | hm := bn_cases m
      · rw [Dinode.ptr_direct _ _ hm, Dinode.ptr_direct _ _ hm, setAddr_of_ne d b hm.ne]
      · rw [Dinode.ptr_indirect _ _ hl, Dinode.ptr_indirect _ _ hl, setAddr_self, hzero, hold]
        simp
      · rw [Dinode.ptr_of_le _ _ hm, Dinode.ptr_of_le _ _ hm]
  · rw [ptrs_update_of_ne hj, update_of_ne (by simp [hj])]

theorem ptrs_setWord (hd : ino i = d) (hused : d.type ≠ none) {bn b : Nat}
    (hbn : bn < nindirect) (hb : b < 2 ^ 32) (hind : d.addrs ndirect ≠ 0)
    (hinj : ∀ j, ptrs ino data (j, none) = d.addrs ndirect → j = i) :
    ptrs ino (update data (d.addrs ndirect) (setWord (data (d.addrs ndirect)) bn b))
      = update (ptrs ino data) (i, some (ndirect + bn)) b := by
  funext ⟨j, k⟩
  by_cases hj : j = i
  · subst hj
    rw [ptrs_of_used hd hused]
    by_cases hk : k = some (ndirect + bn)
    · subst hk
      rw [update_self, Dinode.ptr_indirect _ _ hbn, if_neg hind, update_self,
        wordAt_setWord_self _ _ hb]
    rw [update_of_ne (by simpa using hk), ptrs_of_used hd hused]
    cases k with
    | none => rfl
    | some m =>
      obtain hm | ⟨l, hl, rfl⟩ | hm := bn_cases m
      · rw [Dinode.ptr_direct _ _ hm, Dinode.ptr_direct _ _ hm]
      · rw [Dinode.ptr_indirect _ _ hl, Dinode.ptr_indirect _ _ hl, if_neg hind, if_neg hind,
          update_self, wordAt_setWord_of_ne _ _ fun he => hk (by rw [he])]
      · rw [Dinode.ptr_of_le _ _ hm, Dinode.ptr_of_le _ _ hm]
  · rw [update_of_ne (by simp [hj])]
    -- no other inode has this indirect block
    have hother := @ptrs_update_data (update ino i Dinode.zero) data
      (d.addrs ndirect) (x := setWord (data (d.addrs ndirect)) bn b) (by
        intro l hl
        by_cases hli : l = i
        · subst hli
          simp [ptrs, Dinode.zero] at hl
        · rw [ptrs_update_of_ne hli]
          exact fun he => hli (hinj l he))
    have := congrFun hother (j, k)
    rwa [ptrs_update_of_ne hj, ptrs_update_of_ne hj] at this

end Pointers

/-- The pointers of the inodes `ino` and the bitmap agree. -/
def Own (sb : Superblock) (v : Vol) (ino : Nat → Dinode) : Prop :=
  Allot sb.first sb.size v.bit (ptrs ino v.data)

theorem Superblock.first_pos (sb : Superblock) : 0 < sb.first :=
  Nat.sub_pos_of_lt sb.nblocks_lt

/-- The number of blocks left on a volume. -/
def Vol.free (sb : Superblock) (v : Vol) : Nat := Lib.free sb.size v.bit

theorem balloc_spec (sb : Superblock) (v : Vol) :
    Ends (balloc sb v)
      (fun r => ∃ b, v.bit b = false ∧ b < sb.size ∧
        r = (b, ⟨update v.bit b true, update v.data b fun _ => 0#8⟩))
      fun _ => v.free sb = 0 := by
  unfold balloc
  cases hf : (List.range sb.size).find? fun b => !v.bit b with
  | none =>
    show v.free sb = 0
    exact List.countP_eq_zero.mpr fun b hb => by simpa using List.find?_eq_none.mp hf b hb
  | some b =>
    have hbit := List.find?_some hf
    exact ⟨b, by simpa using hbit, List.mem_range.mp (List.mem_of_find?_eq_some hf), rfl⟩

theorem balloc_of_first {sb : Superblock} {v : Vol} {b : Nat} (hlt : b < sb.size)
    (hfree : v.bit b = false) (hbefore : ∀ c, c < b → v.bit c = true) :
    balloc sb v =
      .ok (b, ⟨update v.bit b true, update v.data b fun _ => 0#8⟩) := by
  have hfirst : (List.range sb.size).find? (fun b => !v.bit b) = some b := by
    rw [List.find?_range_eq_some]
    refine ⟨by rw [hfree]; rfl, List.mem_range.mpr hlt, fun c hc => ?_⟩
    rw [hbefore c hc]
    rfl
  unfold balloc
  rw [hfirst]

/-! ## `bmap` -/

/-- From volume `v` with the inodes `ino` to `v'` with `ino'`, the pointer of `key` was set, unless
it was set before. -/
structure Points (sb : Superblock) (key : Nat × Option Nat) (v : Vol) (ino : Nat → Dinode)
    (v' : Vol) (ino' : Nat → Dinode) : Prop where
  own : Own sb v' ino'
  pos : ptrs ino' v'.data key ≠ 0
  keep : ∀ k, k ≠ key → ptrs ino' v'.data k = ptrs ino v.data k
  data : ∀ k, k.2 ≠ none → ptrs ino v.data k ≠ 0 →
    v'.data (ptrs ino v.data k) = v.data (ptrs ino v.data k)
  room : v.free sb ≤ v'.free sb + 1

section Bmap

variable {sb : Superblock} {v v' : Vol} {ino ino' : Nat → Dinode} {key : Nat × Option Nat}

theorem Points.refl (hown : Own sb v ino) (hpos : ptrs ino v.data key ≠ 0) :
    Points sb key v ino v ino :=
  ⟨hown, hpos, fun _ _ => rfl, fun _ _ _ => rfl, Nat.le_succ _⟩

/-- A free block `b` is zeroed and given to `key`; apart from it only indirect blocks change. -/
theorem Points.of_claim (hown : Own sb v ino) {b : Nat} (hb : v.bit b = false)
    (hlt : b < sb.size) (hnone : ptrs ino v.data key = 0)
    (hbit : v'.bit = update v.bit b true)
    (hptrs : ptrs ino' v'.data = update (ptrs ino v.data) key b)
    (hdata : ∀ c, c ≠ b → (∀ i, ptrs ino v.data (i, none) ≠ 0 → ptrs ino v.data (i, none) ≠ c) →
      v'.data c = v.data c) :
    Points sb key v ino v' ino' where
  own := by
    unfold Own
    rw [hbit, hptrs]
    exact hown.claim sb.first_pos hb hlt hnone
  pos := by
    rw [hptrs, update_self]
    exact (Nat.lt_of_lt_of_le sb.first_pos (hown.lo_le hb)).ne'
  keep k hk := by rw [hptrs, update_of_ne hk]
  data k hk hpos := by
    refine hdata _ (hown.own_ne hb k hpos) fun i hi he => hk ?_
    rw [← hown.inj (i, none) k hi he]
  room := by
    have := free_update hb hlt
    unfold Vol.free
    rw [hbit]
    omega

theorem ptrs_balloc (hown : Own sb v ino) {b : Nat} (hb : v.bit b = false) :
    ptrs ino (update v.data b fun _ => 0#8) = ptrs ino v.data :=
  ptrs_update_data fun i hi => hown.own_ne hb (i, none) hi

variable {i : Nat} {d : Dinode}

/-- What `ensureAddr` does for the pointer `k` in the inode itself. -/
theorem ensureAddr_spec (hown : Own sb v ino) (hd : ino i = d) (hused : d.type ≠ none) {k : Nat}
    {key : Option Nat} (hkey : k < ndirect ∧ key = some k ∨ k = ndirect ∧ key = none) :
    Ends (ensureAddr sb v d k)
      (fun r => Points sb (i, key) v ino r.2.1 (update ino i r.2.2) ∧
        r.1 = r.2.2.addrs k ∧ r.2.2 = d.setAddr k r.1 ∧ (d.addrs k ≠ 0 → r.2 = (v, d)))
      fun _ => d.addrs k = 0 ∧ v.free sb = 0 := by
  have hptr : ptrs ino v.data (i, key) = d.addrs k := by
    rw [ptrs_of_used hd hused]
    obtain ⟨hk, rfl⟩ | ⟨rfl, rfl⟩ := hkey
    · exact Dinode.ptr_direct _ _ hk
    · rfl
  unfold ensureAddr
  split
  case isTrue hzero =>
    rw [ends_bind]
    refine (balloc_spec sb v).mono ?_ fun _ he => ⟨hzero, he⟩
    rintro _ ⟨b, hb, hlt, rfl⟩
    refine ⟨?_, (setAddr_self ..).symm, rfl, fun h => absurd hzero h⟩
    refine .of_claim hown hb hlt (hptr.trans hzero) rfl ?_ fun c hc _ => update_of_ne hc ..
    rw [← ptrs_balloc hown hb]
    obtain ⟨hk, rfl⟩ | ⟨rfl, rfl⟩ := hkey
    · exact ptrs_setAddr hd hused hk
    · exact ptrs_setIndirect hd hused hzero (update_self ..)
  case isFalse hpos =>
    have hsame : update ino i d = ino := by rw [← hd, update_eq_self]
    refine ⟨?_, rfl, ?_, fun _ => rfl⟩
    · simp only [hsame]
      exact .refl hown (by rwa [hptr])
    · show d = d.setAddr k (d.addrs k)
      rw [Dinode.setAddr, update_eq_self]

/-- A free block `b` is zeroed and entered in the indirect block of inode `i`. -/
theorem Points.of_word (hown : Own sb v ino) (hd : ino i = d) (hused : d.type ≠ none) {m : Nat}
    (hm : m < nindirect) (hind : d.addrs ndirect ≠ 0)
    (hzero : wordAt (v.data (d.addrs ndirect)) m = 0) {b : Nat} (hb : v.bit b = false)
    (hlt : b < sb.size) {data : Nat → Sector}
    (hdata : data = update v.data b fun _ => 0#8) :
    Points sb (i, some (ndirect + m)) v ino
      ⟨update v.bit b true, update data (d.addrs ndirect)
        (setWord (data (d.addrs ndirect)) m b)⟩ ino ∧
    ptrs ino (update data (d.addrs ndirect) (setWord (data (d.addrs ndirect)) m b))
      (i, some (ndirect + m)) = b := by
  have hbal : ptrs ino data = ptrs ino v.data := by
    rw [hdata]
    exact ptrs_balloc hown hb
  have hptr : ptrs ino v.data (i, none) = d.addrs ndirect := ptrs_of_used hd hused none
  have hpos : ptrs ino v.data (i, none) ≠ 0 := by rwa [hptr]
  have hset := ptrs_setWord hd hused hm (Nat.lt_trans hlt sb.size_lt) hind
    fun j (hj : ptrs ino data (j, none) = d.addrs ndirect) => by
      rw [hbal, ← hptr] at hj
      exact (Prod.ext_iff.mp (hown.inj _ _ hpos hj.symm)).1.symm
  refine ⟨.of_claim hown hb hlt ?_ rfl (by rw [hset, hbal]) ?_, by rw [hset, update_self]⟩
  · rw [ptrs_of_used hd hused, Dinode.ptr_indirect _ _ hm, if_neg hind, hzero]
  · intro c hc hother
    have hca : c ≠ d.addrs ndirect := fun h => hother i hpos (hptr.trans h.symm)
    show update data (d.addrs ndirect) _ c = v.data c
    rw [update_of_ne hca, hdata, update_of_ne hc]

/-- One if a file that ends at `e` needs an indirect block that is still to be allocated. -/
def Dinode.extra (d : Dinode) (e : Nat) : Nat :=
  if ndirect * bsize < e ∧ d.addrs ndirect = 0 then 1 else 0

/-- What `bmap(ip, bn)` leaves: `b` is block `bn` of inode `i`, whose copy is now `d'`. -/
structure Mapped (sb : Superblock) (v : Vol) (ino : Nat → Dinode) (i bn : Nat) (d : Dinode)
    (b : Nat) (v' : Vol) (d' : Dinode) : Prop where
  own : Own sb v' (update ino i d')
  ptr : ptrs (update ino i d') v'.data (i, some bn) = b
  pos : b ≠ 0
  keep : ∀ k, k ≠ (i, some bn) → k ≠ (i, none) →
    ptrs (update ino i d') v'.data k = ptrs ino v.data k
  data : ∀ k, k.2 ≠ none → ptrs ino v.data k ≠ 0 →
    v'.data (ptrs ino v.data k) = v.data (ptrs ino v.data k)
  /-- Nothing changes where the block was there. -/
  same : ptrs ino v.data (i, some bn) ≠ 0 → v' = v ∧ d' = d
  addrs : d' = { d with addrs := d'.addrs }
  room : ∀ e, bn * bsize < e → v.free sb + d'.extra e ≤ v'.free sb + 1 + d.extra e

/-- The second half of `bmap` for a block `m` of the indirect block, which is at `addr`. -/
theorem bmap_indirect (hd : ino i = d) (hused : d.type ≠ none) {m : Nat} (hm : m < nindirect)
    {addr : Nat} {v1 : Vol} {d1 : Dinode}
    (hp : Points sb (i, none) v ino v1 (update ino i d1))
    (haddr : addr = d1.addrs ndirect) (hd1 : d1 = d.setAddr ndirect addr)
    (hsame : d.addrs ndirect ≠ 0 → (v1, d1) = (v, d)) :
    Ends (if wordAt (v1.data addr) m = 0 then do
        let (b, v) ← balloc sb v1
        let a := setWord (v.data addr) m b
        return (b, { v with data := update v.data addr a }, d1)
      else return (wordAt (v1.data addr) m, v1, d1))
      (fun r => Mapped sb v ino i (ndirect + m) d r.1 r.2.1 r.2.2)
      fun _ => ptrs ino v.data (i, some (ndirect + m)) = 0 ∧
        ∀ e, (ndirect + m) * bsize < e → v.free sb < 1 + d.extra e := by
  have hused1 : d1.type ≠ none := by
    rw [hd1]
    exact hused
  have hself : update ino i d1 i = d1 := update_self ..
  have hind : d1.addrs ndirect ≠ 0 := by
    have hpos := hp.pos
    rwa [ptrs_update_self hused1] at hpos
  -- the block pointer is the entry of the indirect block, before and after
  have hword : wordAt (v1.data addr) m = ptrs ino v.data (i, some (ndirect + m)) := by
    rw [← hp.keep (i, some (ndirect + m)) (by simp), ptrs_update_self hused1,
      Dinode.ptr_indirect _ _ hm, if_neg hind, haddr]
  have haddrs : d1 = { d with addrs := d1.addrs } := by
    rw [hd1]
    rfl
  -- at most the indirect block was allocated
  have hroom : ∀ e, (ndirect + m) * bsize < e → v.free sb ≤ v1.free sb + d.extra e := by
    intro e he
    by_cases hzero : d.addrs ndirect = 0
    · have hlt : ndirect * bsize < e := by
        rw [Nat.add_mul] at he
        omega
      have hone : v.free sb ≤ v1.free sb + 1 := hp.room
      rw [Dinode.extra, if_pos ⟨hlt, hzero⟩]
      exact hone
    · obtain ⟨rfl, -⟩ := Prod.ext_iff.mp (hsame hzero)
      exact Nat.le_add_right ..
  have hextra : ∀ e, d1.extra e = 0 := fun e => if_neg fun h => hind h.2
  split
  case isTrue hzero =>
    rw [ends_bind]
    refine (balloc_spec sb v1).mono ?_ ?_
    · rintro _ ⟨b, hb, hlt, rfl⟩
      obtain ⟨hq, hptr⟩ := Points.of_word hp.own hself hused1 hm hind (by rw [← haddr]; exact hzero) hb hlt
        rfl
      rw [← haddr] at hq hptr
      refine ⟨hq.own, ?_, ?_, fun k hk hk' => (hq.keep k hk).trans (hp.keep k hk'), ?_, ?_,
        haddrs, ?_⟩
      · exact hptr
      · exact hptr ▸ hq.pos
      · intro k hk hpos
        have hkeep := hp.keep k fun h => hk (by rw [h])
        have hdata := hq.data k hk (by rwa [hkeep])
        rw [hkeep] at hdata
        exact hdata.trans (hp.data k hk hpos)
      · intro hpos
        exact absurd (hword.symm.trans hzero) hpos
      · intro e he
        rw [hextra]
        exact Nat.le_trans (hroom e he) (Nat.add_le_add_right hq.room _)
    · rintro _ hfull
      refine ⟨hword.symm.trans hzero, fun e he => ?_⟩
      have hle := hroom e he
      have hfull : v1.free sb = 0 := hfull
      omega
  case isFalse hpos =>
    refine ⟨hp.own, ?_, hpos, fun k _ hk => hp.keep k hk, hp.data, ?_, haddrs, ?_⟩
    · rw [hp.keep _ (by simp), hword]
    · intro hne
      refine Prod.ext_iff.mp (hsame fun hzero => hne ?_)
      rw [ptrs_of_used hd hused, Dinode.ptr_indirect _ _ hm, if_pos hzero]
    · intro e he
      have := hroom e he
      rw [hextra]
      show v.free sb + 0 ≤ v1.free sb + 1 + d.extra e
      omega

theorem bmap_spec (hown : Own sb v ino) (hd : ino i = d) (hused : d.type ≠ none) {bn : Nat}
    (hbn : bn < maxfile) :
    Ends (bmap sb v d bn) (fun r => Mapped sb v ino i bn d r.1 r.2.1 r.2.2)
      fun _ => ptrs ino v.data (i, some bn) = 0 ∧
        ∀ e, bn * bsize < e → v.free sb < 1 + d.extra e := by
  unfold bmap
  split
  case isTrue hdir =>
    have hptr : ptrs ino v.data (i, some bn) = d.addrs bn := by
      rw [ptrs_of_used hd hused, Dinode.ptr_direct _ _ hdir]
    refine (ensureAddr_spec hown hd hused (.inl ⟨hdir, rfl⟩)).mono ?_ ?_
    · rintro ⟨b, v', d'⟩ ⟨hp, hb, hd', hsame⟩
      simp only at hp hb hd' hsame
      have hind : d'.addrs ndirect = d.addrs ndirect := by
        rw [hd']
        exact setAddr_of_ne d b hdir.ne'
      have hb' : ptrs (update ino i d') v'.data (i, some bn) = b := by
        rw [ptrs_update_self (by rw [hd']; exact hused), Dinode.ptr_direct _ _ hdir, hb]
      show Mapped sb v ino i bn d b v' d'
      refine ⟨hp.own, hb', hb' ▸ hp.pos, fun k hk _ => hp.keep k hk, hp.data, ?_, ?_, ?_⟩
      · intro hpos
        rw [hptr] at hpos
        exact Prod.ext_iff.mp (hsame hpos)
      · rw [hd']
        rfl
      · intro e _
        have hroom : v.free sb ≤ v'.free sb + 1 := hp.room
        unfold Dinode.extra
        rw [hind]
        omega
    · rintro _ ⟨hzero, hfull⟩
      exact ⟨hptr.trans hzero, fun e _ => by omega⟩
  case isFalse hdir =>
    obtain ⟨m, hm, rfl⟩ : ∃ m, m < nindirect ∧ bn = ndirect + m :=
      ⟨bn - ndirect, by unfold maxfile at hbn; omega, by omega⟩
    simp only [Nat.add_sub_cancel_left, hm, if_true]
    rw [ends_bind]
    refine (ensureAddr_spec hown hd hused (.inr ⟨rfl, rfl⟩)).mono ?_ ?_
    · rintro ⟨addr, v1, d1⟩ ⟨hp, haddr, hd1, hsame⟩
      exact bmap_indirect hd hused hm hp haddr hd1 hsame
    · rintro _ ⟨hzero, hfull⟩
      refine ⟨?_, fun e _ => by omega⟩
      rw [ptrs_of_used hd hused, Dinode.ptr_indirect _ _ hm, if_pos hzero]

end Bmap

end Xv6Mmap.Fs
