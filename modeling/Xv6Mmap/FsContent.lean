import Mathlib.Data.List.GetD
import Xv6Mmap.FsBlocks

/-!
# The bytes of a file (`fs.c:402-511`)

Byte `k` of a file is in its block `k / BSIZE` (`byteAt`), and `Covers` says that the blocks an inode
has are those of its first `len` bytes: there are no holes, and no blocks beyond.

* `readLoop_eq`: the loop of `readi` returns the bytes of the file and changes nothing.
* `writeLoop_spec`: the loop of `writei` leaves the bytes written where they belong and all others
  as they were (`Written`), or there are too few blocks.
* `itrunc_spec`: `itrunc` gives back every block of the inode.
-/

namespace Xv6Mmap.Fs

open Lib
open Function (update update_self update_of_ne update_eq_self update_idem)

/-- Byte `k` of the file of inode `i`. -/
def byteAt (ino : Nat → Dinode) (data : Nat → Sector) (i k : Nat) : Byte :=
  data (ptrs ino data (i, some (k / bsize))) (k % bsize)

/-- The `n` bytes of the file from `off` on. -/
def bytes (ino : Nat → Dinode) (data : Nat → Sector) (i off n : Nat) : List Byte :=
  (List.range n).map fun k => byteAt ino data i (off + k)

theorem bytes_add (ino : Nat → Dinode) (data : Nat → Sector) (i off m n : Nat) :
    bytes ino data i off (m + n) = bytes ino data i off m ++ bytes ino data i (off + m) n := by
  simp only [bytes, List.range_add, List.map_append, List.map_map]
  congr 1
  exact List.map_congr_left fun k _ => by rw [Function.comp_apply, Nat.add_assoc]

/-- The blocks of inode `i` are those of its first `len` bytes. -/
def Covers (ino : Nat → Dinode) (data : Nat → Sector) (i len : Nat) : Prop :=
  ∀ bn, ptrs ino data (i, some bn) ≠ 0 ↔ bn * bsize < len

/-- The number of blocks of a file of `n` bytes. -/
def blocks (n : Nat) : Nat := (n + bsize - 1) / bsize

theorem ptrs_of_le {ino : Nat → Dinode} {data : Nat → Sector} {i bn : Nat} (h : maxfile ≤ bn) :
    ptrs ino data (i, some bn) = 0 := by
  unfold ptrs
  split
  · rfl
  · exact Dinode.ptr_of_le _ _ h

section Contents

variable {sb : Superblock} {v : Vol} {ino : Nat → Dinode} {i len : Nat} {d : Dinode}

/-- A block within the file has a pointer, which `bmap` returns. -/
theorem bmap_of_pos (hown : Own sb v ino) (hd : ino i = d) (hused : d.type ≠ none) {bn : Nat}
    (hpos : ptrs ino v.data (i, some bn) ≠ 0) :
    bmap sb v d bn = .ok (ptrs ino v.data (i, some bn), v, d) := by
  have hbn : bn < maxfile := by
    by_contra hge
    exact hpos (ptrs_of_le (Nat.le_of_not_lt hge))
  have hspec := bmap_spec hown hd hused hbn
  obtain ⟨⟨b, v', d'⟩, hr, hm⟩ := (hspec.mono (fun _ h => h) fun _ he => hpos he.1).exists_ok
  have hm : Mapped sb v ino i bn d b v' d' := hm
  obtain ⟨rfl, rfl⟩ := hm.same hpos
  have hptr := hm.ptr
  rw [← hd, update_eq_self] at hptr
  rw [hr, hptr]

/-! ## Reading -/

theorem slice_eq {off m : Nat} (hm : off % bsize + m ≤ bsize) :
    slice (v.data (ptrs ino v.data (i, some (off / bsize)))) (off % bsize) m
      = bytes ino v.data i off m := by
  refine List.map_congr_left fun k hk => ?_
  have hk : k < m := List.mem_range.mp hk
  have hdiv : (off + k) / bsize = off / bsize := by
    unfold bsize at *
    omega
  have hmod : (off + k) % bsize = off % bsize + k := by
    unfold bsize at *
    omega
  rw [byteAt, hdiv, hmod]

theorem readLoop_eq (hown : Own sb v ino) (hd : ino i = d) (hused : d.type ≠ none)
    (hcov : Covers ino v.data i len) {fuel off n : Nat} (hn : off + n ≤ len) (hfuel : n ≤ fuel) :
    readLoop sb fuel v d off n = .ok (bytes ino v.data i off n, v, d) := by
  induction fuel generalizing off n with
  | zero =>
    obtain rfl : n = 0 := by omega
    rfl
  | succ fuel ih =>
    rw [readLoop]
    split
    case isTrue hzero =>
      subst hzero
      rfl
    case isFalse hne =>
      have hpos : ptrs ino v.data (i, some (off / bsize)) ≠ 0 :=
        (hcov _).mpr (by have := Nat.div_mul_le_self off bsize; omega)
      have hmod : off % bsize < bsize := Nat.mod_lt _ (by decide)
      obtain ⟨m, hm⟩ : ∃ m, m = min n (bsize - off % bsize) := ⟨_, rfl⟩
      have hrest := @ih (off + m) (n - m) (by omega) (by omega)
      rw [bmap_of_pos hown hd hused hpos]
      simp only [bind, Except.bind, ← hm, hrest, pure, Except.pure]
      rw [slice_eq (by omega), ← bytes_add, Nat.add_sub_of_le (by omega)]

/-! ## Writing -/

/-- What the loop of `writei` leaves, from `v` and the copy `d` of inode `i`, whose blocks cover
`len` bytes. -/
structure Written (sb : Superblock) (v : Vol) (ino : Nat → Dinode) (i : Nat) (d : Dinode)
    (len off : Nat) (src : List Byte) (v' : Vol) (d' : Dinode) : Prop where
  own : Own sb v' (update ino i d')
  covers : Covers (update ino i d') v'.data i (max len (off + src.length))
  byte : ∀ k, k < max len (off + src.length) →
    byteAt (update ino i d') v'.data i k
      = if off ≤ k ∧ k < off + src.length then src.getD (k - off) 0#8 else byteAt ino v.data i k
  others : ∀ j, j ≠ i → ∀ k, ptrs (update ino i d') v'.data (j, k) = ptrs ino v.data (j, k)
  data : ∀ j, j ≠ i → ∀ bn, ptrs ino v.data (j, some bn) ≠ 0 →
    v'.data (ptrs ino v.data (j, some bn)) = v.data (ptrs ino v.data (j, some bn))
  addrs : d' = { d with addrs := d'.addrs }
  /-- The inode only changes where the file grows. -/
  same : off + src.length ≤ len → d' = d
  room : ∀ e, off + src.length ≤ e → v.free sb + blocks len + d'.extra e
    ≤ v'.free sb + blocks (max len (off + src.length)) + d.extra e

variable {off : Nat} {src : List Byte}

theorem Written.nil (hown : Own sb v ino) (hd : ino i = d) (hcov : Covers ino v.data i len)
    (hoff : off ≤ len) : Written sb v ino i d len off [] v d := by
  have hsame : update ino i d = ino := by rw [← hd, update_eq_self]
  have hmax : max len (off + 0) = len := by omega
  refine ⟨?_, ?_, fun k _ => ?_, fun j _ k => ?_, fun _ _ _ _ => rfl, rfl, fun _ => rfl,
    fun e _ => ?_⟩
  · rwa [hsame]
  · rwa [hsame, List.length_nil, hmax]
  · rw [hsame, List.length_nil, if_neg (by omega)]
  · rw [hsame]
  · rw [List.length_nil, hmax]

/-- Where `bmap` had to allocate a block, the file ends where the write begins. -/
theorem Covers.end_of_zero {data : Nat → Sector} (hcov : Covers ino data i len) (hoff : off ≤ len)
    (hzero : ptrs ino data (i, some (off / bsize)) = 0) : off = len ∧ off % bsize = 0 := by
  have hge : ¬ off / bsize * bsize < len := fun h => (hcov _).mpr h hzero
  unfold bsize at *
  omega

/-- Bytes of a write that stays within one block are all in that block. -/
theorem div_eq_of_within {k m : Nat} (hfit : off % bsize + m ≤ bsize) (hle : off ≤ k)
    (hlt : k < off + m) : k / bsize = off / bsize ∧ k % bsize - off % bsize = k - off := by
  unfold bsize at *
  omega

/-- One turn of the loop: the bytes `src` all go to one block. -/
theorem Written.block {v1 : Vol} {d1 : Dinode} {b : Nat} (hd : ino i = d)
    (hcov : Covers ino v.data i len)
    (hoff : off ≤ len) (hpos : 0 < src.length) (hfit : off % bsize + src.length ≤ bsize)
    (hm : Mapped sb v ino i (off / bsize) d b v1 d1) :
    Written sb v ino i d len off src
      { v1 with data := update v1.data b (overwrite (v1.data b) (off % bsize) src) } d1 := by
  obtain ⟨bn, hbn⟩ : ∃ bn, bn = off / bsize := ⟨_, rfl⟩
  rw [← hbn] at hm
  -- the block written is not an indirect block, so the pointers are those `bmap` left
  have hptrs : ptrs (update ino i d1)
      (update v1.data b (overwrite (v1.data b) (off % bsize) src))
        = ptrs (update ino i d1) v1.data :=
    ptrs_update_data fun j hj he => by
      have := hm.own.inj _ _ hj (he.trans hm.ptr.symm)
      simp at this
  have hother : ∀ k, k ≠ (i, some bn) → k.2 ≠ none → ptrs ino v.data k ≠ 0 →
      update v1.data b (overwrite (v1.data b) (off % bsize) src) (ptrs ino v.data k)
        = v.data (ptrs ino v.data k) := by
    intro k hk hk2 hpos
    have hkeep := hm.keep k hk fun h => hk2 (by rw [h])
    have hne : ptrs ino v.data k ≠ b := fun he =>
      hk (hm.own.inj _ _ (by rwa [hkeep]) (hkeep.trans (he.trans hm.ptr.symm)))
    rw [update_of_ne hne, hm.data k hk2 hpos]
  have hlo : bn * bsize ≤ off := hbn ▸ Nat.div_mul_le_self off bsize
  have hhi : off + src.length ≤ (bn + 1) * bsize := by
    unfold bsize at *
    omega
  refine ⟨?_, ?_, ?_, ?_, ?_, hm.addrs, ?_, ?_⟩
  · show Allot _ _ v1.bit _
    rw [hptrs]
    exact hm.own
  · intro l
    show ptrs _ (update v1.data b _) (i, some l) ≠ 0 ↔ _
    rw [hptrs]
    by_cases hl : l = bn
    · subst hl
      exact iff_of_true (hm.ptr ▸ hm.pos) (by omega)
    · rw [hm.keep _ (by simpa using hl) (by simp), hcov l]
      unfold bsize at *
      omega
  · intro k hk
    show update v1.data b _
      (ptrs _ (update v1.data b _) (i, some (k / bsize))) (k % bsize) = _
    rw [hptrs]
    by_cases hl : k / bsize = bn
    · rw [hl, hm.ptr, update_self]
      by_cases hin : off ≤ k ∧ k < off + src.length
      · have hmod := (div_eq_of_within hfit hin.1 hin.2).2
        rw [if_pos hin, overwrite, if_pos (by unfold bsize at *; omega), hmod]
      -- the block was there, so it is unchanged outside the bytes written
      have hpos' : ptrs ino v.data (i, some bn) ≠ 0 := fun hzero => by
        obtain ⟨hend, hmod⟩ := hcov.end_of_zero hoff (hbn ▸ hzero)
        unfold bsize at *
        omega
      obtain ⟨rfl, rfl⟩ := hm.same hpos'
      have hptr := hm.ptr
      rw [← hd, update_eq_self] at hptr
      rw [if_neg hin, overwrite, if_neg (by unfold bsize at *; omega), byteAt, hl, hptr]
    · have hout : ¬ (off ≤ k ∧ k < off + src.length) := fun h =>
        hl ((div_eq_of_within hfit h.1 h.2).1.trans hbn.symm)
      have hpos' : ptrs ino v.data (i, some (k / bsize)) ≠ 0 :=
        (hcov _).mpr (by have := Nat.div_mul_le_self k bsize; omega)
      have hne : (i, some (k / bsize)) ≠ (i, some bn) := by simpa using hl
      rw [if_neg hout, hm.keep _ hne (by simp), hother _ hne (by simp) hpos']
      rfl
  · intro j hj k
    show ptrs _ (update v1.data b _) (j, k) = _
    rw [hptrs]
    exact hm.keep _ (by simp [hj]) (by simp [hj])
  · exact fun j hj bn' hpos => hother _ (by simp [hj]) (by simp) hpos
  · intro hle
    exact (hm.same ((hcov bn).mpr (by omega))).2
  · intro e he
    show v.free sb + blocks len + d1.extra e ≤ v1.free sb + _ + d.extra e
    by_cases hzero : ptrs ino v.data (i, some bn) = 0
    · obtain ⟨hend, hmod⟩ := hcov.end_of_zero hoff (hbn ▸ hzero)
      have hroom := hm.room e (by omega)
      have hgrow : blocks (max len (off + src.length)) = blocks len + 1 := by
        unfold blocks bsize at *
        omega
      omega
    · obtain ⟨rfl, rfl⟩ := hm.same hzero
      have hmono : blocks len ≤ blocks (max len (off + src.length)) :=
        Nat.div_le_div_right (by omega)
      omega

theorem Written.trans {v1 v2 : Vol} {d1 d2 : Dinode} {src2 : List Byte}
    (h : Written sb v ino i d len off src v1 d1)
    (h₂ : Written sb v1 (update ino i d1) i d1 (max len (off + src.length))
      (off + src.length) src2 v2 d2) :
    Written sb v ino i d len off (src ++ src2) v2 d2 := by
  have hlen : off + (src ++ src2).length = off + src.length + src2.length := by
    rw [List.length_append, Nat.add_assoc]
  have hmax : max (max len (off + src.length)) (off + src.length + src2.length)
      = max len (off + (src ++ src2).length) := by omega
  obtain ⟨own, covers, byte, others, data, addrs, same, room⟩ := h₂
  rw [update_idem] at own
  simp only [update_idem, hmax] at covers byte others data room
  refine ⟨own, covers, fun k hk => ?_, fun j hj k => ?_, fun j hj bn hpos => ?_, ?_, fun hle => ?_,
    fun e he => ?_⟩
  · rw [byte k hk]
    by_cases h2 : off + src.length ≤ k ∧ k < off + src.length + src2.length
    · rw [if_pos h2, if_pos (by omega), List.getD_append_right _ _ _ _ (by omega)]
      congr 1
      omega
    · rw [if_neg h2, h.byte k (by omega)]
      by_cases h1 : off ≤ k ∧ k < off + src.length
      · rw [if_pos h1, if_pos (by omega), List.getD_append _ _ _ _ (by omega)]
      · rw [if_neg h1, if_neg (by omega)]
  · rw [others j hj k, h.others j hj k]
  · have hptr := h.others j hj (some bn)
    have hdata := data j hj bn (by rwa [hptr])
    rw [hptr] at hdata
    rw [hdata, h.data j hj bn hpos]
  · rw [addrs, h.addrs]
  · rw [same (by omega), h.same (by omega)]
  · have h1 := h.room e (by omega)
    have h2 := room e (by omega)
    omega

theorem writeLoop_spec (hown : Own sb v ino) (hd : ino i = d) (hused : d.type ≠ none)
    (hcov : Covers ino v.data i len) (hoff : off ≤ len) (hmax : off + src.length ≤ maxfile * bsize)
    {fuel : Nat} (hfuel : src.length ≤ fuel) :
    Ends (writeLoop sb fuel v d off src)
      (fun r => Written sb v ino i d len off src r.1 r.2)
      fun _ => v.free sb + blocks len
        < blocks (off + src.length) + d.extra (off + src.length) := by
  induction fuel generalizing v ino d len off src with
  | zero =>
    obtain rfl : src = [] := List.length_eq_zero_iff.mp (by omega)
    exact Written.nil hown hd hcov hoff
  | succ fuel ih =>
    rw [writeLoop]
    split
    case isTrue hnil =>
      subst hnil
      exact Written.nil hown hd hcov hoff
    case isFalse hne =>
      have hlen : 0 < src.length := List.length_pos_of_ne_nil hne
      have hmod : off % bsize < bsize := Nat.mod_lt _ (by decide)
      have hbn : off / bsize < maxfile := by
        rw [Nat.div_lt_iff_lt_mul (by decide)]
        omega
      rw [ends_bind]
      refine (bmap_spec hown hd hused hbn).mono ?_ ?_
      · rintro ⟨b, v1, d1⟩ hm
        have hm : Mapped sb v ino i (off / bsize) d b v1 d1 := hm
        obtain ⟨m, hmdef⟩ : ∃ m, m = min src.length (bsize - off % bsize) := ⟨_, rfl⟩
        have htake : (src.take m).length = m := by
          rw [List.length_take]
          omega
        have hblock : Written sb v ino i d len off (src.take m) _ d1 :=
          Written.block hd hcov hoff (by omega) (by omega) hm
        have hused1 : d1.type ≠ none := by
          rw [hm.addrs]
          exact hused
        have hrest := ih hblock.own (update_self ..) hused1 hblock.covers
          (by omega) (show off + (src.take m).length + (src.drop m).length ≤ _ by
            rw [List.length_drop]
            omega) (by rw [List.length_drop]; omega)
        simp only [← hmdef]
        rw [htake] at hrest
        refine hrest.mono (fun r hr => ?_) fun _ he => ?_
        · rw [← htake] at hr
          have := hblock.trans (by rw [htake]; rw [htake] at hr; exact hr)
          rwa [List.take_append_drop] at this
        · have hroom := hblock.room (off + src.length) (by omega)
          rw [htake] at hroom
          have hend : off + m + (src.drop m).length = off + src.length := by
            rw [List.length_drop]
            omega
          rw [hend] at he
          omega
      · rintro _ ⟨hzero, hfull⟩
        obtain ⟨hend, hmod0⟩ := hcov.end_of_zero hoff hzero
        have hlt := hfull (off + src.length) (by have := Nat.div_mul_le_self off bsize; omega)
        have hgrow : blocks len + 1 ≤ blocks (off + src.length) := by
          unfold blocks bsize at *
          omega
        omega

/-! ## Truncating -/

/-- The blocks of different owners are freed one after the other. -/
theorem bfreeAll_spec {own : Nat × Option Nat → Nat} {keys : List (Nat × Option Nat)}
    (h : Allot sb.first sb.size v.bit own) (hnd : keys.Nodup) :
    Ends (bfreeAll (keys.map own) v)
      (fun v' => Allot sb.first sb.size v'.bit (fun k => if k ∈ keys then 0 else own k) ∧
        v'.data = v.data)
      fun _ => False := by
  induction keys generalizing v own with
  | nil => exact ⟨h.congr fun k => if_neg List.not_mem_nil, rfl⟩
  | cons key keys ih =>
    obtain ⟨hnot, hnd⟩ := List.nodup_cons.mp hnd
    -- what is left for the other keys once this one has no block
    have hrest : ∀ v', Allot sb.first sb.size v'.bit (update own key 0) →
        v'.data = v.data →
        Ends (bfreeAll (keys.map own) v')
          (fun v' => Allot sb.first sb.size v'.bit
            (fun k => if k ∈ key :: keys then 0 else own k) ∧ v'.data = v.data)
          fun _ => False := by
      intro v' hv' hdata
      have hmap : keys.map own = keys.map (update own key 0) :=
        List.map_congr_left fun k hk => by
          rw [update_of_ne (ne_of_mem_of_not_mem hk hnot)]
      rw [hmap]
      refine (ih hv' hnd).mono (fun w hw => ⟨hw.1.congr fun k => ?_, hw.2.trans hdata⟩) fun _ he => he
      by_cases hk : k = key
      · subst hk
        simp
      · simp [hk]
    rw [List.map_cons, bfreeAll]
    by_cases hzero : own key = 0
    · rw [if_pos hzero]
      refine hrest v ?_ rfl
      rwa [← hzero, update_eq_self]
    · rw [if_neg hzero, bfree, if_pos (h.bit_own hzero)]
      exact hrest _ (h.release sb.first_pos hzero) rfl

/-- The keys of the pointers in the inode itself, and of those in the indirect block. -/
def directKeys (i : Nat) : List (Nat × Option Nat) :=
  (List.range ndirect).map fun bn => (i, some bn)

def indirectKeys (i : Nat) : List (Nat × Option Nat) :=
  (List.range nindirect).map fun m => (i, some (ndirect + m))

theorem mem_directKeys {k : Nat × Option Nat} :
    k ∈ directKeys i ↔ ∃ bn, bn < ndirect ∧ k = (i, some bn) := by
  simp [directKeys, eq_comm]

theorem mem_indirectKeys {k : Nat × Option Nat} :
    k ∈ indirectKeys i ↔ ∃ m, m < nindirect ∧ k = (i, some (ndirect + m)) := by
  simp [indirectKeys, eq_comm]

theorem nodup_directKeys : (directKeys i).Nodup :=
  List.nodup_range.map fun a b h => by simpa using h

theorem nodup_indirectKeys : (indirectKeys i).Nodup :=
  List.nodup_range.map fun a b h => by simpa using h

/-- Freeing the indirect block, once the direct blocks are free. -/
theorem bfreeIndirect_spec (hd : ino i = d) (hused : d.type ≠ none)
    {own : Nat × Option Nat → Nat} (h : Allot sb.first sb.size v.bit own)
    (hown : ∀ k, k ∉ directKeys i → own k = ptrs ino v.data k) :
    Ends (bfreeIndirect v (d.addrs ndirect))
      (fun v' => Allot sb.first sb.size v'.bit
        (fun k => if k = (i, none) ∨ k ∈ indirectKeys i then 0 else own k) ∧ v'.data = v.data)
      fun _ => False := by
  have hind : own (i, none) = d.addrs ndirect := by
    rw [hown _ (by simp [mem_directKeys]), ptrs_of_used hd hused]
    rfl
  have hword : ∀ m, m < nindirect → own (i, some (ndirect + m))
      = if d.addrs ndirect = 0 then 0 else wordAt (v.data (d.addrs ndirect)) m := by
    intro m hm
    rw [hown _ (by simp [mem_directKeys]), ptrs_of_used hd hused, Dinode.ptr_indirect _ _ hm]
  unfold bfreeIndirect
  split
  case isTrue hzero =>
    refine ⟨h.congr fun k => ?_, rfl⟩
    split
    case isTrue hk =>
      rcases hk with rfl | hk
      · rw [hind, hzero]
      · obtain ⟨m, hm, rfl⟩ := mem_indirectKeys.mp hk
        rw [hword m hm, if_pos hzero]
    case isFalse => rfl
  case isFalse hpos =>
    have hmap : (List.range nindirect).map (wordAt (v.data (d.addrs ndirect)))
        = (indirectKeys i).map own := by
      rw [indirectKeys, List.map_map]
      refine List.map_congr_left fun m hm => ?_
      rw [Function.comp_apply, hword m (List.mem_range.mp hm), if_neg hpos]
    rw [hmap, ends_bind]
    refine (bfreeAll_spec h nodup_indirectKeys).mono (fun v1 h1 => ?_) fun _ he => he
    have hkey : (if (i, none) ∈ indirectKeys i then 0 else own (i, none)) = d.addrs ndirect := by
      rw [if_neg (by simp [mem_indirectKeys]), hind]
    have hrel := h1.1.release sb.first_pos (k := (i, none)) (by rwa [hkey])
    have hbit := h1.1.bit_own (k := (i, none)) (by rwa [hkey])
    rw [hkey] at hrel hbit
    rw [bfree, if_pos hbit]
    refine ⟨hrel.congr fun k => ?_, h1.2⟩
    by_cases hk : k = (i, none)
    · subst hk
      simp
    · simp [hk]

theorem itrunc_spec (hown : Own sb v ino) (hd : ino i = d) (hused : d.type ≠ none) :
    Ends (itrunc v d)
      (fun r => r.2 = { d with size := 0, addrs := fun _ => 0 } ∧
        Own sb r.1 (update ino i r.2) ∧ r.1.data = v.data)
      fun _ => False := by
  have hmap : (List.range ndirect).map d.addrs = (directKeys i).map (ptrs ino v.data) := by
    rw [directKeys, List.map_map]
    refine List.map_congr_left fun bn hbn => ?_
    rw [Function.comp_apply, ptrs_of_used hd hused, Dinode.ptr_direct _ _ (List.mem_range.mp hbn)]
  unfold itrunc
  rw [hmap, ends_bind]
  refine (bfreeAll_spec hown nodup_directKeys).mono (fun v1 h1 => ?_) fun _ he => he
  rw [ends_bind]
  refine (bfreeIndirect_spec hd hused h1.1 fun k hk => ?_).mono (fun v2 h2 => ?_) fun _ he => he
  · rw [if_neg hk, h1.2]
  refine ⟨rfl, h2.1.congr ?_, h2.2.trans h1.2⟩
  -- all pointers of `i` are gone, all others are as before
  rintro ⟨j, k⟩
  by_cases hj : j = i
  · subst hj
    rw [ptrs_update_self (by exact hused), Dinode.ptr_of_addrs _ fun _ => rfl]
    cases k with
    | none => simp
    | some bn =>
      obtain hbn | ⟨m, hm, rfl⟩ | hbn := bn_cases bn
      · rw [if_pos (mem_directKeys.mpr ⟨bn, hbn, rfl⟩), ite_self]
      · rw [if_pos (.inr (mem_indirectKeys.mpr ⟨m, hm, rfl⟩))]
      · rw [ptrs_of_le hbn, ite_self, ite_self]
  · have hdata : v2.data = v.data := h2.2.trans h1.2
    rw [ptrs_update_of_ne hj, hdata, if_neg, if_neg]
    · rw [mem_directKeys]
      rintro ⟨_, _, he⟩
      exact hj (Prod.ext_iff.mp he).1
    · rw [mem_indirectKeys]
      rintro (he | ⟨_, _, he⟩) <;> exact hj (Prod.ext_iff.mp he).1

end Contents

end Xv6Mmap.Fs
