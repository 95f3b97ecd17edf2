import Xv6Mmap.FsBlocks

/-!
# The free bitmap (`fs.c:41-95`, `fs.h:44-48`)

`Fs.balloc` and `Fs.bfree` work on one bit for each block. Here they are as `fs.c` has them, on the
bytes of the blocks: `balloc` goes through the bitmap block by block and bit by bit, with `int`
counters, and `bfree` finds block, byte and bit of a block number by a division of `uint`s. The
bitmap lies among the blocks it is about.

* `bit` is what both mean by the bit of a block, and `bit_setBit`, `bit_clearBit` say that they
  change one bit, for any number of bitmap blocks and any place of them.
* `balloc_cases`: `balloc` takes the lowest clear bit below `sb.size`, or panics if there is none.
* A bitmap that does not have its own blocks in use is given away: `bzero` then clears a part of it
  (`balloc_erases_bitmap`).
* `Shows.balloc`, `Shows.bfree`: the two refine `Fs.balloc` and `Fs.bfree`.
-/

namespace Xv6Mmap.Fs.Bitmap

open Function (update update_self update_of_ne)

/-- `BPB`. -/
def bpb : Word := 4096#32

/-- The fields of `struct superblock` that say where the bitmap is. -/
structure Super where
  size : Word
  bmapstart : Word

/-- The bytes of the disk, by block number. -/
abbrev Blocks := Word → Sector

/-- `BBLOCK(b, sb)` of a `uint`. -/
def bblock (sb : Super) (b : Word) : Word := b / bpb + sb.bmapstart

/-- `m = 1 << (bi % 8)`. -/
def mask (bi : Nat) : Byte := 1#8 <<< (bi % 8)

/-- `bp->data[bi/8] |= m`. -/
def mark (x : Sector) (bi : Nat) : Sector :=
  update x (bi / 8) (x (bi / 8) ||| mask bi)

/-- `bp->data[bi/8] &= ~m`. -/
def unmark (x : Sector) (bi : Nat) : Sector :=
  update x (bi / 8) (x (bi / 8) &&& ~~~mask bi)

/-- `bzero(dev, bno)`. -/
def bzero (d : Blocks) (bno : Word) : Blocks := update d bno fun _ => 0#8

/-- The inner loop of `balloc` from `bi` on, with the turns left up to `BPB`. -/
def ballocScan (sb : Super) (b : Word) (x : Sector) : Nat → Nat → Option Nat
  | 0, _ => none
  | left + 1, bi =>
    if b + BitVec.ofNat 32 bi < sb.size then
      if x (bi / 8) &&& mask bi = 0#8 then some bi else ballocScan sb b x left (bi + 1)
    else none

/-- The outer loop of `balloc` from `b` on; `b` is an `int`, compared as a `uint`. -/
def ballocLoop (sb : Super) (d : Blocks) : Nat → Word → Except Halt (Word × Blocks)
  | 0, _ => .error .deadlock
  | fuel + 1, b =>
    if b < sb.size then
      let n := b.sdiv bpb + sb.bmapstart
      match ballocScan sb b (d n) 4096 0 with
      | some bi =>
        .ok (b + BitVec.ofNat 32 bi,
          bzero (update d n (mark (d n) bi)) (b + BitVec.ofNat 32 bi))
      | none => ballocLoop sb d fuel (b + bpb)
    else .error (.panic "balloc: out of blocks")

/-- `balloc(dev)`. -/
def balloc (sb : Super) (d : Blocks) : Except Halt (Word × Blocks) := ballocLoop sb d 1048577 0#32

/-- `bfree(dev, b)`. -/
def bfree (sb : Super) (d : Blocks) (b : Word) : Except Halt Blocks :=
  let n := bblock sb b
  let bi := (b % bpb).toNat
  if d n (bi / 8) &&& mask bi = 0#8 then .error (.panic "freeing free block")
  else .ok (update d n (unmark (d n) bi))

/-! ## Bits -/

/-- The bit of block `b`. -/
def bit (sb : Super) (d : Blocks) (b : Word) : Bool :=
  (d (bblock sb b) (b.toNat % 4096 / 8)).getLsbD (b.toNat % 8)

/-- The disk with the bit of block `b` set. -/
def setBit (sb : Super) (d : Blocks) (b : Word) : Blocks :=
  update d (bblock sb b) (mark (d (bblock sb b)) (b.toNat % 4096))

/-- The disk with the bit of block `b` clear. -/
def clearBit (sb : Super) (d : Blocks) (b : Word) : Blocks :=
  update d (bblock sb b) (unmark (d (bblock sb b)) (b.toNat % 4096))

theorem getLsbD_mask (bi j : Nat) (hj : j < 8) : (mask bi).getLsbD j = decide (j = bi % 8) := by
  unfold mask
  rw [BitVec.getLsbD_shiftLeft, BitVec.getLsbD_one]
  grind

theorem and_mask_eq_zero (x : Byte) (bi : Nat) :
    x &&& mask bi = 0#8 ↔ x.getLsbD (bi % 8) = false := by
  have hlt : bi % 8 < 8 := Nat.mod_lt bi (by decide)
  constructor
  · intro h
    have hbit := congrArg (BitVec.getLsbD · (bi % 8)) h
    simpa [getLsbD_mask bi _ hlt] using hbit
  · intro h
    refine BitVec.eq_of_getLsbD_eq fun j hj => ?_
    rw [BitVec.getLsbD_and, getLsbD_mask bi j hj, BitVec.getLsbD_zero]
    by_cases hji : j = bi % 8
    · rw [hji, h, Bool.false_and]
    · rw [decide_eq_false hji, Bool.and_false]

theorem getLsbD_mark (x : Sector) (bi c : Nat) :
    (mark x bi (c / 8)).getLsbD (c % 8) = (decide (c = bi) || (x (c / 8)).getLsbD (c % 8)) := by
  have hlt : c % 8 < 8 := Nat.mod_lt c (by decide)
  unfold mark
  by_cases hbyte : c / 8 = bi / 8
  · rw [hbyte, update_self, BitVec.getLsbD_or, getLsbD_mask bi _ hlt, Bool.or_comm]
    congr 1
    exact decide_eq_decide.mpr ⟨fun h => by omega, fun h => by omega⟩
  · rw [update_of_ne hbyte, decide_eq_false (fun h => hbyte (by rw [h])), Bool.false_or]

theorem getLsbD_unmark (x : Sector) (bi c : Nat) :
    (unmark x bi (c / 8)).getLsbD (c % 8) = (!decide (c = bi) && (x (c / 8)).getLsbD (c % 8)) := by
  have hlt : c % 8 < 8 := Nat.mod_lt c (by decide)
  unfold unmark
  by_cases hbyte : c / 8 = bi / 8
  · rw [hbyte, update_self, BitVec.getLsbD_and, BitVec.getLsbD_not,
      getLsbD_mask bi _ hlt, decide_eq_true hlt, Bool.true_and, Bool.and_comm]
    congr 2
    exact decide_eq_decide.mpr ⟨fun h => by omega, fun h => by omega⟩
  · rw [update_of_ne hbyte, decide_eq_false (fun h => hbyte (by rw [h]))]
    rfl

section Disk

variable {sb : Super} {d : Blocks} {b c : Word}

/-- Blocks with bits in the same bitmap block have the same quotient, wherever the bitmap is. -/
theorem bblock_inj (h : bblock sb b = bblock sb c) : b.toNat / 4096 = c.toNat / 4096 := by
  have h := congrArg BitVec.toNat (add_right_cancel h)
  unfold bpb at h
  rwa [BitVec.toNat_udiv, BitVec.toNat_udiv] at h

theorem mod_eight (n : Nat) : n % 4096 % 8 = n % 8 := by omega

/-- **Setting a bit sets exactly that bit**, in all the blocks of the bitmap. -/
theorem bit_setBit : bit sb (setBit sb d b) c = (decide (c = b) || bit sb d c) := by
  unfold bit setBit
  by_cases hn : bblock sb c = bblock sb b
  · rw [hn, update_self, ← mod_eight c.toNat, getLsbD_mark]
    congr 1
    refine decide_eq_decide.mpr ⟨fun h => BitVec.eq_of_toNat_eq ?_, fun h => by rw [h]⟩
    have := bblock_inj hn
    omega
  · rw [update_of_ne hn, decide_eq_false (fun h => hn (by rw [h])), Bool.false_or]

/-- **Clearing a bit clears exactly that bit.** -/
theorem bit_clearBit : bit sb (clearBit sb d b) c = (!decide (c = b) && bit sb d c) := by
  unfold bit clearBit
  by_cases hn : bblock sb c = bblock sb b
  · rw [hn, update_self, ← mod_eight c.toNat, getLsbD_unmark]
    congr 2
    refine decide_eq_decide.mpr ⟨fun h => BitVec.eq_of_toNat_eq ?_, fun h => by rw [h]⟩
    have := bblock_inj hn
    omega
  · rw [update_of_ne hn, decide_eq_false (fun h => hn (by rw [h]))]
    rfl

/-- Zeroing a block that has no part of the bitmap leaves the bits alone. -/
theorem bit_bzero (h : bblock sb c ≠ b) : bit sb (bzero d b) c = bit sb d c := by
  unfold bit bzero
  rw [update_of_ne h]

/-! ## `bfree` -/

theorem toNat_mod_bpb (b : Word) : (b % bpb).toNat = b.toNat % 4096 := rfl

/-- `bfree` of a block whose bit is set clears the bit; of another it panics. -/
theorem bfree_eq (sb : Super) (d : Blocks) (b : Word) :
    bfree sb d b =
      if bit sb d b then .ok (clearBit sb d b) else .error (.panic "freeing free block") := by
  have htest : d (bblock sb b) (b.toNat % 4096 / 8) &&& mask (b.toNat % 4096) = 0#8
      ↔ bit sb d b = false := by
    rw [and_mask_eq_zero, mod_eight]
    rfl
  unfold bfree
  dsimp only
  rw [toNat_mod_bpb]
  by_cases hb : bit sb d b = true
  · rw [if_neg (fun h => by rw [htest.mp h] at hb; cases hb), if_pos hb]
    rfl
  · rw [if_pos (htest.mpr (Bool.eq_false_iff.mpr hb)), if_neg hb]

/-! ## `balloc` -/

/-- The inner loop finds the first clear bit before the end of the disk or of the bitmap block. -/
theorem ballocScan_spec (x : Sector) (left bi : Nat) (hwrap : b.toNat + (bi + left) < 2 ^ 32) :
    match ballocScan sb b x left bi with
    | some r => r < bi + left ∧ b.toNat + r < sb.size.toNat ∧
        (x (r / 8)).getLsbD (r % 8) = false ∧
        ∀ c, bi ≤ c → c < r → (x (c / 8)).getLsbD (c % 8) = true
    | none => ∀ c, bi ≤ c → c < bi + left → b.toNat + c < sb.size.toNat →
        (x (c / 8)).getLsbD (c % 8) = true := by
  induction left generalizing bi with
  | zero =>
    intro c hc hlt
    omega
  | succ left ih =>
    have hrest := ih (bi + 1) (by omega)
    have hsum : (b + BitVec.ofNat 32 bi).toNat = b.toNat + bi := toNat_add_ofNat (by omega)
    rw [ballocScan]
    by_cases hend : b + BitVec.ofNat 32 bi < sb.size
    · rw [if_pos hend]
      rw [BitVec.lt_def, hsum] at hend
      by_cases hclear : x (bi / 8) &&& mask bi = 0#8
      · rw [if_pos hclear]
        exact ⟨by omega, hend, (and_mask_eq_zero _ _).mp hclear, fun c hc hlt => by omega⟩
      rw [if_neg hclear]
      have hset : (x (bi / 8)).getLsbD (bi % 8) = true := by
        rw [and_mask_eq_zero, Bool.not_eq_false] at hclear
        exact hclear
      have hstep : ∀ {c}, bi ≤ c → (bi + 1 ≤ c → (x (c / 8)).getLsbD (c % 8) = true) →
          (x (c / 8)).getLsbD (c % 8) = true := fun {c} hc hlater => by
        by_cases hcb : c = bi
        · rw [hcb, hset]
        · exact hlater (by omega)
      cases hscan : ballocScan sb b x left (bi + 1) with
      | some r =>
        rw [hscan] at hrest
        obtain ⟨hlt, hsize, hbit, hbefore⟩ := hrest
        exact ⟨by omega, hsize, hbit, fun c hc hcr => hstep hc fun hc' => hbefore c hc' hcr⟩
      | none =>
        rw [hscan] at hrest
        exact fun c hc hlt hsize => hstep hc fun hc' => hrest c hc' (by omega) hsize
    · rw [if_neg hend]
      rw [BitVec.lt_def, hsum] at hend
      intro c hc _ hsize
      omega

theorem sdiv_bpb (h : b.toNat < 2 ^ 31) : b.sdiv bpb = b / bpb := by
  have hb : b.msb = false := by
    rw [BitVec.msb_eq_decide, decide_eq_false]
    omega
  have hbpb : bpb.msb = false := rfl
  rw [BitVec.sdiv_eq, hb, hbpb]
  rfl

/-- The bit of block `b + r`, for the first block `b` of a bitmap block. -/
theorem bit_add {r : Nat} (hal : b.toNat % 4096 = 0) (hr : r < 4096)
    (hwrap : b.toNat + r < 2 ^ 32) :
    bblock sb (b + BitVec.ofNat 32 r) = bblock sb b ∧
      (b + BitVec.ofNat 32 r).toNat % 4096 = r := by
  have hsum := toNat_add_ofNat hwrap
  refine ⟨congrArg (· + sb.bmapstart) (BitVec.eq_of_toNat_eq ?_), by omega⟩
  have hdiv : ∀ x : Word, (x / bpb).toNat = x.toNat / 4096 := fun _ => rfl
  rw [hdiv, hdiv, hsum]
  omega

/-- What `balloc` does: it panics, or marks and zeroes the first block that is free. -/
inductive Balloc (sb : Super) (d : Blocks) : Except Halt (Word × Blocks) → Prop where
  | full (h : ∀ c, c < sb.size → bit sb d c = true) :
      Balloc sb d (.error (.panic "balloc: out of blocks"))
  | found (b : Word) (hb : b < sb.size) (hfree : bit sb d b = false)
      (hfirst : ∀ c, c < b → bit sb d c = true) : Balloc sb d (.ok (b, bzero (setBit sb d b) b))

theorem ballocLoop_spec (hsize : sb.size.toNat < 2 ^ 30) (fuel : Nat)
    (hal : b.toNat % 4096 = 0) (hle : b.toNat < sb.size.toNat + 4096)
    (hfuel : sb.size.toNat < b.toNat + 4096 * fuel)
    (hbefore : ∀ c : Word, c.toNat < b.toNat → c < sb.size → bit sb d c = true) :
    Balloc sb d (ballocLoop sb d (fuel + 1) b) := by
  induction fuel generalizing b with
  | zero =>
    rw [ballocLoop, if_neg (by rw [BitVec.lt_def]; omega)]
    refine .full fun c hc => hbefore c ?_ hc
    rw [BitVec.lt_def] at hc
    omega
  | succ fuel ih =>
    rw [ballocLoop]
    by_cases hlt : b < sb.size
    · rw [if_pos hlt]
      rw [BitVec.lt_def] at hlt
      have hn : b.sdiv bpb + sb.bmapstart = bblock sb b := by
        rw [sdiv_bpb (by omega)]
        rfl
      have hscan := @ballocScan_spec sb b (d (bblock sb b)) 4096 0 (by omega)
      -- the bits of this bitmap block, by their offset
      have hbits : ∀ r, r < 4096 → bit sb d (b + BitVec.ofNat 32 r)
          = (d (bblock sb b) (r / 8)).getLsbD (r % 8) := fun r hr => by
        obtain ⟨hblock, hmod⟩ := bit_add hal hr (by omega)
        unfold bit
        rw [hblock, ← mod_eight, hmod]
      have hoff : ∀ c : Word, b.toNat ≤ c.toNat →
          c = b + BitVec.ofNat 32 (c.toNat - b.toNat) := fun c hc =>
        BitVec.eq_of_toNat_eq (by rw [toNat_add_ofNat (by omega)]; omega)
      dsimp only
      rw [hn]
      cases hfound : ballocScan sb b (d (bblock sb b)) 4096 0 with
      | some r =>
        rw [hfound] at hscan
        obtain ⟨hr, hrsize, hclear, hset⟩ := hscan
        rw [Nat.zero_add] at hr
        obtain ⟨hblock, hmod⟩ := bit_add hal hr (by omega)
        have hsum : (b + BitVec.ofNat 32 r).toNat = b.toNat + r := toNat_add_ofNat (by omega)
        have hmark : update d (bblock sb b) (mark (d (bblock sb b)) r)
            = setBit sb d (b + BitVec.ofNat 32 r) := by
          unfold setBit
          rw [hblock, hmod]
        dsimp only
        rw [hmark]
        refine .found _ (by rw [BitVec.lt_def, hsum]; exact hrsize) (by rw [hbits r hr, hclear])
          fun c hc => ?_
        rw [BitVec.lt_def, hsum] at hc
        by_cases hcb : c.toNat < b.toNat
        · exact hbefore c hcb (by rw [BitVec.lt_def]; omega)
        · rw [hoff c (by omega), hbits _ (by omega)]
          exact hset _ (Nat.zero_le _) (by omega)
      | none =>
        rw [hfound] at hscan
        have hnext : (b + bpb).toNat = b.toNat + 4096 := by
          unfold bpb
          bv_omega
        refine ih (by omega) (by omega) (by omega) fun c hc hcsize => ?_
        by_cases hcb : c.toNat < b.toNat
        · exact hbefore c hcb hcsize
        · rw [BitVec.lt_def] at hcsize
          rw [hoff c (by omega), hbits _ (by omega)]
          exact hscan _ (Nat.zero_le _) (by omega) (by omega)
    · rw [if_neg hlt]
      rw [BitVec.lt_def] at hlt
      refine .full fun c hc => hbefore c ?_ hc
      rw [BitVec.lt_def] at hc
      omega

/-- **`balloc` takes the lowest clear bit below `sb.size`**, or panics if there is none. -/
theorem balloc_cases (sb : Super) (d : Blocks) (hsize : sb.size.toNat < 2 ^ 30) :
    Balloc sb d (balloc sb d) := by
  refine ballocLoop_spec hsize 1048576 rfl ?_ ?_ fun c hc => ?_
  · simp
  · simp
    omega
  · simp at hc

/-! ## Allocation and release -/

/-- Block `n` has a part of the bitmap. -/
def IsMap (sb : Super) (n : Word) : Prop := ∃ c, c < sb.size ∧ bblock sb c = n

/-- The bitmap has its own blocks in use, as `mkfs` writes it. -/
def Marked (sb : Super) (d : Blocks) : Prop := ∀ n, IsMap sb n → n < sb.size → bit sb d n = true

/-- The bits of the bitmap after `balloc` returned a block that has no part of it. -/
theorem bit_bzero_setBit (hb : ¬ IsMap sb b) (hc : IsMap sb (bblock sb c)) :
    bit sb (bzero (setBit sb d b) b) c = (decide (c = b) || bit sb d c) := by
  rw [bit_bzero (fun h => hb (by rwa [h] at hc)), bit_setBit]

theorem isMap_bblock (h : c < sb.size) : IsMap sb (bblock sb c) := ⟨c, h, rfl⟩

theorem Marked.not_isMap (hm : Marked sb d) (hb : b < sb.size) (hfree : bit sb d b = false) :
    ¬ IsMap sb b := fun h => by
  rw [hm b h hb] at hfree
  cases hfree

/-- A block that `balloc` returns, and the disk after it. -/
structure Takes (sb : Super) (d : Blocks) (b : Word) (d' : Blocks) : Prop where
  lt : b < sb.size
  free : bit sb d b = false
  first : ∀ c, c < b → bit sb d c = true
  zero : ∀ k, d' b k = 0#8
  other : ∀ n, n ≠ b → n ≠ bblock sb b → d' n = d n

/-- The bitmap has the bit of `b` set besides those it had, and `bfree` takes that back. -/
structure Sets (sb : Super) (d : Blocks) (b : Word) (d' : Blocks) : Prop where
  bits : ∀ c, IsMap sb (bblock sb c) → bit sb d' c = (decide (c = b) || bit sb d c)
  undone : ∃ d'', bfree sb d' b = .ok d'' ∧
    ∀ c, IsMap sb (bblock sb c) → bit sb d'' c = bit sb d c

theorem takes_of_found (hb : b < sb.size) (hfree : bit sb d b = false)
    (hfirst : ∀ c, c < b → bit sb d c = true) : Takes sb d b (bzero (setBit sb d b) b) := by
  refine ⟨hb, hfree, hfirst, fun k => ?_, fun n hn hmap => ?_⟩
  · unfold bzero
    rw [update_self]
  · unfold bzero setBit
    rw [update_of_ne hn, update_of_ne hmap]

theorem sets_of_not_isMap (hb : b < sb.size) (hfree : bit sb d b = false) (hmap : ¬ IsMap sb b) :
    Sets sb d b (bzero (setBit sb d b) b) := by
  refine ⟨fun c hc => bit_bzero_setBit hmap hc, clearBit sb (bzero (setBit sb d b) b) b, ?_,
    fun c hc => ?_⟩
  · rw [bfree_eq, bit_bzero_setBit hmap (isMap_bblock hb), decide_eq_true rfl, Bool.true_or,
      if_pos rfl]
  · rw [bit_clearBit, bit_bzero_setBit hmap hc]
    by_cases hcb : c = b
    · rw [hcb, decide_eq_true rfl, hfree]
      rfl
    · rw [decide_eq_false hcb]
      rfl

/-- Block allocation and release, for any disk size below `2 ^ 30` and any bitmap. That the bitmap
changes in one bit needs its own blocks to be in use. -/
theorem balloc_bfree_bits (sb : Super) (d : Blocks) (hsize : sb.size.toNat < 2 ^ 30) :
    ((∀ c, c < sb.size → bit sb d c = true) →
        balloc sb d = .error (.panic "balloc: out of blocks")) ∧
      ((∃ c, c < sb.size ∧ bit sb d c = false) →
        ∃ b d', balloc sb d = .ok (b, d') ∧ Takes sb d b d' ∧ (Marked sb d → Sets sb d b d')) ∧
      ∀ b, bit sb d b = true →
        ∃ d', bfree sb d b = .ok d' ∧ (∀ c, bit sb d' c = (!decide (c = b) && bit sb d c)) ∧
          ∀ n, n ≠ bblock sb b → d' n = d n := by
  have hcases := balloc_cases sb d hsize
  refine ⟨fun hfull => ?_, fun ⟨c, hc, hclear⟩ => ?_, fun b hb => ?_⟩
  · generalize balloc sb d = r at hcases
    cases hcases with
    | full => rfl
    | found b hb hfree =>
      rw [hfull b hb] at hfree
      cases hfree
  · generalize balloc sb d = r at hcases
    cases hcases with
    | full hfull =>
      rw [hfull c hc] at hclear
      cases hclear
    | found b hb hfree hfirst =>
      exact ⟨b, _, rfl, takes_of_found hb hfree hfirst, fun hm =>
        sets_of_not_isMap hb hfree (hm.not_isMap hb hfree)⟩
  · refine ⟨clearBit sb d b, ?_, fun c => bit_clearBit, fun n hn => ?_⟩
    · rw [bfree_eq, if_pos hb]
    · exact update_of_ne hn ..

/-- A bitmap in block 2 that has only the blocks before it in use. -/
def sample : Super := ⟨100#32, 2#32⟩

/-- The disk of `sample`. -/
def sampleBlocks : Blocks := fun n => if n = 2#32 then fun k => if k = 0 then 3#8 else 0#8 else
  fun _ => 0#8

/-- `balloc` returns the bitmap's own block, zeroes it, and the blocks in use are free. -/
theorem balloc_erases_bitmap :
    ∃ d', balloc sample sampleBlocks = .ok (2#32, d') ∧
      bit sample sampleBlocks 0#32 = true ∧ bit sample d' 0#32 = false ∧
      bit sample d' 2#32 = false ∧
      bfree sample d' 2#32 = .error (.panic "freeing free block") := by
  have hcases := balloc_cases sample sampleBlocks (by decide)
  have hbits : bit sample sampleBlocks 0#32 = true ∧ bit sample sampleBlocks 1#32 = true ∧
      bit sample sampleBlocks 2#32 = false := by decide
  generalize balloc sample sampleBlocks = r at hcases
  cases hcases with
  | full hfull =>
    rw [hfull 2#32 (by decide)] at hbits
    cases hbits.2.2
  | found b hb hfree hfirst =>
    have hb2 : b = 2#32 := by
      have h0 : b ≠ 0#32 := fun h => by rw [h, hbits.1] at hfree; cases hfree
      have h1 : b ≠ 1#32 := fun h => by rw [h, hbits.2.1] at hfree; cases hfree
      have h2 : ¬ 2#32 < b := fun h => by rw [hfirst _ h] at hbits; cases hbits.2.2
      bv_omega
    subst hb2
    have hclear : bit sample (bzero (setBit sample sampleBlocks 2#32) 2#32) 2#32 = false := by
      decide
    exact ⟨_, rfl, hbits.1, by decide, hclear, by rw [bfree_eq, hclear]; rfl⟩

/-- The same disk with the block of the bitmap in use. -/
theorem balloc_bfree_bits_at :
    (∃ c, c < sample.size ∧ bit sample (setBit sample sampleBlocks 2#32) c = false) ∧
      ∃ b d', balloc sample (setBit sample sampleBlocks 2#32) = .ok (b, d') ∧
        Takes sample (setBit sample sampleBlocks 2#32) b d' ∧
        Sets sample (setBit sample sampleBlocks 2#32) b d' := by
  have hclear : ∃ c, c < sample.size ∧ bit sample (setBit sample sampleBlocks 2#32) c = false :=
    ⟨3#32, by decide, by decide⟩
  have hm : Marked sample (setBit sample sampleBlocks 2#32) := by
    rintro n ⟨c, hc, rfl⟩ -
    have hzero : c / bpb = 0#32 := BitVec.eq_of_toNat_eq <| by
      have hlt : c.toNat < 100 := hc
      show c.toNat / 4096 = 0
      omega
    unfold bblock
    rw [hzero]
    decide
  obtain ⟨b, d', hok, htakes, hsets⟩ :=
    (balloc_bfree_bits sample (setBit sample sampleBlocks 2#32) (by decide)).2.1 hclear
  exact ⟨hclear, b, d', hok, htakes, hsets hm⟩

/-! ## The bits as a set of blocks -/

/-- The volume that the disk stands for: a bit for each block, and the blocks outside the bitmap. -/
structure Shows (sb : Super) (d : Blocks) (v : Vol) : Prop where
  bit : ∀ b, b < sb.size → v.bit b.toNat = bit sb d b
  data : ∀ b, b < sb.size → ¬ IsMap sb b → v.data b.toNat = d b

theorem toNat_update {α : Type} (f : Nat → α) (x : α) :
    update f b.toNat x c.toNat = if c = b then x else f c.toNat := by
  by_cases h : c = b
  · rw [h, update_self, if_pos rfl]
  · rw [update_of_ne (fun he => h (BitVec.eq_of_toNat_eq he)), if_neg h]

/-- **`balloc` refines the allocator of one bit a block.** -/
theorem Shows.balloc {S : Superblock} {v : Vol} (h : Shows sb d v) (hm : Marked sb d)
    (hS : S.size = sb.size.toNat) (hsize : sb.size.toNat < 2 ^ 30) :
    match Bitmap.balloc sb d with
    | .error e => Fs.balloc S v = .error e
    | .ok (b, d') => ∃ v', Fs.balloc S v = .ok (b.toNat, v') ∧ Shows sb d' v' ∧ Marked sb d' := by
  have hcases := balloc_cases sb d hsize
  generalize Bitmap.balloc sb d = r at hcases
  cases hcases with
  | full hfull =>
    have hnone : (List.range S.size).find? (fun b => !v.bit b) = none := by
      rw [List.find?_eq_none]
      intro n hn
      have hn : n < sb.size.toNat := hS ▸ List.mem_range.mp hn
      have hlt : BitVec.ofNat 32 n < sb.size := by
        rw [BitVec.lt_def]
        simp only [BitVec.toNat_ofNat]
        omega
      have hbit := h.bit _ hlt
      rw [hfull _ hlt, BitVec.toNat_ofNat, Nat.mod_eq_of_lt (by omega)] at hbit
      simp [hbit]
    unfold Fs.balloc
    rw [hnone]
  | found b hb hfree hfirst =>
    have hmap := hm.not_isMap hb hfree
    have hfirst' : Fs.balloc S v = .ok (b.toNat, ⟨update v.bit b.toNat true,
        update v.data b.toNat fun _ => 0#8⟩) := by
      refine balloc_of_first (by rw [hS]; exact hb) (by rw [h.bit b hb, hfree]) fun n hn => ?_
      have hlt : BitVec.ofNat 32 n < b := by
        rw [BitVec.lt_def, BitVec.toNat_ofNat, Nat.mod_eq_of_lt (by omega)]
        exact hn
      have hbit := h.bit (BitVec.ofNat 32 n) (BitVec.lt_trans hlt hb)
      rwa [hfirst _ hlt, BitVec.toNat_ofNat, Nat.mod_eq_of_lt (by omega)] at hbit
    refine ⟨_, hfirst', ⟨fun c hc => ?_, fun c hc hcm => ?_⟩, ?_⟩
    · rw [bit_bzero_setBit hmap (isMap_bblock hc), ← h.bit c hc]
      dsimp only
      rw [toNat_update]
      by_cases hcb : c = b
      · rw [if_pos hcb, decide_eq_true hcb, Bool.true_or]
      · rw [if_neg hcb, decide_eq_false hcb, Bool.false_or]
    · dsimp only
      rw [toNat_update]
      unfold bzero
      by_cases hcb : c = b
      · rw [if_pos hcb, hcb, update_self]
      · rw [if_neg hcb, update_of_ne hcb, h.data c hc hcm]
        exact (update_of_ne (fun he => hcm (by rw [he]; exact isMap_bblock hb)) ..).symm
    · intro n hn hlt
      rw [bit_bzero_setBit hmap (isMap_bblock hlt), hm n hn hlt, Bool.or_true]

/-- **`bfree` refines the allocator of one bit a block**, for blocks outside the bitmap. -/
theorem Shows.bfree {v : Vol} (h : Shows sb d v) (hm : Marked sb d) (hb : b < sb.size)
    (hmap : ¬ IsMap sb b) :
    match Bitmap.bfree sb d b with
    | .error e => Fs.bfree v b.toNat = .error e
    | .ok d' => ∃ v', Fs.bfree v b.toNat = .ok v' ∧ Shows sb d' v' ∧ Marked sb d' := by
  rw [bfree_eq]
  unfold Fs.bfree
  rw [h.bit b hb]
  by_cases hbit : Bitmap.bit sb d b = true
  · rw [if_pos hbit, if_pos hbit]
    refine ⟨_, rfl, ⟨fun c hc => ?_, fun c hc hcm => ?_⟩, fun n hn hlt => ?_⟩
    · dsimp only
      rw [toNat_update, bit_clearBit, ← h.bit c hc]
      by_cases hcb : c = b
      · rw [if_pos hcb, decide_eq_true hcb]
        rfl
      · rw [if_neg hcb, decide_eq_false hcb]
        rfl
    · rw [h.data c hc hcm]
      exact (update_of_ne (fun he => hcm (by rw [he]; exact isMap_bblock hb)) ..).symm
    · rw [bit_clearBit, hm n hn hlt, decide_eq_false (fun he => hmap (by rwa [he] at hn))]
      rfl
  · rw [if_neg hbit, if_neg hbit]

end Disk

end Xv6Mmap.Fs.Bitmap
