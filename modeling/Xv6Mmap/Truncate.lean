import Xv6Mmap.Bitmap

/-!
# `itrunc` on the blocks of the disk (`fs.c:80-95, 216-236, 402-435`)

`Fs.itrunc` frees blocks in a bitmap of its own. Here the bitmap, the inodes and the indirect block
are bytes of the disk, as in `Bitmap`: `bfree` reads and writes the block of a bit while `itrunc` has
the buffer of the indirect block locked, and `iupdate` copies the inode into its block.

* `Freed`: what freeing a list of blocks does to the disk, one `bfree` after another.
* **`itrunc_frees`**: `itrunc` frees exactly the blocks of the inode and clears its pointers, if the
  indirect block is not a block of the bitmap. If it is, `bfree` may wait for a buffer that its own
  process has locked (`itrunc_waits_for_itself`).
-/

namespace Xv6Mmap.Fs.Bitmap

open Function (update update_self update_of_ne)

/-- The superblock with the place of the inodes, which are not in the blocks of the bitmap. -/
structure Layout extends Super where
  inodestart : Word
  ninodes : Word
  apart : ∀ j, j < ninodes → ¬ IsMap toSuper (j / 8#32 + inodestart)

/-- `struct inode`. -/
structure Inode where
  inum : Word
  type : BitVec 16
  major : BitVec 16
  minor : BitVec 16
  nlink : BitVec 16
  size : Word
  addrs : Nat → Word

/-- `IBLOCK(i, sb)`. -/
def iblock (sb : Layout) (i : Word) : Word := i / 8#32 + sb.inodestart

/-- Byte `k` of the `struct dinode` that `iupdate` makes. -/
def Inode.byte (ip : Inode) (k : Nat) : Byte :=
  if k < 8 then
    let short := if k < 2 then ip.type else if k < 4 then ip.major else if k < 6 then ip.minor
      else ip.nlink
    BitVec.ofNat 8 (short.toNat / 256 ^ (k % 2))
  else
    let word := if k < 12 then ip.size else ip.addrs ((k - 12) / 4)
    BitVec.ofNat 8 (word.toNat / 256 ^ (k % 4))

/-- `iupdate(ip)`. -/
def iupdate (sb : Layout) (d : Blocks) (ip : Inode) : Blocks :=
  let n := iblock sb ip.inum
  let dip := 64 * (ip.inum.toNat % 8)
  update d n fun k => if dip ≤ k ∧ k < dip + 64 then ip.byte (k - dip) else d n k

/-- `if(b) bfree(dev, b)` for the pointers of a list, while the buffer of block `held` is locked. -/
def bfreeEach (sb : Layout) (held : Option Word) : List Word → Blocks → Except Halt Blocks
  | [], d => .ok d
  | b :: bs, d => do
    let d ←
      if b = 0#32 then .ok d
      else if held = some (bblock sb.toSuper b) then .error .deadlock
      else bfree sb.toSuper d b
    bfreeEach sb held bs d

/-- The block as an array of `uint`s. -/
def entries (x : Sector) : List Word :=
  (List.range nindirect).map fun j => BitVec.ofNat 32 (wordAt x j)

/-- `itrunc` of the indirect block `a` and the blocks in it. -/
def bfreeIndirect (sb : Layout) (a : Word) (d : Blocks) : Except Halt Blocks :=
  if a = 0#32 then .ok d
  else do
    let d ← bfreeEach sb (some a) (entries (d a)) d
    bfree sb.toSuper d a

/-- `itrunc(ip)`. -/
def itrunc (sb : Layout) (d : Blocks) (ip : Inode) : Except Halt (Blocks × Inode) := do
  let d ← bfreeEach sb none ((List.range ndirect).map ip.addrs) d
  let d ← bfreeIndirect sb (ip.addrs ndirect) d
  let ip := { ip with addrs := fun _ => 0#32, size := 0#32 }
  return (iupdate sb d ip, ip)

/-- The pointers of a list that are not null. -/
def nonzero (bs : List Word) : List Word := bs.filter fun b => decide (b ≠ 0#32)

/-- The blocks in the indirect block `x` at `a`, and that block. -/
def indirectOf (x : Sector) (a : Word) : List Word :=
  if a = 0#32 then [] else nonzero (entries x) ++ [a]

/-- The blocks of the inode. -/
def blocksOf (d : Blocks) (ip : Inode) : List Word :=
  nonzero ((List.range ndirect).map ip.addrs) ++ indirectOf (d (ip.addrs ndirect)) (ip.addrs ndirect)

/-! ## Freeing a list of blocks -/

variable {sb : Layout} {d d₁ d₂ : Blocks} {ip : Inode}

/-- The bits of the blocks `bs` are cleared, and only the blocks they are in have changed. -/
structure Freed (sb : Layout) (d d' : Blocks) (bs : List Word) : Prop where
  bits : ∀ c, bit sb.toSuper d' c = (decide (c ∉ bs) && bit sb.toSuper d c)
  rest : ∀ n, (∀ b ∈ bs, bblock sb.toSuper b ≠ n) → d' n = d n

theorem Freed.nil : Freed sb d d [] := ⟨fun c => by simp, fun _ _ => rfl⟩

theorem Freed.trans {bs cs : List Word} (h1 : Freed sb d d₁ bs) (h2 : Freed sb d₁ d₂ cs) :
    Freed sb d d₂ (bs ++ cs) where
  bits c := by
    rw [h2.bits, h1.bits, ← Bool.and_assoc, ← Bool.decide_and]
    congr 1
    exact decide_eq_decide.mpr (by rw [List.mem_append, not_or, and_comm])
  rest n hn := (h2.rest n fun b hb => hn b (List.mem_append_right _ hb)).trans
    (h1.rest n fun b hb => hn b (List.mem_append_left _ hb))

theorem bfree_freed {b : Word} (hb : bit sb.toSuper d b = true) :
    ∃ d', bfree sb.toSuper d b = .ok d' ∧ Freed sb d d' [b] := by
  refine ⟨clearBit sb.toSuper d b, by rw [bfree_eq, if_pos hb], fun c => ?_, fun n hn => ?_⟩
  · rw [bit_clearBit]
    simp
  · exact update_of_ne (hn b (List.mem_singleton_self b)).symm ..

/-- A list of distinct blocks in use is freed, unless a bit is in the block that is locked. -/
theorem bfreeEach_freed (sb : Layout) (held : Option Word) (bs : List Word) : ∀ {d : Blocks},
    (nonzero bs).Nodup → (∀ b ∈ nonzero bs, bit sb.toSuper d b = true) →
    (∀ b ∈ nonzero bs, held ≠ some (bblock sb.toSuper b)) →
    ∃ d', bfreeEach sb held bs d = .ok d' ∧ Freed sb d d' (nonzero bs) := by
  induction bs with
  | nil => exact fun _ _ _ => ⟨_, rfl, .nil⟩
  | cons b bs ih =>
    intro d hnd hbit hheld
    by_cases hb : b = 0#32
    · have hskip : nonzero (b :: bs) = nonzero bs := by simp [nonzero, hb]
      rw [hskip] at hnd hbit hheld ⊢
      obtain ⟨d', hd', hfreed⟩ := ih hnd hbit hheld
      refine ⟨d', ?_, hfreed⟩
      rw [bfreeEach, if_pos hb]
      exact hd'
    · have hcons : nonzero (b :: bs) = [b] ++ nonzero bs := by simp [nonzero, hb]
      rw [hcons] at hnd hbit hheld ⊢
      obtain ⟨d₁, hd1, hfreed1⟩ := bfree_freed (hbit b List.mem_cons_self)
      obtain ⟨d', hd', hfreed⟩ := ih (d := d₁) (List.nodup_cons.mp hnd).2
        (fun c hc => by
          have hne : c ∉ [b] := fun h =>
            (List.nodup_cons.mp hnd).1 (List.mem_singleton.mp h ▸ hc)
          rw [hfreed1.bits, decide_eq_true hne, Bool.true_and]
          exact hbit c (List.mem_cons_of_mem _ hc))
        (fun c hc => hheld c (List.mem_cons_of_mem _ hc))
      refine ⟨d', ?_, hfreed1.trans hfreed⟩
      rw [bfreeEach, if_neg hb, if_neg (hheld b List.mem_cons_self), hd1]
      exact hd'

theorem Freed.used {bs cs : List Word} (h : Freed sb d d₁ bs) (hnd : (bs ++ cs).Nodup) {c : Word}
    (hc : c ∈ cs) (hbit : bit sb.toSuper d c = true) : bit sb.toSuper d₁ c = true := by
  have hne : c ∉ bs := fun hmem => (List.nodup_append.mp hnd).2.2 c hmem c hc rfl
  rw [h.bits, decide_eq_true hne, hbit]
  rfl

theorem bfreeIndirect_freed (sb : Layout) {a : Word} (hnd : (indirectOf (d a) a).Nodup)
    (hbit : ∀ b ∈ indirectOf (d a) a, bit sb.toSuper d b = true)
    (hin : a ≠ 0#32 → ∀ b ∈ indirectOf (d a) a, bblock sb.toSuper b ≠ a) :
    ∃ d', bfreeIndirect sb a d = .ok d' ∧ Freed sb d d' (indirectOf (d a) a) := by
  unfold indirectOf at hnd hbit hin ⊢
  unfold bfreeIndirect
  split
  case isTrue => exact ⟨d, rfl, .nil⟩
  case isFalse ha =>
    replace hin := hin ha
    rw [if_neg ha] at hnd hbit hin
    obtain ⟨d₁, hd1, hfreed1⟩ := bfreeEach_freed sb (some a) _ (List.nodup_append.mp hnd).1
      (fun b hb => hbit b (List.mem_append_left _ hb))
      (fun b hb he => hin b (List.mem_append_left _ hb) (Option.some.inj he).symm)
    have hself := List.mem_singleton_self a
    obtain ⟨d₂, hd2, hfreed2⟩ := bfree_freed
      (hfreed1.used hnd hself (hbit a (List.mem_append_right _ hself)))
    refine ⟨d₂, ?_, hfreed1.trans hfreed2⟩
    rw [hd1]
    exact hd2

/-- The blocks of the inode are freed before it is written. -/
theorem itrunc_freed (hnd : (blocksOf d ip).Nodup)
    (hused : ∀ b ∈ blocksOf d ip, b < sb.size ∧ bit sb.toSuper d b = true)
    (hmap : ip.addrs ndirect ≠ 0#32 → ¬ IsMap sb.toSuper (ip.addrs ndirect)) :
    ∃ d', Freed sb d d' (blocksOf d ip) ∧
      itrunc sb d ip = .ok (iupdate sb d' { ip with addrs := fun _ => 0#32, size := 0#32 },
        { ip with addrs := fun _ => 0#32, size := 0#32 }) := by
  -- no bit of a block lies in the indirect block, so that it is as it was, and can be read
  have hin : ip.addrs ndirect ≠ 0#32 → ∀ b ∈ blocksOf d ip,
      bblock sb.toSuper b ≠ ip.addrs ndirect := fun ha b hb he => hmap ha ⟨b, (hused b hb).1, he⟩
  unfold blocksOf at hnd hused hin ⊢
  obtain ⟨d₁, hd1, hfreed1⟩ := bfreeEach_freed sb none _ (List.nodup_append.mp hnd).1
    (fun b hb => (hused b (List.mem_append_left _ hb)).2) (fun _ _ => nofun)
  have hsame : indirectOf (d₁ (ip.addrs ndirect)) (ip.addrs ndirect)
      = indirectOf (d (ip.addrs ndirect)) (ip.addrs ndirect) := by
    by_cases ha : ip.addrs ndirect = 0#32
    · rw [indirectOf, indirectOf, if_pos ha, if_pos ha]
    · rw [hfreed1.rest _ fun b hb => hin ha b (List.mem_append_left _ hb)]
  obtain ⟨d₂, hd2, hfreed2⟩ := bfreeIndirect_freed sb (d := d₁) (a := ip.addrs ndirect)
    (by rw [hsame]; exact (List.nodup_append.mp hnd).2.1)
    (fun b hb => by
      rw [hsame] at hb
      exact hfreed1.used hnd hb (hused b (List.mem_append_right _ hb)).2)
    (fun ha b hb => by
      rw [hsame] at hb
      exact hin ha b (List.mem_append_right _ hb))
  rw [hsame] at hfreed2
  refine ⟨d₂, hfreed1.trans hfreed2, ?_⟩
  unfold itrunc
  rw [hd1]
  show (bfreeIndirect sb (ip.addrs ndirect) d₁ >>= _) = _
  rw [hd2]
  rfl

/-! ## The inode on the disk -/

theorem Layout.bblock_ne (sb : Layout) {b j : Word} (hb : b < sb.size) (hj : j < sb.ninodes) :
    bblock sb.toSuper b ≠ iblock sb j :=
  fun he => sb.apart j hj ⟨b, hb, he⟩

theorem iupdate_other (ip : Inode) {j : Word} (hj : j ≠ ip.inum) (d : Blocks) {k : Nat}
    (hk : k < 64) :
    iupdate sb d ip (iblock sb j) (64 * (j.toNat % 8) + k)
      = d (iblock sb j) (64 * (j.toNat % 8) + k) := by
  unfold iupdate
  by_cases hn : iblock sb j = iblock sb ip.inum
  · have hdiv := congrArg BitVec.toNat (add_right_cancel hn)
    rw [BitVec.toNat_udiv, BitVec.toNat_udiv] at hdiv
    have hne : j.toNat ≠ ip.inum.toNat := fun he => hj (BitVec.eq_of_toNat_eq he)
    change j.toNat / 8 = ip.inum.toNat / 8 at hdiv
    simp only [hn, update_self]
    exact if_neg (by omega)
  · exact congrFun (update_of_ne hn ..) _

theorem wordAt_iupdate (d : Blocks) (hsize : ip.size = 0#32) (haddrs : ∀ i, ip.addrs i = 0#32)
    {w : Nat} (hw : 2 ≤ w) (hlt : w < 16) :
    wordAt (iupdate sb d ip (iblock sb ip.inum)) (16 * (ip.inum.toNat % 8) + w) = 0 := by
  have hbyte : ∀ t < 4, iupdate sb d ip (iblock sb ip.inum)
      (4 * (16 * (ip.inum.toNat % 8) + w) + t) = 0#8 := by
    intro t ht
    simp only [iupdate, update_self]
    rw [if_pos (by omega), Inode.byte, if_neg (by omega)]
    simp [hsize, haddrs]
  have h0 := hbyte 0 (by omega)
  rw [Nat.add_zero] at h0
  rw [wordAt, h0, hbyte 1 (by omega), hbyte 2 (by omega), hbyte 3 (by omega)]
  rfl

/-- **`itrunc` releases exactly the blocks of the inode**, if they are distinct blocks in use and the
indirect block is not a block of the bitmap: no other bit and no other inode changes, and size and
pointers are zero in memory and on the disk. -/
theorem itrunc_frees (sb : Layout) (d : Blocks) (ip : Inode) (hino : ip.inum < sb.ninodes)
    (hnd : (blocksOf d ip).Nodup)
    (hused : ∀ b ∈ blocksOf d ip, b < sb.size ∧ bit sb.toSuper d b = true)
    (hmap : ip.addrs ndirect ≠ 0#32 → ¬ IsMap sb.toSuper (ip.addrs ndirect)) :
    ∃ d' ip', itrunc sb d ip = .ok (d', ip') ∧
      (∀ b, b < sb.size →
        bit sb.toSuper d' b = (decide (b ∉ blocksOf d ip) && bit sb.toSuper d b)) ∧
      (∀ j, j < sb.ninodes → j ≠ ip.inum → ∀ k < 64,
        d' (iblock sb j) (64 * (j.toNat % 8) + k) = d (iblock sb j) (64 * (j.toNat % 8) + k)) ∧
      (ip'.size = 0#32 ∧ ∀ i ≤ ndirect, ip'.addrs i = 0#32) ∧
      wordAt (d' (iblock sb ip.inum)) (16 * (ip.inum.toNat % 8) + 2) = 0 ∧
      ∀ i ≤ ndirect, wordAt (d' (iblock sb ip.inum)) (16 * (ip.inum.toNat % 8) + (3 + i)) = 0 := by
  obtain ⟨d₁, hfreed, hok⟩ := itrunc_freed hnd hused hmap
  have hwords : ∀ {w}, 2 ≤ w → w < 16 → _ := @wordAt_iupdate sb
    { ip with addrs := fun _ => 0#32, size := 0#32 } d₁ rfl fun _ => rfl
  refine ⟨_, _, hok, fun b hb => ?_, fun j hj hne k hk => ?_, ⟨rfl, fun _ _ => rfl⟩,
    hwords (by decide) (by decide), fun i hi => hwords (by omega) (by unfold ndirect at hi; omega)⟩
  · rw [← hfreed.bits]
    exact congrArg (fun x : Sector => (x (b.toNat % 4096 / 8)).getLsbD (b.toNat % 8))
      (update_of_ne (sb.bblock_ne hb hino) ..)
  · rw [iupdate_other { ip with addrs := fun _ => 0#32, size := 0#32 } hne d₁ hk]
    exact congrFun (hfreed.rest _ fun b hb => sb.bblock_ne (hused b hb).1 hj) _

/-- A disk of 8192 blocks: the inodes are in block 1 and the bitmap in the blocks 3 and 4. -/
def smallLayout : Layout where
  size := 8192#32
  bmapstart := 3#32
  inodestart := 1#32
  ninodes := 8#32
  apart := by
    rintro j hj ⟨c, -, he⟩
    have hj : j.toNat < 8 := hj
    have hnat : (c.toNat / 4096 + 3) % 2 ^ 32 = (j.toNat / 8 + 1) % 2 ^ 32 :=
      congrArg BitVec.toNat he
    omega

/-- The inode 1 with the indirect block `a` only. -/
def indirectInode (a : Word) : Inode :=
  ⟨1#32, 2#16, 0#16, 0#16, 1#16, 0#32, fun i => if i = ndirect then a else 0#32⟩

/-- Every bit of the first bitmap block is set, and every other block has one entry, 4108. -/
def oneEntry : Blocks := fun n k =>
  if n = 3#32 then 0xFF#8 else if k = 0 then 0x0C#8 else if k = 1 then 0x10#8 else 0#8

theorem itrunc_frees_indirect :
    ∃ d' ip', itrunc smallLayout oneEntry (indirectInode 100#32) = .ok (d', ip') ∧
      bit smallLayout.toSuper d' 4108#32 = false ∧ bit smallLayout.toSuper d' 101#32 = true := by
  have hblocks : blocksOf oneEntry (indirectInode 100#32) = [4108#32, 100#32] := by decide +kernel
  have hused : ∀ b ∈ [4108#32, 100#32],
      b < smallLayout.size ∧ bit smallLayout.toSuper oneEntry b = true :=
    List.forall_mem_cons.mpr ⟨by decide, List.forall_mem_singleton.mpr (by decide)⟩
  have hmap : ¬ IsMap smallLayout.toSuper ((indirectInode 100#32).addrs ndirect) := by
    rintro ⟨c, hc, he⟩
    have hc : c.toNat < 8192 := hc
    have hnat : (c.toNat / 4096 + 3) % 2 ^ 32 = 100 := congrArg BitVec.toNat he
    omega
  obtain ⟨d', ip', hok, hbit, -⟩ := itrunc_frees smallLayout oneEntry (indirectInode 100#32)
    (by decide) (by rw [hblocks]; decide) (by rwa [hblocks]) fun _ => hmap
  rw [hblocks] at hbit
  refine ⟨d', ip', hok, ?_, ?_⟩
  · rw [hbit _ (by decide)]
    decide
  · rw [hbit _ (by decide)]
    decide

/-- The indirect block is block 4 of the bitmap, and the bit of its entry is in it: `itrunc` has the
buffer of block 4 locked when `bfree` asks for it. -/
theorem itrunc_waits_for_itself :
    blocksOf oneEntry (indirectInode 4#32) = [4108#32, 4#32] ∧
      bit smallLayout.toSuper oneEntry 4108#32 = true ∧
      bit smallLayout.toSuper oneEntry 4#32 = true ∧
      itrunc smallLayout oneEntry (indirectInode 4#32) = .error .deadlock :=
  ⟨by decide +kernel, by decide, by decide, rfl⟩

end Xv6Mmap.Fs.Bitmap
