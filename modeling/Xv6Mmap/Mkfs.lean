import Xv6Mmap.FsContent
import Xv6Mmap.Log
import Xv6Mmap.SysFile

/-!
# Building an image (`mkfs.c`)

`mkfs` writes an image block by block, with code of its own for everything the kernel has in `fs.c`.
An image is the bytes of its blocks, also those of the inodes, the superblock and the bitmap. An
inode on disk is sixteen words, the first two of which hold its four short fields; `xint` and
`xshort` make them little-endian, as the kernel reads them.

Blocks are given out in order, so what `mkfs` does to the blocks of a file is what `bmap` does on a
volume whose first `freeblock` blocks are in use: `block_eq_bmap` says so, and from it the loop of
`iappend` is a write in the sense of `Written`. The inodes, in their blocks, are not touched by it
(`iappendLoop_written`).
-/

namespace Xv6Mmap.Fs

open Function (update update_self update_of_ne update_apply)

/-! ## The format -/

/-- `NINODES`. -/
def ninodes : Nat := 200
/-- `FSSIZE`. -/
def fssize : Nat := 1000
/-- `IPB`. -/
def ipb : Nat := 8
/-- `ninodeblocks`. -/
def ninodeblocks : Nat := ninodes / ipb + 1
/-- `nbitmap`. -/
def nbitmap : Nat := fssize / (bsize * 8) + 1
/-- `sb.inodestart`. -/
def inodestart : Nat := 2 + logsize
/-- `sb.bmapstart`. -/
def bmapstart : Nat := 2 + logsize + ninodeblocks
/-- `nmeta`. -/
def nmeta : Nat := 2 + logsize + ninodeblocks + nbitmap

/-- The superblock that `mkfs` fills in. -/
def mkfsSb : Superblock := ⟨fssize, fssize - nmeta, ninodes, by decide, by decide⟩

abbrev Image := Nat → Sector

def typeCode : Option FileType → Nat
  | none => 0
  | some .dir => 1
  | some .file => 2
  | some .dev => 3

def codeType : Nat → Option FileType
  | 1 => some .dir
  | 2 => some .file
  | 3 => some .dev
  | _ => none

/-- The words of a `struct dinode`. -/
def Dinode.word (d : Dinode) : Nat → Nat
  | 0 => typeCode d.type + 65536 * d.major.toNat
  | 1 => d.minor.toNat + 65536 * (d.nlink % 65536).toNat
  | 2 => d.size
  | k + 3 => d.addrs k

/-- `*dip = *ip`, for entry `j` of an inode block. -/
def putDinode (x : Sector) (j : Nat) (d : Dinode) : Sector := fun k =>
  if k / 64 = j then BitVec.ofNat 8 (d.word (k / 4 % 16) / 256 ^ (k % 4)) else x k

/-- `*ip = *dip`. -/
def getDinode (x : Sector) (j : Nat) : Dinode where
  type := codeType (wordAt x (16 * j) % 65536)
  major := BitVec.ofNat 16 (wordAt x (16 * j) / 65536)
  minor := BitVec.ofNat 16 (wordAt x (16 * j + 1) % 65536)
  nlink := (BitVec.ofNat 16 (wordAt x (16 * j + 1) / 65536)).toInt
  size := wordAt x (16 * j + 2)
  addrs k := if k ≤ ndirect then wordAt x (16 * j + 3 + k) else 0

/-- The inodes of an image whose inode blocks begin at `start`: inode `i` is in block `IBLOCK(i)`. -/
def inodes (start n : Nat) (img : Image) (i : Nat) : Dinode :=
  if i < n then getDinode (img (i / ipb + start)) (i % ipb) else .zero

/-! ## The program -/

structure Mkfs where
  img : Image
  freeinode : Nat
  freeblock : Nat

/-- `rinode(inum, ip)`. -/
def Mkfs.rinode (s : Mkfs) (inum : Nat) : Dinode :=
  getDinode (s.img (inum / ipb + inodestart)) (inum % ipb)

/-- `winode(inum, ip)`. -/
def Mkfs.winode (s : Mkfs) (inum : Nat) (d : Dinode) : Mkfs :=
  { s with
    img := update s.img (inum / ipb + inodestart)
      (putDinode (s.img (inum / ipb + inodestart)) (inum % ipb) d) }

/-- `ialloc(type)`. -/
def Mkfs.ialloc (s : Mkfs) (type : FileType) : Mkfs :=
  { s with freeinode := s.freeinode + 1 }.winode s.freeinode
    { Dinode.zero with type := some type, nlink := 1 }

/-- `iappend`, the block that `fbn` is in, which is given out if there is none. -/
def Mkfs.block (s : Mkfs) (din : Dinode) (fbn : Nat) : Nat × Mkfs × Dinode :=
  if fbn < ndirect then
    if din.addrs fbn = 0 then
      (s.freeblock, { s with freeblock := s.freeblock + 1 }, din.setAddr fbn s.freeblock)
    else (din.addrs fbn, s, din)
  else
    let (s, din) :=
      if din.addrs ndirect = 0 then
        ({ s with freeblock := s.freeblock + 1 }, din.setAddr ndirect s.freeblock)
      else (s, din)
    let indirect := s.img (din.addrs ndirect)
    if wordAt indirect (fbn - ndirect) = 0 then
      (s.freeblock, { s with
        freeblock := s.freeblock + 1
        img := update s.img (din.addrs ndirect)
          (setWord indirect (fbn - ndirect) s.freeblock) }, din)
    else (wordAt indirect (fbn - ndirect), s, din)

/-- The loop of `iappend`, with the bytes `p` to go at `off`. -/
def iappendLoop : Nat → Mkfs → Dinode → Nat → List Byte → Except Halt (Mkfs × Dinode × Nat)
  | 0, s, din, off, _ => .ok (s, din, off)
  | fuel + 1, s, din, off, p =>
    if p = [] then .ok (s, din, off)
    else
      let fbn := off / bsize
      if fbn < maxfile then
        let (x, s, din) := s.block din fbn
        let n1 := min p.length ((fbn + 1) * bsize - off)
        let buf := overwrite (s.img x) (off - fbn * bsize) (p.take n1)
        iappendLoop fuel { s with img := update s.img x buf } din (off + n1) (p.drop n1)
      else .error (.panic "fbn < MAXFILE")

/-- `iappend(inum, p, n)`. -/
def Mkfs.iappend (s : Mkfs) (inum : Nat) (p : List Byte) : Except Halt Mkfs :=
  let din := s.rinode inum
  match iappendLoop p.length s din din.size p with
  | .error e => .error e
  | .ok (s, din, off) => .ok (s.winode inum { din with size := off })

/-- An input file: its name on the command line, and what the calls of `read` return. -/
structure InputFile where
  arg : List Byte
  chunks : List (List Byte)

/-- The name in the image: a leading `_` is skipped. -/
def InputFile.name (f : InputFile) : List Byte :=
  if f.arg.head? = some 95#8 then f.arg.tail else f.arg

def InputFile.content (f : InputFile) : List Byte := f.chunks.flatten

/-- Append what is read, piece by piece. -/
def appendAll (inum : Nat) : List (List Byte) → Mkfs → Except Halt Mkfs
  | [], s => .ok s
  | c :: cs, s =>
    match s.iappend inum c with
    | .error e => .error e
    | .ok s => appendAll inum cs s

section AddFile

local instance byteLawfulBEq : LawfulBEq Byte := inferInstance

/-- The body of the loop over the files. -/
def Mkfs.addFile (s : Mkfs) (f : InputFile) : Except Halt Mkfs :=
  if slash ∈ f.arg then .error (.panic "index(argv[i], '/') == 0")
  else
    let inum := s.freeinode
    match (s.ialloc .file).iappend rootino (dirent inum f.name) with
    | .error e => .error e
    | .ok s => appendAll inum f.chunks s

end AddFile

def addFiles : List InputFile → Mkfs → Except Halt Mkfs
  | [], s => .ok s
  | f :: fs, s =>
    match s.addFile f with
    | .error e => .error e
    | .ok s => addFiles fs s

/-- The words of `struct superblock`. -/
def sbWord : Nat → Nat
  | 0 => fssize
  | 1 => fssize - nmeta
  | 2 => ninodes
  | 3 => logsize
  | 4 => 2
  | 5 => inodestart
  | 6 => bmapstart
  | _ => 0

/-- The image with its superblock. -/
def Mkfs.init : Mkfs where
  img := update (fun _ _ => 0#8) 1 fun k => BitVec.ofNat 8 (sbWord (k / 4) / 256 ^ (k % 4))
  freeinode := 1
  freeblock := nmeta

/-- `main` up to the last file. -/
def build (files : List InputFile) : Except Halt Mkfs :=
  match (Mkfs.init.ialloc .dir).iappend rootino (dirent rootino dot) with
  | .error e => .error e
  | .ok s =>
    match s.iappend rootino (dirent rootino dotdot) with
    | .error e => .error e
    | .ok s => addFiles files s

/-- Fix the size of the root directory. -/
def Mkfs.fixRoot (s : Mkfs) : Mkfs :=
  let din := s.rinode rootino
  s.winode rootino { din with size := (din.size / bsize + 1) * bsize }

/-- The block that `balloc(used)` writes. -/
def bitmap (used : Nat) : Sector := fun k =>
  (List.range 8).foldl (fun x i =>
    if k * 8 + i < used then x ||| (1#8 <<< i) else x) 0#8

/-- `balloc(used)`. -/
def Mkfs.writeBitmap (s : Mkfs) : Except Halt Mkfs :=
  if s.freeblock < bsize * 8 then
    .ok { s with img := update s.img bmapstart (bitmap s.freeblock) }
  else .error (.panic "used < BSIZE*8")

/-- `main`. -/
def mkfs (files : List InputFile) : Except Halt Mkfs :=
  match build files with
  | .error e => .error e
  | .ok s => s.fixRoot.writeBitmap

/-! ## Inodes on disk -/

/-- The fields fit their types, and there are thirteen addresses. -/
structure Dinode.Stored (d : Dinode) : Prop where
  size : d.size < 2 ^ 32
  addrs : ∀ k, d.addrs k < 2 ^ 32
  rest : ∀ k, ndirect < k → d.addrs k = 0
  nlink : -32768 ≤ d.nlink ∧ d.nlink < 32768

theorem wordAt_lt (x : Sector) (j : Nat) : wordAt x j < 2 ^ 32 := by
  have h0 := (x (4 * j)).isLt
  have h1 := (x (4 * j + 1)).isLt
  have h2 := (x (4 * j + 2)).isLt
  have h3 := (x (4 * j + 3)).isLt
  unfold wordAt
  omega

theorem getDinode_stored (x : Sector) (j : Nat) : (getDinode x j).Stored where
  size := wordAt_lt _ _
  addrs k := by
    unfold getDinode
    dsimp only
    split
    · exact wordAt_lt _ _
    · decide
  rest k hk := if_neg (Nat.not_le.mpr hk)
  nlink := by
    have h := BitVec.toInt_lt (x := BitVec.ofNat 16 (wordAt x (16 * j + 1) / 65536))
    have h' := BitVec.le_toInt (x := BitVec.ofNat 16 (wordAt x (16 * j + 1) / 65536))
    simp only [Nat.add_one_sub_one, Int.reducePow, Int.reduceNeg] at h h'
    exact ⟨h', h⟩

theorem wordAt_putDinode (x : Sector) (j : Nat) (d : Dinode) {w : Nat} (hw : w < 16) :
    wordAt (putDinode x j d) (16 * j + w) = d.word w % 2 ^ 32 := by
  have h : ∀ r, r < 4 → (4 * (16 * j + w) + r) / 64 = j ∧ (4 * (16 * j + w) + r) / 4 % 16 = w ∧
      (4 * (16 * j + w) + r) % 4 = r := by omega
  have h0 := h 0 (by omega)
  rw [Nat.add_zero] at h0
  simp only [wordAt, putDinode, h0, h 1 (by omega), h 2 (by omega), h 3 (by omega), if_true,
    BitVec.toNat_ofNat]
  omega

theorem wordAt_putDinode_of_ne (x : Sector) {j j' : Nat} (d : Dinode) (hj : j' ≠ j) {w : Nat}
    (hw : w < 16) : wordAt (putDinode x j d) (16 * j' + w) = wordAt x (16 * j' + w) := by
  have h : ∀ r, r < 4 → (4 * (16 * j' + w) + r) / 64 ≠ j := by omega
  have h0 := h 0 (by omega)
  rw [Nat.add_zero] at h0
  simp only [wordAt, putDinode, h0, h 1 (by omega), h 2 (by omega), h 3 (by omega), if_false]

theorem codeType_typeCode (t : Option FileType) : codeType (typeCode t) = t := by
  cases t with
  | none => rfl
  | some t => cases t <;> rfl

theorem typeCode_lt (t : Option FileType) : typeCode t < 65536 := by
  cases t with
  | none => decide
  | some t => cases t <;> decide

theorem getDinode_putDinode (x : Sector) (j : Nat) {d : Dinode} (hd : d.Stored) :
    getDinode (putDinode x j d) j = d := by
  have ht := typeCode_lt d.type
  have hmajor := d.major.isLt
  have hminor := d.minor.isLt
  have h0 : wordAt (putDinode x j d) (16 * j) = typeCode d.type + 65536 * d.major.toNat := by
    have := wordAt_putDinode x j d (w := 0) (by decide)
    rw [Nat.add_zero] at this
    rw [this, Dinode.word]
    omega
  have h1 : wordAt (putDinode x j d) (16 * j + 1)
      = d.minor.toNat + 65536 * (d.nlink % 65536).toNat := by
    rw [wordAt_putDinode x j d (by decide), Dinode.word]
    omega
  have h2 : wordAt (putDinode x j d) (16 * j + 2) = d.size := by
    rw [wordAt_putDinode x j d (by decide), Dinode.word]
    exact Nat.mod_eq_of_lt hd.size
  have h3 : ∀ k, k ≤ ndirect → wordAt (putDinode x j d) (16 * j + 3 + k) = d.addrs k := by
    intro k hk
    have hk' : 3 + k < 16 := by
      unfold ndirect at hk
      omega
    rw [Nat.add_assoc, wordAt_putDinode x j d hk', Nat.add_comm 3 k, Dinode.word]
    exact Nat.mod_eq_of_lt (hd.addrs k)
  obtain ⟨type, major, minor, nlink, size, addrs⟩ := d
  unfold getDinode
  rw [h0, h1, h2]
  congr 1
  · rw [Nat.add_mul_mod_self_left, Nat.mod_eq_of_lt ht]
    exact codeType_typeCode type
  · rw [Nat.add_mul_div_left _ _ (by decide), Nat.div_eq_of_lt ht, Nat.zero_add,
      BitVec.ofNat_toNat, BitVec.setWidth_eq]
  · rw [Nat.add_mul_mod_self_left, Nat.mod_eq_of_lt hminor, BitVec.ofNat_toNat, BitVec.setWidth_eq]
  · rw [Nat.add_mul_div_left _ _ (by decide), Nat.div_eq_of_lt hminor, Nat.zero_add]
    have := hd.nlink
    rw [BitVec.toInt_eq_toNat_cond, BitVec.toNat_ofNat]
    dsimp only at this ⊢
    split <;> omega
  · funext k
    by_cases hk : k ≤ ndirect
    · rw [if_pos hk, h3 k hk]
    · rw [if_neg hk]
      exact (hd.rest k (Nat.lt_of_not_le hk)).symm

theorem getDinode_putDinode_of_ne (x : Sector) {j j' : Nat} (d : Dinode) (hj : j' ≠ j) :
    getDinode (putDinode x j d) j' = getDinode x j' := by
  have h0 := wordAt_putDinode_of_ne x d hj (w := 0) (by decide)
  rw [Nat.add_zero] at h0
  unfold getDinode
  rw [h0, wordAt_putDinode_of_ne x d hj (w := 1) (by decide),
    wordAt_putDinode_of_ne x d hj (w := 2) (by decide)]
  congr 1
  funext k
  split
  case isTrue hk =>
    have hk' : 3 + k < 16 := by
      unfold ndirect at hk
      omega
    rw [Nat.add_assoc, wordAt_putDinode_of_ne x d hj hk']
  case isFalse => rfl

/-- The inodes of the image being built. -/
def Mkfs.ino (s : Mkfs) : Nat → Dinode := inodes inodestart ninodes s.img

theorem Mkfs.ino_stored (s : Mkfs) (i : Nat) : (s.ino i).Stored := by
  unfold Mkfs.ino inodes
  split
  · exact getDinode_stored _ _
  · exact ⟨by decide, fun _ => Nat.two_pow_pos 32, fun _ _ => rfl, by decide, by decide⟩

theorem Mkfs.rinode_eq (s : Mkfs) {i : Nat} (hi : i < ninodes) : s.rinode i = s.ino i :=
  (if_pos hi).symm

theorem Mkfs.ino_winode (s : Mkfs) {i : Nat} (hi : i < ninodes) {d : Dinode} (hd : d.Stored) :
    (s.winode i d).ino = update s.ino i d := by
  funext j
  rw [update_apply]
  unfold Mkfs.ino inodes Mkfs.winode
  dsimp only
  by_cases hj : j = i
  · subst hj
    rw [if_pos hi, if_pos rfl, update_self, getDinode_putDinode _ _ hd]
  · rw [if_neg hj]
    by_cases hb : j / ipb + inodestart = i / ipb + inodestart
    · have hmod : j % ipb ≠ i % ipb := by
        unfold ipb at *
        omega
      rw [hb, update_self, getDinode_putDinode_of_ne _ _ hmod]
    · rw [update_of_ne hb]

theorem Mkfs.ino_congr {s s' : Mkfs} (h : ∀ b, b < nmeta → s'.img b = s.img b) :
    s'.ino = s.ino := by
  funext i
  unfold Mkfs.ino inodes
  split
  case isTrue hi =>
    rw [h]
    have hfirst : nmeta = 59 := by decide
    unfold ninodes at hi
    unfold ipb inodestart logsize
    omega
  case isFalse => rfl

/-! ## Blocks -/

/-- The image as the kernel's volume: the blocks given out are those in use. -/
def Mkfs.vol (s : Mkfs) : Vol := ⟨fun b => decide (b < s.freeblock), s.img⟩

/-- The blocks that are left are still as they were at the beginning. -/
def Mkfs.Fresh (s : Mkfs) : Prop := ∀ b, s.freeblock ≤ b → s.img b = fun _ => 0#8

theorem Mkfs.Fresh.next {s : Mkfs} (h : s.Fresh) :
    Mkfs.Fresh { s with freeblock := s.freeblock + 1 } :=
  fun b hb => h b (Nat.le_of_succ_le hb)

theorem Mkfs.balloc_vol {sb : Superblock} {s : Mkfs} (hfresh : s.Fresh)
    (hlt : s.freeblock < sb.size) :
    balloc sb s.vol = .ok (s.freeblock, Mkfs.vol { s with freeblock := s.freeblock + 1 }) := by
  have hfind : (List.range sb.size).find? (fun b => !s.vol.bit b) = some s.freeblock := by
    rw [List.find?_range_eq_some]
    refine ⟨by simp [Mkfs.vol], List.mem_range.mpr hlt, fun j hj => ?_⟩
    simpa [Mkfs.vol] using hj
  unfold balloc
  rw [hfind]
  simp only [Mkfs.vol, Except.ok.injEq, Prod.mk.injEq, true_and, Vol.mk.injEq]
  constructor
  · funext b
    rw [update_apply]
    split
    · simp [*]
    · rw [decide_eq_decide]
      omega
  · funext b
    rw [update_apply]
    split
    · rename_i hb
      rw [hb, hfresh _ (Nat.le_refl _)]
    · rfl

theorem Mkfs.block_rest (s : Mkfs) (d : Dinode) (fbn : Nat) {k : Nat} (hk : ndirect < k) :
    (s.block d fbn).2.2.addrs k = d.addrs k := by
  unfold Mkfs.block
  split
  · split
    · exact setAddr_of_ne d _ (by omega)
    · rfl
  · by_cases hzero : d.addrs ndirect = 0
    · simp only [hzero, if_true]
      split <;> exact setAddr_of_ne d _ (by omega)
    · simp only [hzero, if_false]
      split <;> rfl

theorem Mkfs.block_mono (s : Mkfs) (d : Dinode) (fbn : Nat) :
    s.freeblock ≤ (s.block d fbn).2.1.freeblock ∧
      (s.block d fbn).2.1.freeblock ≤ s.freeblock + 2 ∧
      (s.block d fbn).2.1.freeinode = s.freeinode := by
  unfold Mkfs.block
  split
  · split <;> dsimp only <;> omega
  · by_cases hzero : d.addrs ndirect = 0
    · simp only [hzero, if_true]
      split <;> dsimp only <;> omega
    · simp only [hzero, if_false]
      split <;> dsimp only <;> omega

section Append

variable {sb : Superblock} {s : Mkfs} {ino : Nat → Dinode} {i : Nat} {d : Dinode}

/-- The kernel's `bmap` maps the same block, and leaves the same image and the same inode. -/
theorem Mkfs.block_eq_bmap (hfresh : s.Fresh) (hown : Own sb s.vol ino) (hd : ino i = d)
    (hused : d.type ≠ none) {fbn : Nat} (hfbn : fbn < maxfile)
    (hfits : (s.block d fbn).2.1.freeblock ≤ sb.size) :
    bmap sb s.vol d fbn
        = .ok ((s.block d fbn).1, (s.block d fbn).2.1.vol, (s.block d fbn).2.2) ∧
      (s.block d fbn).2.1.Fresh := by
  have hind : ptrs ino s.vol.data (i, none) = d.addrs ndirect := ptrs_of_used hd hused none
  -- an indirect block that is there has been given out
  have hlow : d.addrs ndirect ≠ 0 → d.addrs ndirect < s.freeblock := by
    intro hne
    have := hown.bit_own (k := (i, none)) (by rwa [hind])
    rw [hind] at this
    simpa [Mkfs.vol] using this
  unfold Mkfs.block at hfits ⊢
  unfold bmap ensureAddr
  by_cases hdir : fbn < ndirect
  · rw [if_pos hdir] at hfits ⊢
    rw [if_pos hdir]
    by_cases hzero : d.addrs fbn = 0
    · rw [if_pos hzero] at hfits ⊢
      rw [if_pos hzero, Mkfs.balloc_vol hfresh (by dsimp only at hfits; omega)]
      exact ⟨rfl, hfresh.next⟩
    · rw [if_neg hzero, if_neg hzero]
      exact ⟨rfl, hfresh⟩
  · have hrest : fbn - ndirect < nindirect := by
      unfold maxfile at hfbn
      omega
    rw [if_neg hdir] at hfits ⊢
    rw [if_neg hdir, if_pos hrest]
    by_cases hzero : d.addrs ndirect = 0
    · -- the indirect block is new, so its words are zero
      simp only [hzero, if_true, setAddr_self] at hfits ⊢
      have hword : wordAt (s.img s.freeblock) (fbn - ndirect) = 0 := by
        rw [hfresh _ (Nat.le_refl _), wordAt_zero]
      rw [if_pos hword] at hfits ⊢
      dsimp only at hfits
      rw [Mkfs.balloc_vol hfresh (by omega)]
      have hnext : (Mkfs.vol { s with freeblock := s.freeblock + 1 }).data s.freeblock
          = s.img s.freeblock := rfl
      simp only [bind, Except.bind, pure, Except.pure]
      rw [hnext, if_pos hword, Mkfs.balloc_vol hfresh.next (by dsimp only; omega)]
      refine ⟨rfl, fun b hb => ?_⟩
      dsimp only at hb ⊢
      rw [update_of_ne (by omega)]
      exact hfresh b (by omega)
    · have hlt := hlow hzero
      simp only [hzero, if_false] at hfits ⊢
      have hdata : s.vol.data (d.addrs ndirect) = s.img (d.addrs ndirect) := rfl
      simp only [bind, Except.bind, pure, Except.pure, hdata]
      by_cases hword : wordAt (s.img (d.addrs ndirect)) (fbn - ndirect) = 0
      · rw [if_pos hword] at hfits ⊢
        rw [if_pos hword, Mkfs.balloc_vol hfresh (by dsimp only at hfits; omega)]
        refine ⟨rfl, fun b hb => ?_⟩
        dsimp only at hb ⊢
        rw [update_of_ne (by omega)]
        exact hfresh b (by omega)
      · rw [if_neg hword, if_neg hword]
        exact ⟨rfl, hfresh⟩

theorem Mkfs.block_mapped (hfresh : s.Fresh) (hown : Own sb s.vol ino) (hd : ino i = d)
    (hused : d.type ≠ none) {fbn : Nat} (hfbn : fbn < maxfile)
    (hfits : (s.block d fbn).2.1.freeblock ≤ sb.size) :
    Mapped sb s.vol ino i fbn d (s.block d fbn).1 (s.block d fbn).2.1.vol (s.block d fbn).2.2 :=
  (bmap_spec hown hd hused hfbn).ok (Mkfs.block_eq_bmap hfresh hown hd hused hfbn hfits).1

theorem Mkfs.block_meta (hown : Own sb s.vol ino) (hd : ino i = d) (hused : d.type ≠ none)
    (fbn : Nat) (hs : sb.first ≤ s.freeblock) {b : Nat} (hb : b < sb.first) :
    (s.block d fbn).2.1.img b = s.img b := by
  have hind : ptrs ino s.vol.data (i, none) = d.addrs ndirect := ptrs_of_used hd hused none
  have hlow : d.addrs ndirect ≠ 0 → sb.first ≤ d.addrs ndirect := by
    intro hne
    have := (hown.range (i, none) (by rwa [hind])).1
    rwa [hind] at this
  unfold Mkfs.block
  split
  · split <;> rfl
  by_cases hzero : d.addrs ndirect = 0
  · simp only [hzero, if_true, setAddr_self]
    split
    · exact update_of_ne (by omega) _ _
    · rfl
  · have := hlow hzero
    simp only [hzero, if_false]
    split
    · exact update_of_ne (by omega) _ _
    · rfl

/-- `iappend` does not stop at its assertion within the largest file, and gives out at most two
blocks for each block of the file that it writes to. -/
theorem iappendLoop_ok :
    ∀ {fuel : Nat} {s : Mkfs} {d : Dinode} {off : Nat} {p : List Byte},
      off + p.length ≤ maxfile * bsize → p.length ≤ fuel →
      ∃ s' d', iappendLoop fuel s d off p = .ok (s', d', off + p.length) ∧
        s'.freeblock ≤ s.freeblock + if p = [] then 0 else 2 * blocks (off % bsize + p.length) := by
  intro fuel
  induction fuel with
  | zero =>
    intro s d off p _ hfuel
    obtain rfl : p = [] := List.length_eq_zero_iff.mp (by omega)
    exact ⟨s, d, rfl, Nat.le_add_right _ _⟩
  | succ fuel ih =>
    intro s d off p hmax hfuel
    rw [iappendLoop]
    split
    case isTrue hnil =>
      subst hnil
      exact ⟨s, d, rfl, Nat.le_add_right _ _⟩
    case isFalse hne =>
      have hlen : 0 < p.length := List.length_pos_of_ne_nil hne
      have hbn : off / bsize < maxfile := by
        rw [Nat.div_lt_iff_lt_mul (by decide)]
        omega
      dsimp only
      rw [if_pos hbn]
      obtain ⟨m, hm⟩ : ∃ m, m = min p.length ((off / bsize + 1) * bsize - off) := ⟨_, rfl⟩
      obtain ⟨-, hblock, -⟩ := s.block_mono d (off / bsize)
      have hmlen : m ≤ p.length ∧ 0 < m := by
        unfold bsize at *
        omega
      generalize s.block d (off / bsize) = r at *
      obtain ⟨x, s1, d1⟩ := r
      obtain ⟨s', d', hloop, hle⟩ := @ih
        { s1 with
          img := update s1.img x
            (overwrite (s1.img x) (off - off / bsize * bsize) (p.take m)) }
        d1 (off + m) (p.drop m) (by rw [List.length_drop]; omega) (by rw [List.length_drop]; omega)
      refine ⟨s', d', ?_, ?_⟩
      · rw [← hm, hloop, List.length_drop, show off + m + (p.length - m) = off + p.length by omega]
      dsimp only at hle hblock
      by_cases hdrop : p.drop m = []
      · rw [if_pos hdrop] at hle
        have hone : 1 ≤ blocks (off % bsize + p.length) := by
          unfold blocks bsize
          omega
        omega
      have hlt : m < p.length := by
        rw [List.drop_eq_nil_iff] at hdrop
        omega
      rw [if_neg hdrop, List.length_drop] at hle
      have hblocks : 1 + blocks ((off + m) % bsize + (p.length - m))
          ≤ blocks (off % bsize + p.length) := by
        clear hle hloop
        unfold blocks bsize at *
        omega
      omega

theorem iappendLoop_mono :
    ∀ {fuel : Nat} {s s' : Mkfs} {d d' : Dinode} {off off' : Nat} {p : List Byte},
      iappendLoop fuel s d off p = .ok (s', d', off') →
      s.freeblock ≤ s'.freeblock ∧ s'.freeinode = s.freeinode := by
  intro fuel
  induction fuel with
  | zero =>
    intro s s' d d' off off' p h
    cases h
    exact ⟨Nat.le_refl _, rfl⟩
  | succ fuel ih =>
    intro s s' d d' off off' p h
    rw [iappendLoop] at h
    split at h
    · cases h
      exact ⟨Nat.le_refl _, rfl⟩
    · dsimp only at h
      split at h
      · obtain ⟨hle, -, hino⟩ := s.block_mono d (off / bsize)
        obtain ⟨hle', hino'⟩ := ih h
        exact ⟨hle.trans hle', hino'.trans hino⟩
      · cases h

/-- What the loop of `iappend` leaves, when the blocks it gave out are blocks of the image. -/
structure Appended (sb : Superblock) (s : Mkfs) (ino : Nat → Dinode) (i : Nat) (d : Dinode)
    (len off : Nat) (p : List Byte) (s' : Mkfs) (d' : Dinode) : Prop where
  written : Written sb s.vol ino i d len off p s'.vol d'
  fresh : s'.Fresh
  before : ∀ b, b < sb.first → s'.img b = s.img b
  rest : ∀ k, ndirect < k → d'.addrs k = d.addrs k

theorem iappendLoop_written :
    ∀ {fuel : Nat} {s s' : Mkfs} {ino : Nat → Dinode} {d d' : Dinode} {len off off' : Nat}
      {p : List Byte}, s.Fresh → Own sb s.vol ino → ino i = d → d.type ≠ none →
      Covers ino s.img i len → off ≤ len → sb.first ≤ s.freeblock → p.length ≤ fuel →
      iappendLoop fuel s d off p = .ok (s', d', off') → s'.freeblock ≤ sb.size →
      Appended sb s ino i d len off p s' d' := by
  intro fuel
  induction fuel with
  | zero =>
    intro s s' ino d d' len off off' p hfresh hown hd _ hcov hoff _ hfuel h _
    obtain rfl : p = [] := List.length_eq_zero_iff.mp (by omega)
    cases h
    exact ⟨Written.nil hown hd hcov hoff, hfresh, fun _ _ => rfl, fun _ _ => rfl⟩
  | succ fuel ih =>
    intro s s' ino d d' len off off' p hfresh hown hd hused hcov hoff hfirst hfuel h hfits
    rw [iappendLoop] at h
    split at h
    case isTrue hnil =>
      subst hnil
      cases h
      exact ⟨Written.nil hown hd hcov hoff, hfresh, fun _ _ => rfl, fun _ _ => rfl⟩
    case isFalse hne =>
      dsimp only at h
      split at h
      case isFalse => cases h
      case isTrue hbn =>
        have hlen : 0 < p.length := List.length_pos_of_ne_nil hne
        have hend : (off / bsize + 1) * bsize - off = bsize - off % bsize := by
          unfold bsize
          omega
        have hstart : off - off / bsize * bsize = off % bsize := by
          unfold bsize
          omega
        rw [hend, hstart] at h
        obtain ⟨m, hm⟩ : ∃ m, m = min p.length (bsize - off % bsize) := ⟨_, rfl⟩
        have hmod : off % bsize < bsize := Nat.mod_lt _ (by decide)
        rw [← hm] at h
        have htake : (p.take m).length = m := by
          rw [List.length_take]
          omega
        have hmono := s.block_mono d (off / bsize)
        have hfits1 : (s.block d (off / bsize)).2.1.freeblock ≤ sb.size :=
          (iappendLoop_mono h).1.trans hfits
        have hfresh1 := (Mkfs.block_eq_bmap hfresh hown hd hused hbn hfits1).2
        have hmapped := Mkfs.block_mapped hfresh hown hd hused hbn hfits1
        have hmeta := fun b (hb : b < sb.first) =>
          Mkfs.block_meta hown hd hused (off / bsize) hfirst hb
        have hk := fun k => s.block_rest d (off / bsize) (k := k)
        generalize s.block d (off / bsize) = r at *
        obtain ⟨x, s1, d1⟩ := r
        dsimp only at *
        -- the block is a data block that has been given out
        have hx : sb.first ≤ x ∧ x < s1.freeblock := by
          have hpos : ptrs (update ino i d1) s1.vol.data (i, some (off / bsize)) ≠ 0 := by
            rw [hmapped.ptr]
            exact hmapped.pos
          have hrange := (hmapped.own.range _ hpos).1
          have hbit := hmapped.own.bit_own hpos
          rw [hmapped.ptr] at hrange hbit
          exact ⟨hrange, by simpa [Mkfs.vol] using hbit⟩
        have hblock : Written sb s.vol ino i d len off (p.take m) _ d1 :=
          Written.block hd hcov hoff (by omega) (by omega) hmapped
        have hused1 : d1.type ≠ none := by
          rw [hmapped.addrs]
          exact hused
        have hrest := ih (fun b hb => by
            dsimp only at hb ⊢
            rw [update_of_ne (by omega)]
            exact hfresh1 b hb)
          (show Own sb (Mkfs.vol { s1 with img := _ }) _ from hblock.own)
          (update_self ..) hused1 hblock.covers (by omega) (by dsimp only; omega)
          (by rw [List.length_drop]; omega) h hfits
        refine ⟨?_, hrest.fresh, fun b hb => ?_, fun k h => (hrest.rest k h).trans (hk k h)⟩
        · have hw := hrest.written
          rw [htake] at hw
          have := hblock.trans (by rw [htake]; exact hw)
          rwa [List.take_append_drop] at this
        · rw [hrest.before b hb]
          exact (update_of_ne (by omega) _ _).trans (hmeta b hb)

end Append

end Xv6Mmap.Fs
