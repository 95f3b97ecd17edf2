import Xv6Mmap.MkfsImage

/-!
# Reading an image (`mkfs.c` against `fs.c:452-548`)

The kernel mounts an image with the superblock, the inodes and the bitmap as it reads them, and with
an empty inode cache. `lookRead` looks up a name in the root directory and reads the inode found.

The root directory may be said to have one block more than it has (`mkfs_root_hole`), so the image
need not be consistent; but an entry is found before the end of the entries, and up to there every
block is present.

* **`mkfs_read_back_iff`**: a file is read back by its name, except under the names `.` and `..`: the
  lookup then finds the root directory (`Made.lookRead_root`), so only a file with the bytes of the
  root directory would be.
* `mkfs_dot_hidden`: a file `_.` that cannot be read.
-/

namespace Xv6Mmap.Fs

open Lib

/-- The superblock of an image. -/
def imgSb (img : Image) : Option Superblock :=
  if h : readsb img 1 < readsb img 0 then
    some ⟨readsb img 0, readsb img 1, readsb img 2, wordAt_lt _ _, h⟩
  else none

/-- The kernel after it has read the superblock. -/
def mount (img : Image) : Option State :=
  (imgSb img).map fun sb =>
    ⟨sb, ⟨imgBit img, img⟩, imgIno img, fun _ => .unused, fun _ => .unused, fun _ => .unused⟩

/-- Leave the directory `dp` and read `n` bytes of `ip`: its size, and what `readi` returns and
stores. -/
def readFound (dp ip : Fin ninode) (n : Nat) : FsM (Option (Nat × Int × List Byte)) := do
  iunlock dp
  ilock ip
  let size := (← getInode ip).copy.size
  let (r, bytes) ← readi ip 0 n default
  return some (size, r, bytes)

/-- Look up a name in the root directory, and read `n` bytes of the inode. -/
def lookRead (name : List Byte) (n : Nat) : FsM (Option (Nat × Int × List Byte)) := do
  let dp ← iget rootino
  ilock dp
  match ← dirlookup dp name with
  | none => return none
  | some (ip, _) => readFound dp ip n

/-! ## Entries -/

section Entries

variable {j : Nat}

theorem entry_rootEntries {files : List InputFile} (hj : j < files.length) (i : Nat) :
    entry (rootEntries i files) j = dirent (i + j) files[j].name := by
  induction files generalizing i j with
  | nil => exact absurd hj (Nat.not_lt_zero j)
  | cons f files ih =>
    rw [rootEntries]
    cases j with
    | zero => exact entry_append_zero (length_dirent ..)
    | succ j =>
      rw [entry_append_succ (length_dirent ..), ih (Nat.lt_of_succ_lt_succ hj),
        List.getElem_cons_succ, Nat.add_right_comm, Nat.add_assoc]

theorem entry_rootBytes_zero (files : List InputFile) :
    entry (rootBytes files) 0 = dirent rootino dot := by
  rw [rootBytes, List.append_assoc, entry_append_zero (length_dirent ..)]

theorem entry_rootBytes_one (files : List InputFile) :
    entry (rootBytes files) 1 = dirent rootino dotdot := by
  rw [rootBytes, List.append_assoc, entry_append_succ (length_dirent ..),
    entry_append_zero (length_dirent ..)]

theorem entry_rootBytes_file {files : List InputFile} (hj : j < files.length) :
    entry (rootBytes files) (j + 2) = dirent (j + 2) files[j].name := by
  rw [rootBytes, List.append_assoc, entry_append_succ (length_dirent ..),
    entry_append_succ (length_dirent ..), entry_rootEntries hj, Nat.add_comm 2]

/-- The first entry with the name of a file is that of the file, unless it is `.` or `..`. -/
theorem hit_file {files : List InputFile} (hino : files.length + 2 ≤ ninodes)
    (hnodup : (files.map fun f => cname f.name).Nodup) (hj : j < files.length)
    (hdot : cname files[j].name ≠ dot ∧ cname files[j].name ≠ dotdot) :
    hit (rootBytes files) files[j].name (j + 2) = true ∧
      ∀ k, k < j + 2 → hit (rootBytes files) files[j].name k = false := by
  unfold ninodes at hino
  constructor
  · rw [hit_of_entry (entry_rootBytes_file hj) (by omega) (by omega), beq_self_eq_true]
  intro k hk
  match k with
  | 0 =>
    rw [hit_of_entry (entry_rootBytes_zero files) (by decide) (by decide)]
    exact beq_false_of_ne hdot.1
  | 1 =>
    rw [hit_of_entry (entry_rootBytes_one files) (by decide) (by decide)]
    exact beq_false_of_ne hdot.2
  | k + 2 =>
    have hk : k < j := by omega
    rw [hit_of_entry (entry_rootBytes_file (hk.trans hj)) (by omega) (by omega)]
    refine beq_false_of_ne fun he => ?_
    have hne := List.pairwise_iff_getElem.mp hnodup k j (by simpa using hk.trans hj)
      (by simpa using hj) hk
    exact hne (by simpa using he.symm)

end Entries

/-! ## The kernel -/

section Kernel

variable {s : State} {a : Fin ninode} {i len : Nat} {E : Halt → Prop}

/-- Reading what the blocks of an inode cover, even where its size is larger. -/
theorem readi_covered (hown : Own s.sb s.vol s.dinode) (hcopy : (s.inode a).copy = s.dinode i)
    (hused : (s.dinode i).type ≠ none) (hdev : (s.dinode i).type ≠ some .dev)
    (hcov : Covers s.dinode s.vol.data i len) {off n m : Nat} (io : DevIo)
    (hm : m = min n ((s.dinode i).size - off)) (hoff : off ≤ (s.dinode i).size)
    (hn : off + n < 2 ^ 32) (hlen : off + m ≤ len) {Q : Int × List Byte → State → Prop}
    (hQ : Q (m, bytes s.dinode s.vol.data i off m) s) : Wp (readi a off n io) s Q E := by
  unfold readi
  simp only [wp_bind, wp_get, hcopy]
  rw [if_neg hdev, if_neg (by omega), ← hm]
  simp only [wp_bind, wp_liftM]
  rw [readLoop_eq hown rfl hused hcov hlen (Nat.le_refl m)]
  simp only [ends_ok, wp_set, wp_setCopy, wp_pure]
  have hsame : State.slot { s with vol := s.vol } a { s.inode a with copy := s.dinode i } = s := by
    rw [← hcopy]
    exact congrArg (fun f => { s with inode := f }) (Function.update_eq_self a s.inode)
  rw [hsame]
  exact hQ

theorem dirlookupLoop_first (hown : Own s.sb s.vol s.dinode)
    (hcopy : (s.inode a).copy = s.dinode i) (hdir : (s.dinode i).type = some .dir)
    {bs name : List Byte} (hbs : bytes s.dinode s.vol.data i 0 bs.length = bs)
    (hcov : Covers s.dinode s.vol.data i bs.length) (hsize : bs.length ≤ (s.dinode i).size)
    (hmax : bs.length < 2 ^ 32) {j : Nat} (hj : deSize * (j + 1) ≤ bs.length)
    (hhit : hit bs name j = true) {Q : Option (Fin ninode × Nat) → State → Prop}
    (hQ : Wp (iget (deInum (entry bs j))) s (fun ip s' => Q (some (ip, deSize * j)) s') E) :
    ∀ {fuel k : Nat}, k ≤ j → j < k + fuel → (∀ m, k ≤ m → m < j → hit bs name m = false) →
      Wp (dirlookupLoop a name fuel (deSize * k)) s Q E := by
  have hde : deSize = 16 := rfl
  intro fuel
  induction fuel with
  | zero =>
    intro k hk hlt _
    omega
  | succ fuel ih =>
    intro k hk hlt hmiss
    have hend : deSize * k + deSize ≤ bs.length := by
      rw [hde] at hj ⊢
      omega
    have hentry : bytes s.dinode s.vol.data i (deSize * k) deSize = entry bs k := by
      rw [entry, ← hbs, take_drop_bytes, Nat.min_eq_left (by omega)]
    rw [dirlookupLoop]
    simp only [wp_bind, wp_getInode, hcopy]
    rw [if_pos (by omega)]
    simp only [wp_bind, readDirent]
    refine readi_covered hown hcopy (by simp [hdir]) (by simp [hdir]) hcov default
      (m := deSize) (by omega) (by omega) (by omega) hend ?_
    rw [hentry, if_neg (by simp)]
    simp only [wp_pure]
    by_cases hkj : k = j
    · subst hkj
      have hh := hhit
      rw [hit, Bool.and_eq_true, decide_eq_true_eq] at hh
      rw [if_pos hh]
      simpa only [wp_bind, wp_pure] using hQ
    · have hmk := hmiss k (Nat.le_refl k) (by omega)
      rw [if_neg (by
        rintro ⟨h1, h2⟩
        rw [hit, h2, decide_eq_true h1] at hmk
        cases hmk), ← Nat.mul_succ]
      exact ih (by omega) (by omega) fun m hm hmj => hmiss m (by omega) hmj

variable {x : Inode} {Q : Unit → State → Prop}

/-- `ilock` of an inode that is not in the cache yet. -/
theorem ilock_first (hx : s.inode a = x) (href : 1 ≤ x.ref) (hl : x.locked = false)
    (hv : x.valid = false) (hused : (s.dinode x.inum).type ≠ none)
    (hQ : Q ⟨⟩ (s.slot a { x with locked := true, valid := true, copy := s.dinode x.inum })) :
    Wp (ilock a) s Q E := by
  subst hx
  unfold ilock acquiresleep
  simp only [wp_bind, wp_getInode]
  rw [if_neg (by omega)]
  simp only [wp_bind, wp_getInode, hl, Bool.false_eq_true, if_false, wp_setInode, wp_get, slot_self,
    hv]
  rw [slot_slot]
  exact (if_neg hused).symm ▸ hQ

theorem ilock_again (hx : s.inode a = x) (href : 1 ≤ x.ref) (hl : x.locked = false)
    (hv : x.valid = true) (hQ : Q ⟨⟩ (s.slot a { x with locked := true })) :
    Wp (ilock a) s Q E := by
  subst hx
  unfold ilock acquiresleep
  simp only [wp_bind, wp_getInode]
  rw [if_neg (by omega)]
  simp only [wp_bind, wp_getInode, hl, Bool.false_eq_true, if_false, wp_setInode, wp_get, slot_self,
    hv, if_true, wp_pure]
  rwa [hv] at hQ

theorem iunlock_locked (hx : s.inode a = x) (href : 1 ≤ x.ref) (hl : x.locked = true)
    (hQ : Q ⟨⟩ (s.slot a { x with locked := false })) :
    Wp (iunlock a) s Q E := by
  subst hx
  unfold iunlock
  simp only [wp_bind, wp_getInode, hl, Bool.not_true, Bool.false_eq_true, false_or]
  rw [if_neg (by omega)]
  exact hQ

/-- `iget` of an inode that is in no slot, with `a` the first free slot. -/
theorem iget_new {inum : Nat} (hnone : ∀ b, 0 < (s.inode b).ref → (s.inode b).inum ≠ inum)
    (hfree : (List.finRange ninode).find? (fun b => decide ((s.inode b).ref = 0)) = some a)
    {Q : Fin ninode → State → Prop}
    (hQ : Q a (s.slot a { s.inode a with inum := inum, ref := 1, valid := false })) :
    Wp (iget inum) s Q E := by
  have hfind : (List.finRange ninode).find? (fun b =>
      decide (0 < (s.inode b).ref ∧ (s.inode b).inum = inum)) = none := by
    rw [List.find?_eq_none]
    intro b _ h
    obtain ⟨hpos, heq⟩ := of_decide_eq_true h
    exact hnone b hpos heq
  unfold iget
  simp only [wp_bind, wp_get, hfind, hfree, wp_setInode, wp_pure]
  exact hQ

theorem iget_zero {inum : Nat} (hpos : 0 < (s.inode 0).ref) (hinum : (s.inode 0).inum = inum)
    {Q : Fin ninode → State → Prop}
    (hQ : Q 0 (s.slot 0 { s.inode 0 with ref := (s.inode 0).ref + 1 })) :
    Wp (iget inum) s Q E := by
  have hfind : (List.finRange ninode).find? (fun b =>
      decide (0 < (s.inode b).ref ∧ (s.inode b).inum = inum)) = some 0 := by
    rw [show List.finRange ninode = 0 :: (List.finRange ninode).tail from rfl]
    exact List.find?_cons_of_pos (decide_eq_true ⟨hpos, hinum⟩)
  unfold iget
  simp only [wp_bind, wp_get, hfind, wp_setInode, wp_pure]
  exact hQ

end Kernel

/-! ## What is read -/

/-- The kernel with the image mounted. -/
def mounted (img : Image) : State :=
  ⟨mkfsSb, ⟨imgBit img, img⟩, imgIno img, fun _ => .unused, fun _ => .unused, fun _ => .unused⟩

/-- The slot of the root directory when it is locked. -/
def rootSlot (img : Image) : Inode := ⟨rootino, 1, true, true, imgIno img rootino⟩

section Made

variable {files : List InputFile} {s : Mkfs} {E : Halt → Prop}

theorem Made.mount_eq (h : Made files s) : mount s.img = some (mounted s.img) := by
  have h0 : readsb s.img 0 = fssize := (h.readsb_eq 0).trans (by decide)
  have h1 : readsb s.img 1 = fssize - nmeta := (h.readsb_eq 1).trans (by decide)
  have h2 : readsb s.img 2 = ninodes := (h.readsb_eq 2).trans (by decide)
  have hsb : imgSb s.img = some mkfsSb := by
    rw [imgSb, dif_pos (by rw [h0, h1]; decide)]
    simp only [h0, h1, h2]
    rfl
  rw [mount, hsb]
  rfl

variable {n : Nat}

theorem Made.lookRead_first (h : Made files s) {name : List Byte} {j : Nat}
    (hj : j < files.length + 2) (hhit : hit (rootBytes files) name j = true)
    (hmiss : ∀ k, k < j → hit (rootBytes files) name k = false)
    {Q : Option (Nat × Int × List Byte) → State → Prop}
    (hQ : Wp (iget (deInum (entry (rootBytes files) j))) ((mounted s.img).slot 0 (rootSlot s.img))
      (fun ip s' => Wp (readFound 0 ip n) s' Q E) E) :
    Wp (lookRead name n) (mounted s.img) Q E := by
  have hino : imgIno s.img = s.ino := h.imgIno_eq
  have htype : (imgIno s.img rootino).type = some .dir := by
    rw [hino]
    exact h.type_eq rootino
  have hlen := length_rootBytes files
  have hsize : (rootBytes files).length ≤ (imgIno s.img rootino).size := by
    rw [hino, h.size, sizeIn, if_pos rfl]
    unfold bsize
    omega
  have hmax : (rootBytes files).length < 2 ^ 32 :=
    Nat.lt_of_le_of_lt hsize (by rw [hino]; exact (s.ino_stored rootino).size)
  have hcov : Covers (imgIno s.img) s.img rootino (rootBytes files).length := by
    rw [hino]
    exact h.covers rootino
  have hbs : bytes (imgIno s.img) s.img rootino 0 (rootBytes files).length = rootBytes files := by
    rw [hino]
    exact h.content_eq rootino
  unfold lookRead
  rw [wp_bind]
  refine iget_new (a := 0) (fun b hb => absurd hb (Int.lt_irrefl 0)) rfl ?_
  rw [wp_bind]
  refine ilock_first (slot_self ..) (Int.le_refl 1) rfl rfl (by
    show (imgIno s.img rootino).type ≠ none
    rw [htype]
    rintro ⟨⟩) ?_
  rw [slot_slot, wp_bind]
  change Wp (dirlookup 0 name) ((mounted s.img).slot 0 (rootSlot s.img)) _ _
  unfold dirlookup
  simp only [wp_bind, wp_getInode, slot_self]
  rw [if_neg (show ¬ (rootSlot s.img).copy.type ≠ some .dir from not_not_intro htype)]
  have hcopy : (((mounted s.img).slot 0 (rootSlot s.img)).inode 0).copy = imgIno s.img rootino := by
    rw [slot_self, rootSlot]
  have hend : deSize * (j + 1) ≤ (rootBytes files).length := by
    rw [hlen, deSize]
    omega
  change Wp (dirlookupLoop 0 name ((imgIno s.img rootino).size + 1) (deSize * 0)) _ _ _
  refine dirlookupLoop_first (s := (mounted s.img).slot 0 (rootSlot s.img)) (i := rootino) h.own_img
    hcopy htype hbs hcov hsize hmax hend hhit ?_
    (Nat.zero_le j) (by omega) fun m _ hm => hmiss m hm
  exact hQ

theorem Made.readi_slot (h : Made files s) {k : State} {a : Fin ninode} {i m : Nat}
    (hsb : k.sb = mkfsSb) (hvol : k.vol = ⟨imgBit s.img, s.img⟩) (hdin : k.dinode = imgIno s.img)
    (hcopy : (k.inode a).copy = imgIno s.img i) (hi : typeOf files.length i ≠ none)
    (hn : n < 2 ^ 32) (hm : m = min n (sizeIn files i)) (hlen : m ≤ (contentOf files i).length)
    {Q : Int × List Byte → State → Prop} (hQ : Q (m, (contentOf files i).take m) k) :
    Wp (readi a 0 n default) k Q E := by
  have hino : imgIno s.img = s.ino := h.imgIno_eq
  have hdev : typeOf files.length i ≠ some .dev := by
    unfold typeOf
    grind
  have hown : Own k.sb k.vol k.dinode := by
    rw [hsb, hvol, hdin]
    exact h.own_img
  have hcov : Covers k.dinode k.vol.data i (contentOf files i).length := by
    rw [hdin, hvol, hino]
    exact h.covers i
  have hbytes : bytes k.dinode k.vol.data i 0 m = (contentOf files i).take m := by
    have hall : bytes k.dinode k.vol.data i 0 (contentOf files i).length = contentOf files i := by
      rw [hdin, hvol, hino]
      exact h.content_eq i
    rw [← hall, ← List.drop_zero (l := bytes k.dinode k.vol.data i 0 (contentOf files i).length),
      take_drop_bytes, Nat.min_eq_left (by omega)]
  have htype : (k.dinode i).type = typeOf files.length i := by
    rw [hdin, hino]
    exact h.type_eq i
  have hsize : (k.dinode i).size = sizeIn files i := by
    rw [hdin, hino]
    exact h.size i
  refine readi_covered hown (hcopy.trans (by rw [hdin])) (by rwa [htype]) (by rwa [htype]) hcov
    default (m := m) (by rw [hsize, hm, Nat.sub_zero]) (Nat.zero_le _) (by omega) (by omega) ?_
  rwa [hbytes]

theorem Made.lookRead_file (h : Made files s) (hino : files.length + 2 ≤ ninodes)
    (hnodup : (files.map fun f => cname f.name).Nodup) {j : Nat} (hj : j < files.length)
    (hdot : cname files[j].name ≠ dot ∧ cname files[j].name ≠ dotdot) (hn : n < 2 ^ 32) :
    Wp (lookRead files[j].name n) (mounted s.img)
      (fun r _ => r = some (files[j].content.length,
        ((min n files[j].content.length : Nat) : Int), files[j].content.take n))
      fun _ => False := by
  obtain ⟨hhit, hmiss⟩ := hit_file hino hnodup hj hdot
  have hcontent : contentOf files (j + 2) = files[j].content := by
    simp [contentOf, rootino, hj]
  have hsize : sizeIn files (j + 2) = files[j].content.length := by
    rw [sizeIn, if_neg (by unfold rootino; omega), hcontent]
  have htype : typeOf files.length (j + 2) ≠ none := by
    unfold typeOf rootino
    grind
  refine h.lookRead_first (Nat.add_lt_add_right hj 2) hhit hmiss ?_
  rw [entry_rootBytes_file hj, deInum_dirent (by unfold ninodes at hino; omega)]
  have hslots : ∀ b, b ≠ 0 → ((mounted s.img).slot 0 (rootSlot s.img)).inode b = .unused :=
    fun b hb => slot_of_ne _ _ hb
  refine iget_new (a := 1) ?_ ?_ ?_
  · intro b hb
    by_cases hzero : b = 0
    · subst hzero
      rw [slot_self]
      show rootino ≠ j + 2
      unfold rootino
      omega
    · rw [hslots b hzero] at hb
      exact absurd hb (Int.lt_irrefl 0)
  · have hfun : (fun b => decide ((((mounted s.img).slot 0 (rootSlot s.img)).inode b).ref = 0))
        = fun b => decide (b ≠ 0) := by
      funext b
      by_cases hzero : b = 0
      · subst hzero
        rw [slot_self]
        rfl
      · rw [hslots b hzero, decide_eq_true hzero]
        rfl
    rw [hfun]
    decide +kernel
  · rw [hslots 1 (by decide)]
    unfold readFound
    rw [wp_bind]
    refine iunlock_locked ((slot_of_ne _ _ (by decide)).trans (slot_self ..)) (Int.le_refl 1) rfl ?_
    rw [wp_bind]
    refine ilock_first ((slot_of_ne _ _ (by decide)).trans (slot_self ..)) (Int.le_refl 1) rfl rfl
      ?_ ?_
    · show (imgIno s.img (j + 2)).type ≠ none
      rw [h.imgIno_eq, h.type_eq]
      exact htype
    simp only [wp_bind, wp_getInode, slot_self]
    refine h.readi_slot rfl rfl rfl (by rw [slot_self]; rfl) htype hn
      (m := min n files[j].content.length) (by rw [hsize]) (by rw [hcontent]; omega) ?_
    rw [wp_pure, hcontent]
    have hcopy : (imgIno s.img (j + 2)).size = files[j].content.length := by
      rw [h.imgIno_eq, h.size, hsize]
    show some ((imgIno s.img (j + 2)).size, _, _) = _
    rw [hcopy, ← List.take_take, List.take_length]

/-- Under the names `.` and `..` the root directory is found, whatever files there are. -/
theorem Made.lookRead_root (h : Made files s) {name : List Byte}
    (hname : cname name = dot ∨ cname name = dotdot) (n : Nat) :
    lookRead name n (mounted s.img)
      = (do readFound 0 (← iget rootino) n) ((mounted s.img).slot 0 (rootSlot s.img)) := by
  have h0 : hit (rootBytes files) name 0 = (cname name == dot) :=
    hit_of_entry (entry_rootBytes_zero files) (by decide) (by decide)
  have h1 : hit (rootBytes files) name 1 = (cname name == dotdot) :=
    hit_of_entry (entry_rootBytes_one files) (by decide) (by decide)
  refine eq_of_wp fun Q E hQ => ?_
  rw [wp_bind] at hQ
  by_cases hdot : cname name = dot
  · refine h.lookRead_first (j := 0) (by omega) (h0.trans (beq_iff_eq.mpr hdot))
      (fun k hk => absurd hk (Nat.not_lt_zero k)) ?_
    rwa [entry_rootBytes_zero, deInum_dirent (by decide)]
  · refine h.lookRead_first (j := 1) (by omega)
      (h1.trans (beq_iff_eq.mpr (hname.resolve_left hdot))) (fun k hk => ?_) ?_
    · obtain rfl : k = 0 := by omega
      exact h0.trans (beq_false_of_ne hdot)
    · rwa [entry_rootBytes_one, deInum_dirent (by decide)]

theorem Made.lookRead_dot (h : Made files s) (hn : n ≤ (rootBytes files).length) :
    Wp (lookRead dot n) (mounted s.img)
      (fun r _ => r = some ((imgIno s.img rootino).size, (n : Int), (rootBytes files).take n))
      fun _ => False := by
  have hsize : n ≤ sizeIn files rootino := by
    have := length_rootBytes files
    rw [sizeIn, if_pos rfl]
    unfold bsize
    omega
  have hmax : n < 2 ^ 32 := by
    have := (s.ino_stored rootino).size
    rw [h.size] at this
    omega
  unfold Wp
  rw [h.lookRead_root (.inl (by decide))]
  change Wp (iget rootino >>= fun ip => readFound 0 ip n) _ (fun r _ => r = _) _
  rw [wp_bind]
  refine iget_zero (by rw [slot_self]; exact Int.zero_lt_one) (by rw [slot_self]; rfl) ?_
  unfold readFound
  rw [slot_self, slot_slot, wp_bind]
  have htwo : (1 : Int) ≤ 2 := by decide
  refine iunlock_locked (slot_self ..) htwo rfl ?_
  rw [slot_slot, wp_bind]
  refine ilock_again (slot_self ..) htwo rfl rfl ?_
  rw [slot_slot]
  simp only [wp_bind, wp_getInode, slot_self]
  refine h.readi_slot (i := rootino) rfl rfl rfl (by rw [slot_self]; rfl) (Option.some_ne_none _)
    hmax (m := n) (by omega) hn ?_
  rw [wp_pure]
  rfl

end Made

/-- Looking up the name and reading any number of bytes gives the size and the bytes `bs`. -/
def Reads (k : State) (name bs : List Byte) : Prop :=
  ∀ n, n < 2 ^ 32 → ∃ k', lookRead name n k
    = .ok (some (bs.length, ((min n bs.length : Nat) : Int), bs.take n), k')

/-- What is read under the name `.` is as long as the root directory and begins with its entries. -/
theorem Made.root_of_reads {files : List InputFile} {s : Mkfs} (h : Made files s) {bs : List Byte}
    (hr : Reads (mounted s.img) dot bs) :
    bs.length = (imgIno s.img rootino).size ∧ rootBytes files <+: bs := by
  have hmax : (rootBytes files).length < 2 ^ 32 := by
    have hstored := (s.ino_stored rootino).size
    have := length_rootBytes files
    rw [h.size, sizeIn, if_pos rfl] at hstored
    unfold bsize at hstored
    omega
  obtain ⟨k', hk'⟩ := hr _ hmax
  have := (h.lookRead_dot (Nat.le_refl (rootBytes files).length)).ok hk'
  rw [List.take_length] at this
  simp only [Option.some.injEq, Prod.mk.injEq] at this
  exact ⟨this.1, this.2.2 ▸ List.take_prefix ..⟩

/-- **The kernel reads back what `mkfs` wrote**, except a file whose name is that of an entry of the
root directory itself: under that name the root directory is read, so the file would have to have
its size and its bytes. -/
theorem mkfs_read_back_iff (files : List InputFile) (h : Fits files)
    (hnodup : (files.map fun f => cname f.name).Nodup) :
    ((∃ f ∈ files, slash ∈ f.arg) ∧ ∃ e, mkfs files = .error e) ∨
    ∃ s k, mkfs files = .ok s ∧ mount s.img = some k ∧
      (∀ f ∈ files, Reads k f.name f.content ↔
        (cname f.name = dot ∨ cname f.name = dotdot → Reads k dot f.content)) ∧
      ∀ bs, Reads k dot bs → bs.length = (k.dinode rootino).size ∧ rootBytes files <+: bs := by
  rcases h.made with herr | ⟨s, hrun, hm⟩
  · exact .inl herr
  refine .inr ⟨s, _, hrun, hm.mount_eq, fun f hf => ?_, fun bs => hm.root_of_reads⟩
  by_cases hroot : cname f.name = dot ∨ cname f.name = dotdot
  · have hsame : ∀ n, lookRead f.name n (mounted s.img) = lookRead dot n (mounted s.img) := fun n =>
      (hm.lookRead_root hroot n).trans (hm.lookRead_root (.inl (by decide)) n).symm
    unfold Reads
    simp only [hsame, hroot, true_imp_iff]
  · refine iff_of_true (fun n hn => ?_) fun hr => absurd hr hroot
    obtain ⟨j, hj, rfl⟩ := List.getElem_of_mem hf
    obtain ⟨⟨r, k'⟩, hr, hval⟩ :=
      Ends.exists_ok (hm.lookRead_file h.inodes hnodup hj (not_or.mp hroot) hn)
    have hval : r = _ := hval
    exact ⟨k', by rw [hr, hval]⟩

theorem mkfs_read_back_iff_one :
    ∃ s k, mkfs [⟨[95#8, 97#8], [[1#8], [2#8, 3#8]]⟩] = .ok s ∧ mount s.img = some k ∧
      ∃ k', lookRead [97#8] 10 k = .ok (some (3, 3, [1#8, 2#8, 3#8]), k') := by
  have hfits : Fits [⟨[95#8, 97#8], [[1#8], [2#8, 3#8]]⟩] :=
    fits_of_few (by decide) (by decide) (by decide)
  rcases mkfs_read_back_iff _ hfits (by decide) with
    ⟨⟨f, hf, hslash⟩, -⟩ | ⟨s, k, hrun, hmount, hread, -⟩
  · obtain rfl := List.mem_singleton.mp hf
    exact absurd hslash (by decide)
  · exact ⟨s, k, hrun, hmount, (hread _ (List.mem_singleton.mpr rfl)).mpr
      (fun hroot => absurd hroot (by decide)) 10 (by decide)⟩

/-- A file `_.` with one byte. -/
def dotFile : InputFile := ⟨[95#8, 46#8], [[7#8]]⟩

/-- The file is entered a second time under the name `.`, and the kernel reads the directory. -/
theorem mkfs_dot_hidden :
    Fits [dotFile] ∧ ([dotFile].map fun f => cname f.name).Nodup ∧ dotFile.content = [7#8] ∧
    ∃ s k k', mkfs [dotFile] = .ok s ∧ mount s.img = some k ∧
      lookRead dotFile.name 1 k = .ok (some (512, 1, [1#8]), k') := by
  have hfits : Fits [dotFile] := fits_of_few (by decide) (by decide) (by decide)
  refine ⟨hfits, by decide, rfl, ?_⟩
  rcases hfits.made with ⟨⟨f, hf, hslash⟩, -⟩ | ⟨s, hrun, hm⟩
  · obtain rfl := List.mem_singleton.mp hf
    exact absurd hslash (by decide)
  · obtain ⟨⟨r, k'⟩, hr, hval⟩ := Ends.exists_ok (hm.lookRead_dot (n := 1) (by decide))
    have hval : r = _ := hval
    have hsize : (imgIno s.img rootino).size = 512 := by
      rw [hm.imgIno_eq, hm.size]
      decide
    rw [hval, hsize] at hr
    exact ⟨s, _, k', hrun, hm.mount_eq, hr⟩

end Xv6Mmap.Fs
