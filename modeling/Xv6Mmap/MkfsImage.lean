import Xv6Mmap.FsDir
import Xv6Mmap.Mkfs

/-!
# What an image holds (`mkfs.c:67-168`)

`Built` is what holds between two calls in `main`: the pointers of the inodes and the blocks given
out agree, as the kernel wants them to, and each inode has the type and the bytes that were written
to it. `iappend` appends to the bytes of one inode, `ialloc` takes the next inode.
-/

namespace Xv6Mmap.Fs

open Lib
open Function (update update_self update_of_ne update_apply update_eq_self update_idem)

/-- The image laid out so far, for the inodes `ino`: inode `i` has the type `type i` and the bytes
`content i`. -/
structure Laid (sb : Superblock) (s : Mkfs) (ino : Nat → Dinode) (type : Nat → Option FileType)
    (content : Nat → List Byte) : Prop where
  layout : sb.first = nmeta
  own : Own sb s.vol ino
  fresh : s.Fresh
  first : sb.first ≤ s.freeblock
  type_eq : ∀ i, (ino i).type = type i
  covers : ∀ i, Covers ino s.img i (content i).length
  content_eq : ∀ i, bytes ino s.img i 0 (content i).length = content i
  free : ∀ i, s.freeinode ≤ i → type i = none
  super : s.img 1 = Mkfs.init.img 1

/-- The image built so far. -/
structure Built (sb : Superblock) (s : Mkfs) (type : Nat → Option FileType)
    (content : Nat → List Byte) : Prop extends Laid sb s s.ino type content where
  size : ∀ i, (s.ino i).size = (content i).length

section Frames

variable {sb : Superblock} {v : Vol} {img : Image} {ino : Nat → Dinode}

/-- Pointers lead to data blocks only, so they do not see what is written before these. -/
theorem ptrs_congr_data (hown : Own sb v ino)
    (h : ∀ b, sb.first ≤ b → img b = v.data b) : ptrs ino img = ptrs ino v.data := by
  funext ⟨i, k⟩
  unfold ptrs
  split
  · rfl
  rename_i hused
  have hind : (ino i).addrs ndirect ≠ 0 →
      img ((ino i).addrs ndirect) = v.data ((ino i).addrs ndirect) := by
    intro hne
    have hptr : ptrs ino v.data (i, none) = (ino i).addrs ndirect := ptrs_of_used rfl hused none
    have := (hown.range (i, none) (by rwa [hptr])).1
    exact h _ (by rwa [hptr] at this)
  cases k with
  | none => rfl
  | some bn =>
    obtain hbn | ⟨m, hm, rfl⟩ | hbn := bn_cases bn
    · rw [Dinode.ptr_direct _ _ hbn, Dinode.ptr_direct _ _ hbn]
    · rw [Dinode.ptr_indirect _ _ hm, Dinode.ptr_indirect _ _ hm]
      split
      · rfl
      · rename_i hne
        rw [hind hne]
    · rw [Dinode.ptr_of_le _ _ hbn, Dinode.ptr_of_le _ _ hbn]

end Frames

theorem iblock_bounds {i : Nat} (hi : i < ninodes) :
    i / ipb + inodestart < nmeta ∧ i / ipb + inodestart ≠ 1 ∧
      i / ipb + inodestart ≠ bmapstart := by
  have hfirst : nmeta = 59 := by decide
  have hbmap : bmapstart = 58 := by decide
  rw [hfirst, hbmap]
  unfold ninodes at hi
  unfold ipb inodestart logsize
  omega

section Steps

variable {sb : Superblock} {s s' : Mkfs} {ino : Nat → Dinode} {type : Nat → Option FileType}
  {content : Nat → List Byte} {i : Nat} {d : Dinode} {p : List Byte}

theorem Laid.write (h : Laid sb s ino type content) {b : Nat} (hb : b < nmeta) (hne : b ≠ 1)
    (x : Sector) : Laid sb { s with img := update s.img b x } ino type content := by
  have himg : ∀ c, sb.first ≤ c → update s.img b x c = s.img c := fun c hc =>
    update_of_ne (by rw [h.layout] at hc; omega) _ _
  have hptrs : ptrs ino (update s.img b x) = ptrs ino s.img :=
    ptrs_congr_data h.own himg
  refine ⟨h.layout, ?_, fun c hc => ?_, h.first, h.type_eq, fun j bn => ?_, fun j => ?_, h.free,
    (update_of_ne (Ne.symm hne) _ _).trans h.super⟩
  · unfold Own
    rw [show (Mkfs.vol { s with img := update s.img b x }).data
      = update s.img b x from rfl, hptrs]
    exact h.own
  · exact (himg c (h.first.trans hc)).trans (h.fresh c hc)
  · rw [hptrs]
    exact h.covers j bn
  · refine Eq.trans (bytes_congr (h.covers j) (fun k => by rw [hptrs]) fun bn hpos => ?_)
      (h.content_eq j)
    exact himg _ (h.own.range _ hpos).1

theorem Laid.winode (h : Laid sb s (update s.ino i d) type content) (hi : i < ninodes)
    (hd : d.Stored) : Laid sb (s.winode i d) (s.winode i d).ino type content := by
  rw [Mkfs.ino_winode _ hi hd]
  exact h.write (iblock_bounds hi).1 (iblock_bounds hi).2.1 _

theorem Laid.lt_ninodes (h : Laid sb s s.ino type content) (hi : type i ≠ none) : i < ninodes := by
  by_contra hge
  refine hi ((h.type_eq i).symm.trans ?_)
  unfold Mkfs.ino inodes
  rw [if_neg hge]
  rfl

theorem Laid.content_of_free (h : Laid sb s ino type content) (hi : type i = none) :
    content i = [] := by
  have hptr : ptrs ino s.img (i, some 0) = 0 := if_pos ((h.type_eq i).trans hi)
  have := (h.covers i 0).not
  rw [not_not] at this
  have := this.mp hptr
  exact List.length_eq_zero_iff.mp (by omega)

/-- An inode with other sizes and links, and the same blocks. -/
theorem Laid.set (h : Laid sb s ino type content) (ht : d.type = (ino i).type)
    (ha : d.addrs = (ino i).addrs) : Laid sb s (update ino i d) type content := by
  have hptrs : ptrs (update ino i d) s.img = ptrs ino s.img := by
    rw [ptrs_update_congr ht ha, update_eq_self]
  refine ⟨h.layout, ?_, h.fresh, h.first, fun j => ?_, fun j bn => ?_, fun j => ?_, h.free, h.super⟩
  · unfold Own
    rw [show ptrs (update ino i d) s.vol.data = ptrs ino s.vol.data from hptrs]
    exact h.own
  · rw [update_apply]
    split
    · rename_i hj
      rw [hj, ht, h.type_eq]
    · exact h.type_eq j
  · rw [hptrs]
    exact h.covers j bn
  · exact (bytes_congr (h.covers j) (fun k => by rw [hptrs]) fun _ _ => rfl).trans (h.content_eq j)

theorem Built.ialloc (h : Built sb s type content) (hi : s.freeinode < ninodes) (t : FileType) :
    Built sb (s.ialloc t) (update type s.freeinode (some t)) content := by
  have hfree : type s.freeinode = none := h.free _ (Nat.le_refl _)
  have hempty := h.content_of_free hfree
  let d : Dinode := { Dinode.zero with type := some t, nlink := 1 }
  have hd : d.Stored :=
    ⟨Nat.two_pow_pos 32, fun _ => Nat.two_pow_pos 32, fun _ _ => rfl,
      show (-32768 : Int) ≤ 1 ∧ (1 : Int) < 32768 by decide⟩
  -- the inode had no pointers, and has none now
  have hptrs : ptrs (update s.ino s.freeinode d) s.img = ptrs s.ino s.img := by
    funext ⟨j, k⟩
    by_cases hj : j = s.freeinode
    · subst hj
      rw [ptrs_update_self (Option.some_ne_none t), Dinode.ptr_of_addrs _ fun _ => rfl]
      exact (if_pos ((h.type_eq _).trans hfree)).symm
    · exact ptrs_update_of_ne hj
  have hlaid : Laid sb { s with freeinode := s.freeinode + 1 } (update s.ino s.freeinode d)
      (update type s.freeinode (some t)) content := by
    refine ⟨h.layout, ?_, h.fresh, h.first, fun j => ?_, fun j bn => ?_, fun j => ?_,
      fun j hj => ?_, h.super⟩
    · unfold Own
      rw [show ptrs _ (Mkfs.vol { s with freeinode := s.freeinode + 1 }).data
        = ptrs s.ino s.img from hptrs]
      exact h.own
    · rw [update_apply, update_apply]
      split
      · rfl
      · exact h.type_eq j
    · rw [hptrs]
      exact h.covers j bn
    · refine (bytes_congr (h.covers j) (fun k => ?_) fun _ _ => rfl).trans (h.content_eq j)
      exact congrFun hptrs (j, k)
    · have hj : s.freeinode + 1 ≤ j := hj
      rw [update_of_ne (by omega)]
      exact h.free j (by omega)
  refine ⟨hlaid.winode hi hd, fun j => ?_⟩
  rw [show (s.ialloc t).ino = update s.ino s.freeinode d from Mkfs.ino_winode _ hi hd,
    update_apply]
  split
  · rename_i hj
    rw [hj, hempty]
    rfl
  · exact h.size j

theorem addrs_lt {v : Vol} (hown : Own sb v ino) (hused : (ino i).type ≠ none) {k : Nat}
    (hk : k ≤ ndirect) : (ino i).addrs k < 2 ^ 32 := by
  have hlt : ∀ x, ptrs ino v.data (i, x) < 2 ^ 32 := by
    intro x
    by_cases hzero : ptrs ino v.data (i, x) = 0
    · rw [hzero]
      exact Nat.two_pow_pos 32
    · exact (hown.range _ hzero).2.trans sb.size_lt
  rcases Nat.lt_or_eq_of_le hk with hk | rfl
  · have := hlt (some k)
    rwa [ptrs_of_used rfl hused, Dinode.ptr_direct _ _ hk] at this
  · have := hlt none
    rwa [ptrs_of_used rfl hused] at this

/-- Blocks that are enough to append `n` bytes. -/
def spare (n : Nat) : Nat := if n = 0 then 0 else 2 * blocks n + 2

theorem spare_le (n : Nat) : spare n ≤ 4 * n := by
  unfold spare blocks bsize
  split <;> omega

theorem le_spare (p : List Byte) (off : Nat) :
    (if p = [] then 0 else 2 * blocks (off % bsize + p.length)) ≤ spare p.length := by
  cases p with
  | nil => exact Nat.le_refl 0
  | cons c p =>
    rw [if_neg (List.cons_ne_nil c p), spare, if_neg (by simp)]
    unfold blocks bsize
    omega

theorem Built.iappend_run (h : Built sb s type content) (hi : type i ≠ none)
    (hmax : (content i).length + p.length ≤ maxfile * bsize) :
    ∃ s₁ d₁, iappendLoop p.length s (s.ino i) (content i).length p
        = .ok (s₁, d₁, (content i).length + p.length) ∧
      s.iappend i p = .ok (s₁.winode i { d₁ with size := (content i).length + p.length }) ∧
      s₁.freeblock ≤ s.freeblock + spare p.length := by
  obtain ⟨s₁, d₁, hrun, hle⟩ := iappendLoop_ok (s := s) (d := s.ino i) hmax (Nat.le_refl _)
  refine ⟨s₁, d₁, hrun, ?_, hle.trans (Nat.add_le_add_left (le_spare _ _) _)⟩
  unfold Mkfs.iappend
  rw [s.rinode_eq (h.lt_ninodes hi)]
  dsimp only
  rw [h.size, hrun]

section Append

variable {s₁ : Mkfs} {d₁ : Dinode}

/-- What the loop of `iappend` leaves: before the size is set, the inode already has its blocks. -/
theorem Laid.append (h : Laid sb s s.ino type content)
    (hw : Appended sb s s.ino i (s.ino i) (content i).length (content i).length p s₁ d₁)
    (hmono : s.freeblock ≤ s₁.freeblock ∧ s₁.freeinode = s.freeinode) :
    Laid sb s₁ (update s.ino i d₁) type (update content i (content i ++ p)) := by
  have hlen : max (content i).length ((content i).length + p.length)
      = (content i ++ p).length := by
    rw [List.length_append]
    omega
  refine ⟨h.layout, hw.written.own, hw.fresh, h.first.trans hmono.1, fun j => ?_, fun j => ?_,
    fun j => ?_, fun j hj => h.free j (hmono.2 ▸ hj), ?_⟩
  · rw [update_apply]
    split
    · rename_i hj
      rw [hj, ← h.type_eq, hw.written.addrs]
    · exact h.type_eq j
  · by_cases hj : j = i
    · subst hj
      rw [update_self, ← hlen]
      exact hw.written.covers
    · intro bn
      rw [update_of_ne hj, ← h.covers j bn]
      exact not_congr (Eq.congr_left (hw.written.others j hj _))
  · by_cases hj : j = i
    · subst hj
      rw [update_self, ← hlen]
      refine (hw.written.bytes_eq (Nat.le_refl _)).trans ?_
      rw [show bytes s.ino s.vol.data j 0 (content j).length = content j from h.content_eq j,
        splice, List.take_length, List.drop_of_length_le (Nat.le_add_right _ _), List.append_nil]
    · rw [update_of_ne hj]
      exact (bytes_congr (h.covers j) (hw.written.others j hj) (hw.written.data j hj)).trans
        (h.content_eq j)
  · rw [hw.before 1 (by rw [h.layout]; decide)]
    exact h.super

/-- The inode that `iappend` writes back fits its place on disk. -/
theorem Appended.stored {len off : Nat} (hw : Appended sb s s.ino i (s.ino i) len off p s₁ d₁)
    (hused : (s.ino i).type ≠ none) {size : Nat} (hsize : size < 2 ^ 32) :
    Dinode.Stored { d₁ with size := size } := by
  have hself : update s.ino i d₁ i = d₁ := update_self ..
  have htype : d₁.type = (s.ino i).type := by rw [hw.written.addrs]
  have hnlink : d₁.nlink = (s.ino i).nlink := by rw [hw.written.addrs]
  have hold := s.ino_stored i
  have haddrs : ∀ k, d₁.addrs k < 2 ^ 32 := by
    intro k
    rcases Nat.lt_or_ge ndirect k with hk | hk
    · rw [hw.rest k hk]
      exact hold.addrs k
    · have := addrs_lt hw.written.own (i := i) (by rwa [hself, htype]) hk
      rwa [hself] at this
  exact ⟨hsize, haddrs, fun k hk => (hw.rest k hk).trans (hold.rest k hk),
    show -32768 ≤ d₁.nlink ∧ d₁.nlink < 32768 from hnlink ▸ hold.nlink⟩

end Append

theorem Built.iappend (h : Built sb s type content) (hi : type i ≠ none)
    (hmax : (content i).length + p.length ≤ maxfile * bsize)
    (hroom : s.freeblock + spare p.length ≤ sb.size) :
    ∃ s', s.iappend i p = .ok s' ∧
      Built sb s' type (update content i (content i ++ p)) ∧
      s'.freeinode = s.freeinode ∧ s'.freeblock ≤ s.freeblock + spare p.length := by
  have hlt := h.lt_ninodes hi
  have hused : (s.ino i).type ≠ none := by rwa [h.type_eq]
  obtain ⟨s₁, d₁, hloop, hrun, hle⟩ := h.iappend_run hi hmax
  have hw := iappendLoop_written h.fresh h.own rfl hused (h.covers i) (Nat.le_refl _) h.first
    (Nat.le_refl _) hloop (hle.trans hroom)
  have hmono := iappendLoop_mono hloop
  have hino : s₁.ino = s.ino := Mkfs.ino_congr fun b hb => hw.before b (by rwa [h.layout])
  have hbig : maxfile * bsize < 2 ^ 32 := by decide
  have hd := hw.stored hused (Nat.lt_of_le_of_lt hmax hbig)
  refine ⟨_, hrun, ⟨Laid.winode ?_ hlt hd, fun j => ?_⟩, hmono.2, hle⟩
  · rw [hino]
    have hself : update s.ino i d₁ i = d₁ := update_self ..
    have hlaid := (h.toLaid.append hw hmono).set (i := i)
      (d := { d₁ with size := (content i).length + p.length }) (by rw [hself]) (by rw [hself])
    rwa [update_idem] at hlaid
  · rw [Mkfs.ino_winode _ hlt hd, hino, update_apply, update_apply]
    split
    · exact (List.length_append ..).symm
    · exact h.size j

theorem Built.appendAll :
    ∀ (chunks : List (List Byte)) {s : Mkfs} {content : Nat → List Byte},
      Built sb s type content → type i ≠ none →
      (content i).length + chunks.flatten.length ≤ maxfile * bsize →
      s.freeblock + 4 * chunks.flatten.length ≤ sb.size →
      ∃ s', appendAll i chunks s = .ok s' ∧
        Built sb s' type (update content i (content i ++ chunks.flatten)) ∧
        s'.freeinode = s.freeinode ∧ s'.freeblock ≤ s.freeblock + 4 * chunks.flatten.length := by
  intro chunks
  induction chunks with
  | nil =>
    intro s content h _ _ _
    refine ⟨s, rfl, ?_, rfl, Nat.le_add_right _ _⟩
    rwa [List.flatten_nil, List.append_nil, update_eq_self]
  | cons c cs ih =>
    intro s content h hi hmax hroom
    have hspare := spare_le c.length
    rw [List.flatten_cons, List.length_append] at hmax hroom
    obtain ⟨s₁, hrun, h1, hfree, hle⟩ := h.iappend hi (p := c) (by omega) (by omega)
    obtain ⟨s', hrest, h', hfree', hle'⟩ := ih h1 hi
      (by rw [update_self, List.length_append]; omega) (by omega)
    refine ⟨s', ?_, ?_, hfree'.trans hfree, ?_⟩
    · rw [Fs.appendAll, hrun]
      exact hrest
    · rwa [update_self, update_idem, List.append_assoc] at h'
    · rw [List.flatten_cons, List.length_append]
      omega

end Steps

/-! ## The files -/

/-- The entries of the files, the first of which is inode `i`. -/
def rootEntries : Nat → List InputFile → List Byte
  | _, [] => []
  | i, f :: files => dirent i f.name ++ rootEntries (i + 1) files

/-- The bytes of the root directory. -/
def rootBytes (files : List InputFile) : List Byte :=
  dirent rootino dot ++ dirent rootino dotdot ++ rootEntries 2 files

/-- The types of the inodes in an image with `n` files. -/
def typeOf (n i : Nat) : Option FileType :=
  if i = rootino then some .dir else if 2 ≤ i ∧ i < n + 2 then some .file else none

/-- The bytes of the inodes in an image with these files. -/
def contentOf (files : List InputFile) (i : Nat) : List Byte :=
  if i = rootino then rootBytes files
  else if 2 ≤ i then (files[i - 2]?.map InputFile.content).getD [] else []

theorem rootEntries_concat (files : List InputFile) (f : InputFile) (i : Nat) :
    rootEntries i (files ++ [f]) = rootEntries i files ++ dirent (i + files.length) f.name := by
  induction files generalizing i with
  | nil => simp [rootEntries]
  | cons g files ih =>
    rw [List.cons_append, rootEntries, rootEntries, ih, List.append_assoc, List.length_cons,
      Nat.add_right_comm, Nat.add_assoc i]

theorem length_rootEntries (files : List InputFile) (i : Nat) :
    (rootEntries i files).length = 16 * files.length := by
  induction files generalizing i with
  | nil => rfl
  | cons f files ih =>
    rw [rootEntries, List.length_append, length_dirent, ih, List.length_cons, deSize]
    omega

theorem length_rootBytes (files : List InputFile) :
    (rootBytes files).length = 16 * (files.length + 2) := by
  rw [rootBytes, List.length_append, List.length_append, length_dirent, length_dirent,
    length_rootEntries, deSize]
  omega

theorem typeOf_succ (n : Nat) :
    update (typeOf n) (n + 2) (some .file) = typeOf (n + 1) := by
  funext i
  rw [update_apply]
  unfold typeOf rootino
  grind

theorem contentOf_concat (files : List InputFile) (f : InputFile) :
    update (update (contentOf files) rootino
        (contentOf files rootino ++ dirent (files.length + 2) f.name))
      (files.length + 2) f.content = contentOf (files ++ [f]) := by
  funext i
  rw [update_apply, update_apply]
  by_cases hi : i = files.length + 2
  · subst hi
    simp [contentOf, rootino]
  rw [if_neg hi]
  by_cases hroot : i = rootino
  · subst hroot
    rw [if_pos rfl, contentOf, if_pos rfl, contentOf, if_pos rfl, rootBytes, rootBytes,
      rootEntries_concat, Nat.add_comm 2, List.append_assoc _ (rootEntries 2 files)]
  rw [if_neg hroot]
  simp only [contentOf, if_neg hroot]
  split
  · have : files[i - 2]? = (files ++ [f])[i - 2]? := by
      rcases Nat.lt_or_ge (i - 2) files.length with hlt | hge
      · rw [List.getElem?_append_left hlt]
      · rw [List.getElem?_eq_none hge, List.getElem?_eq_none]
        rw [List.length_append, List.length_singleton]
        omega
    rw [this]
  · rfl

section Files

variable {sb : Superblock} {s : Mkfs} {files : List InputFile} {f : InputFile}

theorem Built.addFile (h : Built sb s (typeOf files.length) (contentOf files))
    (hfree : s.freeinode = files.length + 2) (hino : files.length + 2 < ninodes)
    (hsize : f.content.length ≤ maxfile * bsize) (hslash : slash ∉ f.arg)
    (hroom : s.freeblock + (4 + 4 * f.content.length) ≤ sb.size) :
    ∃ s', s.addFile f = .ok s' ∧
      Built sb s' (typeOf (files.length + 1)) (contentOf (files ++ [f])) ∧
      s'.freeinode = files.length + 3 ∧
      s'.freeblock ≤ s.freeblock + (4 + 4 * f.content.length) := by
  have hde : spare (dirent (files.length + 2) f.name).length = 4 := by
    rw [length_dirent]
    rfl
  have hbig : maxfile * bsize = 71680 := rfl
  have hroot : (contentOf files rootino).length = 16 * (files.length + 2) := length_rootBytes files
  have h1 := h.ialloc (by rwa [hfree]) .file
  rw [hfree, typeOf_succ] at h1
  obtain ⟨s2, hrun2, h2, hfree2, hle2⟩ := h1.iappend (i := rootino)
    (p := dirent (files.length + 2) f.name) nofun
    (by rw [hroot, length_dirent, deSize]; unfold ninodes at hino; omega)
    (by rw [hde]; exact Nat.le_trans (by show s.freeblock + 4 ≤ _; omega) hroom)
  rw [hde] at hle2
  have hle2 : s2.freeblock ≤ s.freeblock + 4 := hle2
  have hempty : contentOf files (files.length + 2) = [] := by
    simp [contentOf, rootino]
  have hother : update (contentOf files) rootino
      (contentOf files rootino ++ dirent (files.length + 2) f.name) (files.length + 2) = [] := by
    rw [update_of_ne (by unfold rootino; omega), hempty]
  obtain ⟨s3, hrun3, h3, hfree3, hle3⟩ := Built.appendAll (i := files.length + 2)
    f.chunks h2 (by unfold typeOf rootino; grind)
    (by rw [hother]; exact (Nat.zero_add _).trans_le hsize)
    (by rw [InputFile.content] at hroom; omega)
  refine ⟨s3, ?_, ?_, ?_, ?_⟩
  · unfold Mkfs.addFile
    rw [if_neg hslash, hfree]
    dsimp only
    rw [hrun2]
    exact hrun3
  · rw [hother, List.nil_append] at h3
    rwa [← contentOf_concat]
  · rw [hfree3, hfree2]
    show s.freeinode + 1 = _
    omega
  · rw [InputFile.content]
    omega

/-- Blocks that are enough for the files. -/
def spareFor (files : List InputFile) : Nat := (files.map fun f => 4 + 4 * f.content.length).sum

/-- Either a name has a slash, and `mkfs` stops, or all the files are added. -/
theorem Built.addFiles :
    ∀ {files done : List InputFile} {s : Mkfs},
      Built sb s (typeOf done.length) (contentOf done) → s.freeinode = done.length + 2 →
      done.length + files.length + 2 ≤ ninodes →
      (∀ f ∈ files, f.content.length ≤ maxfile * bsize) →
      s.freeblock + spareFor files ≤ sb.size →
      ((∃ f ∈ files, slash ∈ f.arg) ∧ ∃ e, addFiles files s = .error e) ∨
      ∃ s', addFiles files s = .ok s' ∧
        Built sb s' (typeOf (done ++ files).length) (contentOf (done ++ files)) ∧
        s'.freeblock ≤ s.freeblock + spareFor files := by
  intro files
  induction files with
  | nil =>
    intro done s h _ _ _ _
    refine .inr ⟨s, rfl, ?_, Nat.le_add_right _ _⟩
    rwa [List.append_nil]
  | cons f files ih =>
    intro done s h hfree hino hsize hroom
    rw [List.length_cons] at hino
    have hcost : spareFor (f :: files) = 4 + 4 * f.content.length + spareFor files := by
      simp [spareFor]
    by_cases hslash : slash ∈ f.arg
    · refine .inl ⟨⟨f, List.mem_cons_self, hslash⟩, .panic "index(argv[i], '/') == 0", ?_⟩
      rw [Fs.addFiles, Mkfs.addFile, if_pos hslash]
    obtain ⟨s₁, hrun, h1, hfree1, hle⟩ := h.addFile hfree (by omega)
      (hsize f List.mem_cons_self) hslash (by omega)
    have hlen : (done ++ [f]).length = done.length + 1 := by simp
    have hstep : Fs.addFiles (f :: files) s = Fs.addFiles files s₁ := by
      rw [Fs.addFiles, hrun]
    rcases @ih (done ++ [f]) s₁ (by rwa [hlen]) (by omega) (by omega)
      (fun g hg => hsize g (List.mem_cons_of_mem f hg)) (by omega) with
      ⟨⟨g, hg, hgs⟩, e, he⟩ | ⟨s', hrest, h', hle'⟩
    · exact .inl ⟨⟨g, List.mem_cons_of_mem f hg, hgs⟩, e, hstep.trans he⟩
    · rw [List.append_assoc, List.singleton_append] at h'
      exact .inr ⟨s', hstep.trans hrest, h', by omega⟩

end Files

/-! ## The image -/

theorem Mkfs.init_img {b : Nat} (h : b ≠ 1) : Mkfs.init.img b = fun _ => 0#8 := by
  unfold Mkfs.init
  dsimp only
  rw [update_of_ne h]

theorem Mkfs.init_ino (i : Nat) : (Mkfs.init.ino i).type = none ∧ (Mkfs.init.ino i).size = 0 := by
  unfold Mkfs.ino inodes
  split
  · rename_i hi
    rw [Mkfs.init_img (iblock_bounds hi).2.1]
    exact ⟨rfl, rfl⟩
  · exact ⟨rfl, rfl⟩

theorem built_init {sb : Superblock} (hsb : sb.first = nmeta) :
    Built sb Mkfs.init (fun _ => none) fun _ => [] := by
  have hptrs : ∀ k, ptrs Mkfs.init.ino Mkfs.init.img k = 0 := fun k =>
    if_pos (Mkfs.init_ino k.1).1
  refine ⟨⟨hsb, ⟨fun k hk => absurd (hptrs k) hk, fun k _ hk => absurd (hptrs k) hk,
    fun b hb _ => ?_, fun b hb => ?_⟩, fun b hb => ?_, hsb.le, fun i => (Mkfs.init_ino i).1,
    fun i bn => ?_, fun _ => rfl, fun _ _ => rfl, rfl⟩, fun i => (Mkfs.init_ino i).2⟩
  · have hpos := sb.first_pos
    constructor
    · intro h
      have h : b < nmeta := of_decide_eq_true h
      omega
    · rintro ⟨k, rfl⟩
      exact absurd (hb.trans_eq (hptrs k)) (by omega)
  · exact decide_eq_true (show b < nmeta by omega)
  · have hne : b ≠ 1 := by
      have hb : nmeta ≤ b := hb
      have hmeta : nmeta = 59 := by decide
      omega
    exact Mkfs.init_img hne
  · simp [hptrs]

/-- A list of files that fits the image. That the root directory has at most `MAXFILE` blocks
follows from the number of inodes. -/
structure Fits (files : List InputFile) : Prop where
  inodes : files.length + 2 ≤ ninodes
  sizes : ∀ f ∈ files, f.content.length ≤ maxfile * bsize
  blocks : ∀ s, build files = .ok s → s.freeblock ≤ fssize

theorem spareFor_le {files : List InputFile} {m : Nat}
    (h : ∀ f ∈ files, f.content.length ≤ m) : spareFor files ≤ files.length * (4 + 4 * m) := by
  have := List.sum_le_card_nsmul (files.map fun f => 4 + 4 * f.content.length) (4 + 4 * m) (by
    intro x hx
    obtain ⟨f, hf, rfl⟩ := List.mem_map.mp hx
    have := h f hf
    omega)
  rwa [List.length_map, nsmul_eq_mul, Nat.cast_id] at this

/-- `main` up to the last file, on any volume with this layout that is large enough. -/
theorem build_built {sb : Superblock} (hsb : sb.first = nmeta) {files : List InputFile}
    (hino : files.length + 2 ≤ ninodes)
    (hsize : ∀ f ∈ files, f.content.length ≤ maxfile * bsize)
    (hroom : nmeta + 8 + spareFor files ≤ sb.size) :
    ((∃ f ∈ files, slash ∈ f.arg) ∧ ∃ e, build files = .error e) ∨
    ∃ s, build files = .ok s ∧ Built sb s (typeOf files.length) (contentOf files) ∧
      s.freeblock ≤ nmeta + 8 + spareFor files := by
  have hde : ∀ name, spare (dirent rootino name).length = 4 := by
    intro name
    rw [length_dirent]
    rfl
  have hbig : maxfile * bsize = 71680 := rfl
  have h1 := (built_init hsb).ialloc (by decide) .dir
  have htype : update (fun _ => none) Mkfs.init.freeinode (some FileType.dir)
      = typeOf 0 := by
    funext i
    rw [update_apply]
    unfold typeOf rootino
    rw [show Mkfs.init.freeinode = 1 from rfl]
    grind
  rw [htype] at h1
  obtain ⟨s2, hrun2, h2, hfree2, hle2⟩ := h1.iappend (i := rootino) (p := dirent rootino dot)
    nofun (by rw [length_dirent, deSize]; exact Nat.le_of_ble_eq_true rfl)
    (by rw [hde]; exact Nat.le_trans (by show nmeta + 4 ≤ _; omega) hroom)
  rw [hde] at hle2
  have hle2 : s2.freeblock ≤ nmeta + 4 := hle2
  obtain ⟨s3, hrun3, h3, hfree3, hle3⟩ := h2.iappend (i := rootino)
    (p := dirent rootino dotdot) nofun
    (by
      rw [update_self, List.length_append, length_dirent, length_dirent, deSize]
      exact Nat.le_of_ble_eq_true rfl)
    (by rw [hde]; omega)
  rw [hde] at hle3
  have hcontent : update (update (fun _ => []) rootino
      ([] ++ dirent rootino dot)) rootino
      (update (fun _ => []) rootino ([] ++ dirent rootino dot) rootino
        ++ dirent rootino dotdot) = contentOf [] := by
    funext i
    rw [update_idem, update_self, update_apply, List.nil_append]
    unfold contentOf
    split
    · rw [rootBytes, rootEntries, List.append_nil]
    · simp
  rw [hcontent] at h3
  have hfree : s3.freeinode = ([] : List InputFile).length + 2 := hfree3.trans hfree2
  have hstep : build files = addFiles files s3 := by
    unfold build
    rw [hrun2]
    dsimp only
    rw [hrun3]
  rw [hstep]
  rcases h3.addFiles hfree (by simpa using hino) hsize (by omega) with h | ⟨s, hrun, h, hle⟩
  · exact .inl h
  · exact .inr ⟨s, hrun, h, by omega⟩

/-- The widest volume with this layout. `mkfs` does not check that an image stays within `FSSIZE`
while it is written, its file only becomes longer. -/
def wideSb : Superblock := ⟨4294967295, 4294967236, 200, by decide, by decide⟩

theorem wideSb_first : wideSb.first = nmeta := by decide

/-- Where no more than `FSSIZE` blocks are given out, the volume is that of the superblock. -/
theorem Own.narrow {s : Mkfs} {ino : Nat → Dinode} (h : Own wideSb s.vol ino)
    (hle : s.freeblock ≤ fssize) : Own mkfsSb s.vol ino where
  range k hk := by
    have hbit : ptrs ino s.vol.data k < s.freeblock := of_decide_eq_true (h.bit_own hk)
    exact ⟨(h.range k hk).1, hbit.trans_le hle⟩
  inj := h.inj
  bits b hb hlt := h.bits b hb (hlt.trans (by decide))
  below := h.below

theorem Built.narrow {s : Mkfs} {type : Nat → Option FileType} {content : Nat → List Byte}
    (h : Built wideSb s type content) (hle : s.freeblock ≤ fssize) : Built mkfsSb s type content :=
  { h with layout := rfl, own := h.own.narrow hle }

theorem Fits.built {files : List InputFile} (h : Fits files) :
    ((∃ f ∈ files, slash ∈ f.arg) ∧ ∃ e, build files = .error e) ∨
    ∃ s, build files = .ok s ∧ Built mkfsSb s (typeOf files.length) (contentOf files) ∧
      s.freeblock ≤ fssize := by
  have hspare := spareFor_le h.sizes
  have hino := h.inodes
  have hroom : nmeta + 8 + spareFor files ≤ wideSb.size := by
    have hbig : maxfile * bsize = 71680 := rfl
    have hmeta : nmeta = 59 := by decide
    have hsize : wideSb.size = 4294967295 := rfl
    rw [hbig] at hspare
    rw [hmeta, hsize]
    unfold ninodes at hino
    omega
  rcases build_built wideSb_first h.inodes h.sizes hroom with herr | ⟨s, hrun, hb, -⟩
  · exact .inl herr
  · exact .inr ⟨s, hrun, hb.narrow (h.blocks s hrun), h.blocks s hrun⟩

/-! ## The root's size and the bitmap -/

/-- The sizes of the inodes in the end. -/
def sizeIn (files : List InputFile) (i : Nat) : Nat :=
  if i = rootino then ((rootBytes files).length / bsize + 1) * bsize else (contentOf files i).length

/-- The image of `mkfs`. -/
structure Made (files : List InputFile) (s : Mkfs) : Prop
    extends Laid mkfsSb s s.ino (typeOf files.length) (contentOf files) where
  size : ∀ i, (s.ino i).size = sizeIn files i
  used : s.freeblock ≤ fssize
  map : s.img bmapstart = bitmap s.freeblock

theorem Built.fixRoot {s : Mkfs} {files : List InputFile}
    (h : Built mkfsSb s (typeOf files.length) (contentOf files))
    (hino : files.length + 2 ≤ ninodes) :
    Laid mkfsSb s.fixRoot s.fixRoot.ino (typeOf files.length) (contentOf files) ∧
      ∀ i, (s.fixRoot.ino i).size = sizeIn files i := by
  have hroot : rootino < ninodes := by decide
  have hold : (s.ino rootino).size = (rootBytes files).length := h.size rootino
  have hfix : s.fixRoot = s.winode rootino { s.ino rootino with size := sizeIn files rootino } := by
    unfold Mkfs.fixRoot
    rw [s.rinode_eq hroot]
    dsimp only
    rw [hold]
    rfl
  have hd : Dinode.Stored { s.ino rootino with size := sizeIn files rootino } := by
    have hst := s.ino_stored rootino
    refine ⟨?_, hst.addrs, hst.rest, hst.nlink⟩
    show ((rootBytes files).length / bsize + 1) * bsize < 2 ^ 32
    rw [length_rootBytes]
    unfold ninodes at hino
    unfold bsize
    omega
  rw [hfix]
  have hlaid := h.toLaid.set (i := rootino)
    (d := { s.ino rootino with size := sizeIn files rootino }) rfl rfl
  refine ⟨hlaid.winode hroot hd, fun i => ?_⟩
  rw [Mkfs.ino_winode _ hroot hd, update_apply]
  by_cases hi : i = rootino
  · rw [if_pos hi, hi]
  · rw [if_neg hi, h.size, sizeIn, if_neg hi]

theorem Laid.made {s : Mkfs} {files : List InputFile}
    (h : Laid mkfsSb s s.ino (typeOf files.length) (contentOf files))
    (hsize : ∀ i, (s.ino i).size = sizeIn files i) (hle : s.freeblock ≤ fssize) :
    ∃ s', s.writeBitmap = .ok s' ∧ Made files s' := by
  have hlt : s.freeblock < bsize * 8 := by
    unfold fssize at hle
    unfold bsize
    omega
  have hino : Mkfs.ino { s with img := update s.img bmapstart (bitmap s.freeblock) }
      = s.ino := by
    funext i
    unfold Mkfs.ino Fs.inodes
    split
    · rename_i hi
      dsimp only
      rw [update_of_ne (iblock_bounds hi).2.2]
    · rfl
  refine ⟨_, if_pos hlt, ?_, ?_, hle, ?_⟩
  · rw [hino]
    exact h.write (by decide) (by decide) _
  · rw [hino]
    exact hsize
  · dsimp only
    rw [update_self]

theorem Fits.made {files : List InputFile} (h : Fits files) :
    ((∃ f ∈ files, slash ∈ f.arg) ∧ ∃ e, mkfs files = .error e) ∨
    ∃ s, mkfs files = .ok s ∧ Made files s := by
  rcases h.built with ⟨hslash, e, he⟩ | ⟨s, hrun, hb, hle⟩
  · exact .inl ⟨hslash, e, by rw [mkfs, he]⟩
  · obtain ⟨hlaid, hsize⟩ := hb.fixRoot h.inodes
    obtain ⟨s', hrun', hmade⟩ := hlaid.made hsize hle
    exact .inr ⟨s', by rw [mkfs, hrun]; exact hrun', hmade⟩

/-! ## The image as the kernel sees it -/

/-- `readsb`: word `k` of the superblock. -/
def readsb (img : Image) (k : Nat) : Nat := wordAt (img 1) k

/-- The inodes, as `ilock` reads them. -/
def imgIno (img : Image) : Nat → Dinode := inodes (readsb img 5) (readsb img 2) img

/-- The bit of block `b`, as `balloc` and `bfree` read it. -/
def imgBit (img : Image) (b : Nat) : Bool :=
  (img (b / (bsize * 8) + readsb img 6) (b % (bsize * 8) / 8)).getLsbD (b % 8)

/-- The kernel's invariant for the blocks of an image whose superblock is that of `mkfs`: pointers
are distinct data blocks of the volume, the bitmap has these and the blocks before the data, and the
pointers of an inode are those of its size. -/
structure Consistent (img : Image) : Prop where
  super : readsb img 0 = mkfsSb.size ∧ readsb img 1 = mkfsSb.nblocks ∧ readsb img 2 = mkfsSb.ninodes
  own : Own mkfsSb ⟨imgBit img, img⟩ (imgIno img)
  covers : ∀ i, (imgIno img i).type ≠ none → Covers (imgIno img) img i (imgIno img i).size

theorem foldl_bits {P : Nat → Prop} [DecidablePred P] {j : Nat} (hj : j < 8) (l : List Nat)
    (x : Byte) :
    (l.foldl (fun x i => if P i then x ||| (1#8 <<< i) else x) x).getLsbD j
      = (x.getLsbD j || decide (j ∈ l ∧ P j)) := by
  induction l generalizing x with
  | nil => simp
  | cons i l ih =>
    rw [List.foldl_cons, ih]
    by_cases hP : P i
    · by_cases hij : j = i
      · subst hij
        simp [hP, hj]
      · have hbit : (1#8 <<< i).getLsbD j = false := by
          rw [BitVec.getLsbD_shiftLeft, BitVec.getLsbD_one]
          grind
        simp [hP, hij, hbit]
    · have : (j ∈ i :: l ∧ P j) ↔ (j ∈ l ∧ P j) := by
        constructor
        · rintro ⟨hmem, hPj⟩
          rcases List.mem_cons.mp hmem with rfl | hmem
          · exact absurd hPj hP
          · exact ⟨hmem, hPj⟩
        · exact fun h => ⟨List.mem_cons_of_mem i h.1, h.2⟩
      rw [if_neg hP, decide_eq_decide.mpr this]

theorem bitmap_bit (used b : Nat) : (bitmap used (b / 8)).getLsbD (b % 8) = decide (b < used) := by
  have hj : b % 8 < 8 := Nat.mod_lt b (by decide)
  unfold bitmap
  rw [foldl_bits (P := fun i => b / 8 * 8 + i < used) hj, BitVec.getLsbD_zero, Bool.false_or,
    decide_eq_decide, Nat.div_add_mod']
  exact and_iff_right (List.mem_range.mpr hj)

section Made

variable {files : List InputFile} {s : Mkfs}

theorem Made.readsb_eq (h : Made files s) (k : Nat) : readsb s.img k = readsb Mkfs.init.img k := by
  unfold readsb
  rw [h.super]

theorem Made.imgIno_eq (h : Made files s) : imgIno s.img = s.ino := by
  unfold imgIno Mkfs.ino
  rw [h.readsb_eq, h.readsb_eq]
  rfl

theorem Made.imgBit_eq (h : Made files s) {b : Nat} (hb : b < fssize) :
    imgBit s.img b = s.vol.bit b := by
  have hlt : b < bsize * 8 := by
    unfold fssize at hb
    unfold bsize
    omega
  have hmap : readsb Mkfs.init.img 6 = bmapstart := by decide
  unfold imgBit
  rw [Nat.div_eq_of_lt hlt, Nat.mod_eq_of_lt hlt, Nat.zero_add, h.readsb_eq, hmap, h.map,
    bitmap_bit]
  rfl

theorem Made.own_img (h : Made files s) : Own mkfsSb ⟨imgBit s.img, s.img⟩ (imgIno s.img) := by
  have hbit : ∀ b, b < mkfsSb.size → imgBit s.img b = s.vol.bit b := fun b hb => h.imgBit_eq hb
  have hown := h.own
  rw [h.imgIno_eq]
  refine ⟨hown.range, hown.inj, fun b hb hlt => ?_, fun b hb => ?_⟩
  · show imgBit s.img b = true ↔ _
    rw [hbit b hlt]
    exact hown.bits b hb hlt
  · exact (hbit b (hb.trans (by decide))).trans (hown.below b hb)

/-- The size of the root is that of one block more than the last that is full. -/
theorem covers_round {ino : Nat → Dinode} {data : Nat → Sector} {i len : Nat}
    (h : Covers ino data i len) :
    Covers ino data i ((len / bsize + 1) * bsize) ↔ len % bsize ≠ 0 := by
  unfold Covers at h ⊢
  unfold bsize at *
  constructor
  · intro h' hzero
    have := (h _).mp ((h' (len / 512)).mpr (by omega))
    omega
  · intro hne bn
    rw [h]
    omega

theorem Made.consistent_iff (h : Made files s) :
    Consistent s.img ↔ (files.length + 2) % 32 ≠ 0 := by
  have hround := covers_round (h.covers rootino)
  have hlen : (contentOf files rootino).length = 16 * (files.length + 2) := length_rootBytes files
  have hmod : (contentOf files rootino).length % bsize ≠ 0 ↔ (files.length + 2) % 32 ≠ 0 := by
    rw [hlen, bsize]
    omega
  rw [← hmod, ← hround]
  have hcov : ∀ i, i ≠ rootino → Covers s.ino s.img i (s.ino i).size := by
    intro i hi
    rw [h.size, sizeIn, if_neg hi]
    exact h.covers i
  constructor
  · intro hc
    have := hc.covers rootino
    rw [h.imgIno_eq, h.size] at this
    exact this (by rw [h.type_eq]; nofun)
  intro hc
  refine ⟨⟨?_, ?_, ?_⟩, h.own_img, fun i _ => ?_⟩
  · exact (h.readsb_eq 0).trans (by decide)
  · exact (h.readsb_eq 1).trans (by decide)
  · exact (h.readsb_eq 2).trans (by decide)
  · rw [h.imgIno_eq]
    by_cases hi : i = rootino
    · subst hi
      rw [h.size]
      exact hc
    · exact hcov i hi

end Made

/-- The image of `mkfs` is as the kernel wants it when the entries of the root directory do not end
with a block. -/
theorem mkfs_consistent_iff (files : List InputFile) (h : Fits files) :
    ((∃ f ∈ files, slash ∈ f.arg) ∧ ∃ e, mkfs files = .error e) ∨
    ∃ s, mkfs files = .ok s ∧ (Consistent s.img ↔ (files.length + 2) % 32 ≠ 0) := by
  rcases h.made with herr | ⟨s, hrun, hm⟩
  · exact .inl herr
  · exact .inr ⟨s, hrun, hm.consistent_iff⟩

theorem fits_of_few {files : List InputFile} (hino : files.length + 2 ≤ ninodes)
    (hsize : ∀ f ∈ files, f.content.length ≤ maxfile * bsize)
    (hroom : nmeta + 8 + spareFor files ≤ fssize) : Fits files := by
  refine ⟨hino, hsize, fun s hrun => ?_⟩
  rcases build_built (show mkfsSb.first = nmeta from rfl) hino hsize hroom with
    ⟨-, e, he⟩ | ⟨s', hrun', -, hle⟩
  · rw [he] at hrun
    cases hrun
  · rw [hrun'] at hrun
    cases hrun
    exact hle.trans hroom

theorem mkfs_consistent_iff_one :
    ∃ s, mkfs [⟨[95#8, 97#8], [[1#8], [2#8, 3#8]]⟩] = .ok s ∧ Consistent s.img := by
  have hfits : Fits [⟨[95#8, 97#8], [[1#8], [2#8, 3#8]]⟩] :=
    fits_of_few (by decide) (by decide) (by decide)
  rcases mkfs_consistent_iff _ hfits with ⟨⟨f, hf, hslash⟩, -⟩ | ⟨s, hrun, hiff⟩
  · obtain rfl := List.mem_singleton.mp hf
    exact absurd hslash (by decide)
  · exact ⟨s, hrun, hiff.mpr (by decide)⟩

/-- Thirty empty files. -/
def thirty : List InputFile := (List.range 30).map fun k => ⟨[BitVec.ofNat 8 (97 + k)], []⟩

/-- With thirty files the entries fill one block, and the root directory is said to have two. -/
theorem mkfs_root_hole :
    Fits thirty ∧ (thirty.map fun f => cname f.name).Nodup ∧
    ∃ s, mkfs thirty = .ok s ∧ (imgIno s.img rootino).type = some .dir ∧
      (imgIno s.img rootino).size = 2 * bsize ∧ (imgIno s.img rootino).ptr s.img (some 1) = 0 := by
  have hfits : Fits thirty := fits_of_few (by decide) (by decide) (by decide)
  refine ⟨hfits, by decide +kernel, ?_⟩
  rcases hfits.made with ⟨⟨f, hf, hslash⟩, -⟩ | ⟨s, hrun, hm⟩
  · exact absurd hslash (by revert f; decide)
  · have htype : (s.ino rootino).type = some .dir := hm.type_eq rootino
    have hlen : (rootBytes thirty).length = bsize := length_rootBytes thirty
    refine ⟨s, hrun, ?_⟩
    rw [hm.imgIno_eq]
    refine ⟨htype, (hm.size rootino).trans ?_, ?_⟩
    · rw [sizeIn, if_pos rfl, hlen]
      decide
    · have hcov := (hm.covers rootino 1).not
      rw [not_not, ptrs_of_used rfl (by rw [htype]; nofun), contentOf, if_pos rfl, hlen,
        Nat.one_mul] at hcov
      exact hcov.mpr (Nat.lt_irrefl bsize)

end Xv6Mmap.Fs
