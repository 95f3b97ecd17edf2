import Xv6Mmap.FsRefs

/-!
# Files as byte arrays (`file.c:93-156`)

What is left of `fileread` and `filewrite` on a regular file when blocks, transactions and locks are
forgotten: an array of bytes for every inode, and an offset for every open file.

* `fileread_spec`: a read returns the bytes from the offset on, as many as there are, and moves the
  offset behind them.
* `filewrite_spec`: a write in pieces of `maxWrite` bytes is one write. Its pieces are put together by
  `splice_splice`; `State.enough` says that there are blocks for the last of them.
* `files_are_arrays`: over every sequence of reads and writes, the results are those of the arrays.
-/

namespace Xv6Mmap.Fs

open Lib
open Function (update update_self update_of_ne update_eq_self update_idem)

/-- Between two operations: the disk is well formed, and nobody holds a lock. -/
structure Settled (s : State) : Prop where
  disk : Disk s
  nonneg : ∀ b, 0 ≤ (s.inode b).ref
  unlocked : ∀ b, (s.inode b).locked = false

/-- The file `f` is open on inode `i`, which is `m` and not a device. -/
structure State.Opens (s : State) (f : Fin nfile) (i : Nat) (m : Node) : Prop where
  kind : (s.file f).kind = .inode
  ref : 0 < (s.inode (s.file f).ip).ref
  inum : (s.inode (s.file f).ip).inum = i
  node : s.nodes i = some m
  type : m.type ≠ .dev

/-- What reading and writing leave alone. -/
structure Unmoved (s s' : State) : Prop where
  sb : s'.sb = s.sb
  proc : s'.proc = s.proc
  ref : ∀ b, (s'.inode b).ref = (s.inode b).ref
  inum : ∀ b, (s'.inode b).inum = (s.inode b).inum

theorem Unmoved.refl (s : State) : Unmoved s s := ⟨rfl, rfl, fun _ => rfl, fun _ => rfl⟩

theorem Unmoved.trans {s s₁ s₂ : State} (h : Unmoved s s₁) (h' : Unmoved s₁ s₂) : Unmoved s s₂ :=
  ⟨h'.sb.trans h.sb, h'.proc.trans h.proc, fun b => (h'.ref b).trans (h.ref b),
    fun b => (h'.inum b).trans (h.inum b)⟩

theorem Unmoved.slot {s : State} {a : Fin ninode} {x : Inode} (href : x.ref = (s.inode a).ref)
    (hinum : x.inum = (s.inode a).inum) : Unmoved s (s.slot a x) := by
  refine ⟨rfl, rfl, fun b => ?_, fun b => ?_⟩ <;> by_cases hb : b = a
  · subst hb
    rw [slot_self, href]
  · rw [slot_of_ne _ _ hb]
  · subst hb
    rw [slot_self, hinum]
  · rw [slot_of_ne _ _ hb]

section Locks

variable {s : State} {a : Fin ninode}

/-- `ilock(ip)` of an inode in use that nobody has locked returns. -/
theorem Settled.lock (hs : Settled s) (hpos : 0 < (s.inode a).ref)
    (hused : (s.dinode (s.inode a).inum).type ≠ none) :
    Wp (ilock a) s
      (fun _ s' => s' = s.slot a (s.locked a) ∧ Disk s' ∧ s'.nodes = s.nodes ∧
        Held (fun b => (s.inode b).ref) [a] s')
      fun _ => False := by
  have hheld : Held (fun b => (s.inode b).ref) [] s :=
    ⟨fun _ => rfl, hs.nonneg, fun _ h => absurd h List.not_mem_nil⟩
  refine ((ilock_spec (s := s) (a := a)).and (ilock_held hheld fun b => (s.inode b).ref)).mono ?_ ?_
  · rintro - s' ⟨⟨-, -, -, hs'⟩, -, hheld', hkeeps⟩
    obtain ⟨hdisk, hnodes⟩ := hkeeps.disk hs.disk
    exact ⟨hs', hdisk, hnodes.symm, hheld'⟩
  · rintro - ⟨href | hlock | ⟨-, hnone⟩, -⟩
    · omega
    · rw [hs.unlocked a] at hlock
      cases hlock
    · exact absurd hnone hused

theorem Settled.unlock {G : Fin ninode → Int} (hd : Disk s) (hheld : Held G [a] s)
    (hother : ∀ b, b ≠ a → (s.inode b).locked = false) :
    Wp (iunlock a) s
      (fun _ s' => s' = s.slot a { s.inode a with locked := false } ∧ Settled s' ∧
        s'.nodes = s.nodes)
      fun _ => False := by
  obtain ⟨hlock, -, hpos⟩ := hheld.lock a (List.mem_singleton_self a)
  refine (iunlock_spec.and
    (iunlock_held hheld (fun _ => 0) [] nofun List.not_mem_nil)).mono ?_ ?_
  · rintro - s' ⟨rfl, hheld', hkeeps⟩
    obtain ⟨hdisk, hnodes⟩ := hkeeps.disk hd
    refine ⟨rfl, ⟨hdisk, fun b => ?_, fun b => ?_⟩, hnodes.symm⟩
    · rw [hheld'.ref b]
      exact hheld'.nonneg b
    · by_cases hb : b = a
      · subst hb
        rw [slot_self]
      · rw [slot_of_ne _ _ hb]
        exact hother b hb
  · rintro - ⟨hfree | href, -⟩
    · rw [hlock] at hfree
      cases hfree
    · rw [hheld.ref a] at href
      omega

end Locks

/-! ## Offsets -/

/-- The state in which the offset of `f` has moved by `n` bytes. -/
def State.advance (s : State) (f : Fin nfile) (n : Nat) : State :=
  s.withFile f { s.file f with off := (s.file f).off + n }

theorem wp_advance {s : State} {f : Fin nfile} {r : Int} {Q : Unit → State → Prop}
    {E : Halt → Prop} {x : File} (hx : x = s.file f) :
    Wp (when (0 < r) (setFile f { x with off := x.off + r.toNat })) s Q E ↔
      Q ⟨⟩ (s.advance f r.toNat) := by
  rw [wp_when, hx]
  split
  · rfl
  · rename_i hr
    have hzero : r.toNat = 0 := by omega
    have hsame : s.advance f 0 = s := by
      unfold State.advance State.withFile
      rw [Nat.add_zero, update_eq_self]
    rw [hzero, hsame]

theorem Unmoved.advance (s : State) (f : Fin nfile) (n : Nat) : Unmoved s (s.advance f n) :=
  ⟨rfl, rfl, fun _ => rfl, fun _ => rfl⟩

theorem Disk.advance {s : State} (h : Disk s) (f : Fin nfile) (n : Nat) : Disk (s.advance f n) :=
  ⟨h.own, h.covers, h.cached, h.unique⟩

section Moved

variable {s s' : State} {f g : Fin nfile} {off i : Nat} {m m' : Node}

/-- What a file is open on does not depend on its offset. -/
theorem file_moved (hfile : s'.file = update s.file f { s.file f with off := off })
    (g : Fin nfile) : s'.file g = { s.file g with off := (s'.file g).off } := by
  rw [hfile]
  by_cases hg : g = f
  · subst hg
    rw [update_self]
  · rw [update_of_ne hg]

/-- A file that is open before a read or a write is open afterwards. -/
theorem State.Opens.after (hu : Unmoved s s')
    (hfile : s'.file = update s.file f { s.file f with off := off }) (ho : s.Opens g i m)
    (hm : s'.nodes i = some m') (ht : m'.type ≠ .dev) : s'.Opens g i m' := by
  have hsame := file_moved hfile g
  refine ⟨?_, ?_, ?_, hm, ht⟩
  · rw [hsame]
    exact ho.kind
  · rw [hsame, hu.ref]
    exact ho.ref
  · rw [hsame, hu.inum]
    exact ho.inum

/-- A file that is open afterwards was open before, if its inode was there. -/
theorem State.Opens.before (hu : Unmoved s s')
    (hfile : s'.file = update s.file f { s.file f with off := off }) (ho : s'.Opens g i m')
    (hm : s.nodes i = some m) (ht : m.type ≠ .dev) : s.Opens g i m := by
  have hsame := file_moved hfile g
  have hkind := ho.kind
  have href := ho.ref
  have hinum := ho.inum
  rw [hsame] at hkind href hinum
  rw [hu.ref] at href
  rw [hu.inum] at hinum
  exact ⟨hkind, href, hinum, hm, ht⟩

end Moved

/-! ## Reading -/

section Read

variable {s : State} {f : Fin nfile} {i : Nat} {m : Node}

theorem State.Opens.used (ho : s.Opens f i m) : (s.dinode i).type ≠ none := by
  intro hnone
  have hnode := ho.node
  simp only [State.nodes, nodeOf, hnone, Option.map_none] at hnode
  cases hnode

/-- **A read of a regular file** returns the bytes from the offset on and moves the offset. -/
theorem fileread_spec (hs : Settled s) (ho : s.Opens f i m) (hr : (s.file f).readable = true)
    (n : Nat) (io : DevIo) :
    Wp (fileread f n io) s
      (fun r s' => r = m.read (s.file f).off n ∧ Settled s' ∧ Unmoved s s' ∧ s'.nodes = s.nodes ∧
        s'.vol = s.vol ∧ s'.dinode = s.dinode ∧
        s'.file = update s.file f
          { s.file f with off := (s.file f).off + r.1.toNat })
      fun _ => False := by
  unfold fileread
  simp only [wp_bind, wp_getFile]
  rw [if_neg (by rw [hr]; decide)]
  split
  case h_1 hkind => cases ho.kind.symm.trans hkind
  case h_3 hkind => cases ho.kind.symm.trans hkind
  simp only [wp_bind]
  set a := (s.file f).ip with ha
  have hinum : (s.inode a).inum = i := ho.inum
  refine (hs.lock ho.ref (by rw [ho.inum]; exact ho.used)).mono ?_ fun _ h => h
  rintro - s₁ ⟨rfl, hdisk, hnodes, hheld⟩
  refine (readi_held hheld (List.mem_singleton_self a) (fun _ => 0) _ n io).mono ?_
    fun _ h => absurd hdisk h
  rintro ⟨r, bytes⟩ s₂ ⟨-, -, hsame⟩
  obtain ⟨rfl, hread⟩ := hsame hdisk
  have hr : (r, bytes) = m.read (s.file f).off n := by
    refine hread m ?_ ho.type
    rw [hnodes, slot_self]
    change s.nodes (s.inode a).inum = some m
    rw [hinum]
    exact ho.node
  dsimp only
  refine (wp_advance (s := s.slot a (s.locked a)) (x := s.file f) rfl).mpr ?_
  have hother : ∀ b, b ≠ a → (((s.slot a (s.locked a)).advance f r.toNat).inode b).locked = false :=
    fun b hb => by
      change ((s.slot a (s.locked a)).inode b).locked = false
      rw [slot_of_ne _ _ hb]
      exact hs.unlocked b
  refine (Settled.unlock (hdisk.advance f _) (hheld.congr rfl) hother).mono ?_ fun _ h => h
  rintro - s3 ⟨rfl, hset, hnodes'⟩
  have hlocked : Unmoved s (s.slot a (s.locked a)) := .slot rfl rfl
  exact ⟨hr, hset, (hlocked.trans (.advance _ f _)).trans (.slot rfl rfl), hnodes'.trans hnodes, rfl,
    rfl, rfl⟩

end Read

/-! ## Writing -/

theorem splice_splice {bs src src' : List Byte} {off : Nat} (h : off ≤ bs.length) :
    splice (splice bs src off) src' (off + src.length) = splice bs (src ++ src') off := by
  have hlen : off + src.length ≤ (splice bs src off).length := by
    simp [splice]
    omega
  refine List.ext_getElem? fun k => ?_
  rw [getElem?_splice hlen, getElem?_splice h, getElem?_splice h, List.length_append]
  by_cases hlo : k < off + src.length
  · rw [if_neg (by omega)]
    by_cases hin : off ≤ k
    · rw [if_pos ⟨hin, hlo⟩, if_pos (by omega), List.getElem?_append_left (by omega)]
    · rw [if_neg (by omega), if_neg (by omega)]
  · by_cases hin : k < off + src.length + src'.length
    · rw [if_pos (by omega), if_pos (by omega), List.getElem?_append_right (by omega)]
      congr 1
      omega
    · rw [if_neg (by omega), if_neg (by omega), if_neg (by omega)]

/-- `src` has been written to the file `f` on inode `i`, which was `m`, at its offset. -/
structure FileWrote (f : Fin nfile) (i : Nat) (m : Node) (src : List Byte) (s s' : State) : Prop where
  settled : Settled s'
  unmoved : Unmoved s s'
  nodes : s'.nodes
    = update s.nodes i (some { m with bytes := splice m.bytes src (s.file f).off })
  file : s'.file
    = update s.file f { s.file f with off := (s.file f).off + src.length }
  enough : ∀ e, (s.file f).off + src.length ≤ e → s.enough i e → s'.enough i e

theorem blocks_mono {e e' : Nat} (h : e ≤ e') : blocks e ≤ blocks e' :=
  Nat.div_le_div_right (by omega)

theorem State.enough.mono {s : State} {i e e' : Nat} (h : s.enough i e') (he : e ≤ e') :
    s.enough i e := by
  unfold State.enough at *
  have hblocks := blocks_mono he
  have hextra : (s.dinode i).extra e ≤ (s.dinode i).extra e' := by
    unfold Dinode.extra
    by_cases hind : ndirect * bsize < e ∧ (s.dinode i).addrs ndirect = 0
    · rw [if_pos hind, if_pos ⟨lt_of_lt_of_le hind.1 he, hind.2⟩]
    · rw [if_neg hind]
      exact Nat.zero_le _
  omega

section Write

variable {s s₁ s₂ : State} {f : Fin nfile} {i : Nat} {m : Node} {src src' : List Byte}

theorem FileWrote.off_eq (h : FileWrote f i m src s s₁) :
    (s₁.file f).off = (s.file f).off + src.length := by
  rw [h.file, update_self]

theorem FileWrote.opens (h : FileWrote f i m src s s₁) (ho : s.Opens f i m) :
    s₁.Opens f i { m with bytes := splice m.bytes src (s.file f).off } :=
  ho.after h.unmoved h.file (by rw [h.nodes, update_self]) ho.type

theorem FileWrote.trans (hoff : (s.file f).off ≤ m.bytes.length) (h : FileWrote f i m src s s₁)
    (h' : FileWrote f i { m with bytes := splice m.bytes src (s.file f).off } src' s₁ s₂) :
    FileWrote f i m (src ++ src') s s₂ where
  settled := h'.settled
  unmoved := h.unmoved.trans h'.unmoved
  nodes := by
    rw [h'.nodes, h.nodes, update_idem, h.off_eq]
    congr 3
    exact splice_splice hoff
  file := by
    rw [h'.file, h.file, update_self, update_idem, List.length_append,
      Nat.add_assoc]
  enough e he hen := by
    rw [List.length_append] at he
    refine h'.enough e ?_ (h.enough e (by omega) hen)
    rw [h.off_eq]
    omega

theorem writePiece_spec (hs : Settled s) (ho : s.Opens f i m)
    (hoff : (s.file f).off ≤ m.bytes.length)
    (hmax : (s.file f).off + src.length ≤ maxfile * bsize)
    (henough : s.enough i ((s.file f).off + src.length)) {rest : Int → FsM Bool}
    {Q : Bool → State → Prop}
    (hrest : ∀ s', FileWrote f i m src s s' → Wp (rest src.length) s' Q fun _ => False) :
    Wp (do
        let x ← getFile f
        ilock x.ip
        let r ← writei x.ip x.off src
        when (0 < r) (setFile f { x with off := x.off + r.toNat })
        iunlock x.ip
        rest r) s Q fun _ => False := by
  simp only [wp_bind, wp_getFile]
  set a := (s.file f).ip with ha
  have hinum : (s.inode a).inum = i := ho.inum
  refine (hs.lock ho.ref (by rw [ho.inum]; exact ho.used)).mono ?_ fun _ h => h
  rintro - s₁ ⟨rfl, hdisk, hnodes, hheld⟩
  have hinum1 : ((s.slot a (s.locked a)).inode a).inum = i := by
    rw [slot_self]
    exact hinum
  have henough1 : (s.slot a (s.locked a)).enough i ((s.file f).off + src.length) := henough
  refine (writei_held hheld (List.mem_singleton_self a) (fun _ => 0) _ src).mono ?_ fun _ h => ?_
  · rintro r s₂ ⟨hheld2, hkeeps, ⟨d, hinode⟩, hroom⟩
    rw [hinum1] at hkeeps hroom
    obtain ⟨hdisk2, m', hm', hwrote⟩ := hkeeps.disk hdisk
    have hm : m' = m := by
      rw [hnodes, ho.node] at hm'
      exact (Option.some.inj hm').symm
    subst hm
    -- nothing stands in the way of the write
    obtain ⟨-, hdev | ⟨-, hshort | hlong⟩⟩ | ⟨-, rfl, -, hnodes2⟩ := hwrote
    · exact absurd hdev ho.type
    · omega
    · omega
    have hfile2 : s₂.file = s.file := hkeeps.file
    have hother : ∀ b, b ≠ a → ((s₂.advance f src.length).inode b).locked = false := fun b hb => by
      change (s₂.inode b).locked = false
      rw [hinode, update_of_ne hb, slot_of_ne _ _ hb]
      exact hs.unlocked b
    have hunmoved : Unmoved s s₂ := by
      have hlocked : Unmoved s (s.slot a (s.locked a)) := .slot rfl rfl
      have hcopy : Unmoved (s.slot a (s.locked a)) ((s.slot a (s.locked a)).slot a
        { (s.slot a (s.locked a)).inode a with copy := d }) := .slot rfl rfl
      refine hlocked.trans ⟨hkeeps.sb, hkeeps.proc, fun b => ?_, fun b => ?_⟩
      · rw [hinode]
        exact hcopy.ref b
      · rw [hinode]
        exact hcopy.inum b
    refine (wp_advance (s := s₂) (x := s.file f) (congrFun hfile2 f).symm).mpr ?_
    rw [Int.toNat_natCast]
    refine (Settled.unlock (hdisk2.advance f _) (hheld2.congr rfl) hother).mono ?_ fun _ h => h
    rintro - s3 ⟨rfl, hset, hnodes3⟩
    refine hrest _ ⟨hset, (hunmoved.trans (.advance _ f _)).trans (.slot rfl rfl), ?_, ?_,
      fun e he hen => hroom hdisk e he hen⟩
    · rw [hnodes3]
      change s₂.nodes = _
      rw [hnodes2, hnodes]
    · change update s₂.file f { s₂.file f with off := (s₂.file f).off + src.length } = _
      rw [hfile2]
  · rw [hinum1] at h
    exact h hdisk henough1

theorem FileWrote.nil (hs : Settled s) (ho : s.Opens f i m) : FileWrote f i m [] s s := by
  refine ⟨hs, .refl s, ?_, ?_, fun _ _ h => h⟩
  · have hsame : splice m.bytes [] (s.file f).off = m.bytes := by
      simp [splice]
    rw [hsame, ← ho.node, update_eq_self]
  · exact (update_eq_self ..).symm

theorem filewriteLoop_spec :
    ∀ {fuel : Nat} {src : List Byte} {s : State} {m : Node}, src.length < fuel → Settled s →
      s.Opens f i m → (s.file f).off ≤ m.bytes.length →
      (s.file f).off + src.length ≤ maxfile * bsize → s.enough i ((s.file f).off + src.length) →
      Wp (filewriteLoop f fuel src) s (fun r s' => r = true ∧ FileWrote f i m src s s')
        fun _ => False
  | 0, _, _, _, hfuel, _, _, _, _, _ => absurd hfuel (Nat.not_lt_zero _)
  | fuel + 1, src, s, m, hfuel, hs, ho, hoff, hmax, henough => by
    unfold filewriteLoop
    by_cases hnil : src = []
    · rw [if_pos hnil, hnil]
      exact ⟨rfl, .nil hs ho⟩
    rw [if_neg hnil]
    obtain ⟨n, hn⟩ : ∃ n, n = min src.length maxWrite := ⟨_, rfl⟩
    have hpos : 0 < n := by
      have : 0 < src.length := List.length_pos_of_ne_nil hnil
      have : 0 < maxWrite := by decide
      omega
    have htake : (src.take n).length = n := by
      rw [List.length_take]
      omega
    have happend : src.take n ++ src.drop n = src := List.take_append_drop ..
    dsimp only
    rw [← hn]
    refine writePiece_spec hs ho hoff (by omega)
      (henough.mono (by omega)) fun s₁ hw => ?_
    rw [htake, if_neg (by omega), if_neg (not_not.mpr rfl)]
    have hlen1 : (s.file f).off + n ≤ (splice m.bytes (src.take n) (s.file f).off).length := by
      simp only [splice, List.length_append, List.length_take, List.length_drop, htake]
      omega
    refine (filewriteLoop_spec (by rw [List.length_drop]; omega)
      hw.settled (hw.opens ho) ?_ ?_ ?_).imp fun r s₂ hr => ⟨hr.1, ?_⟩
    · rw [hw.off_eq, htake]
      exact hlen1
    · rw [hw.off_eq, htake, List.length_drop]
      omega
    · rw [hw.off_eq, htake, List.length_drop]
      refine hw.enough _ (by omega) ?_
      rwa [Nat.add_assoc, Nat.add_sub_cancel' (by omega)]
    · rw [← happend]
      exact hw.trans hoff hr.2

/-- **A write to a regular file** writes all its bytes at the offset and moves the offset. -/
theorem filewrite_spec (hs : Settled s) (ho : s.Opens f i m) (hw : (s.file f).writable = true)
    (hoff : (s.file f).off ≤ m.bytes.length)
    (hmax : (s.file f).off + src.length ≤ maxfile * bsize)
    (henough : s.enough i ((s.file f).off + src.length)) (io : DevIo) :
    Wp (filewrite f src io) s (fun r s' => r = src.length ∧ FileWrote f i m src s s')
      fun _ => False := by
  unfold filewrite
  simp only [wp_bind, wp_getFile]
  rw [if_neg (by rw [hw]; decide)]
  split
  case h_1 hkind => cases ho.kind.symm.trans hkind
  case h_3 hkind => cases ho.kind.symm.trans hkind
  refine (filewriteLoop_spec (Nat.lt_succ_self _) hs ho hoff hmax henough).next fun r s' hr => ?_
  obtain ⟨rfl, hwrote⟩ := hr
  exact ⟨rfl, hwrote⟩

end Write

/-! ## The arrays -/

/-- What the open files and the inodes are for: bytes, and where the next read or write goes. -/
@[ext] structure Arrays where
  bytes : Nat → List Byte
  off : Fin nfile → Nat

/-- A read or a write. -/
inductive FileOp where
  | read (f : Fin nfile) (n : Nat)
  | write (f : Fin nfile) (src : List Byte)

/-- What the caller sees: the value returned and the bytes delivered. -/
abbrev Seen := Int × List Byte

/-- A read or a write of arrays, with `inum f` the array of file `f`. -/
def Arrays.step (inum : Fin nfile → Nat) (A : Arrays × List Seen) (op : FileOp) :
    Arrays × List Seen :=
  match op with
  | .read f n =>
    let bs := ((A.1.bytes (inum f)).drop (A.1.off f)).take n
    ({ A.1 with off := update A.1.off f (A.1.off f + bs.length) },
      A.2 ++ [((bs.length : Int), bs)])
  | .write f src =>
    (⟨update A.1.bytes (inum f) (splice (A.1.bytes (inum f)) src (A.1.off f)),
        update A.1.off f (A.1.off f + src.length)⟩,
      A.2 ++ [((src.length : Int), [])])

def fileOp (io : DevIo) : FileOp → FsM Seen
  | .read f n => fileread f n io
  | .write f src => do
    let r ← filewrite f src io
    return (r, [])

/-- A read or a write of the file system, with all that was seen so far. -/
def opStep (io : DevIo) (s : State × List Seen) (op : FileOp) : Except Halt (State × List Seen) :=
  match fileOp io op s.1 with
  | .error e => .error e
  | .ok (r, s') => .ok (s', s.2 ++ [r])

/-- The arrays that are on the disk. -/
def State.arrays (s : State) : Arrays where
  bytes i := (s.nodes i).elim [] Node.bytes
  off f := (s.file f).off

/-- The inode a file is open on. -/
def State.inumOf (s : State) (f : Fin nfile) : Nat := (s.inode (s.file f).ip).inum

/-- A read or a write of a file that is open for it on a regular inode, with room for the write. A
length is an `int`. -/
def OpAllowed (s : State × List Seen) : FileOp → Prop
  | .read f n => (∃ m, s.1.Opens f (s.1.inumOf f) m) ∧ (s.1.file f).readable = true ∧ n < 2 ^ 31
  | .write f src =>
    (∃ m, s.1.Opens f (s.1.inumOf f) m) ∧ (s.1.file f).writable = true ∧
      (s.1.file f).off + src.length ≤ maxfile * bsize ∧
      s.1.enough (s.1.inumOf f) ((s.1.file f).off + src.length)

/-- No offset is behind the end of its file. -/
def State.OffsetsIn (s : State) : Prop :=
  ∀ f i m, s.Opens f i m → (s.file f).off ≤ m.bytes.length

/-- The state stands for the arrays, and the files are open on the inodes `inum`. -/
structure StandsFor (inum : Fin nfile → Nat) (s : State × List Seen) (A : Arrays × List Seen) :
    Prop where
  settled : Settled s.1
  inside : s.1.OffsetsIn
  inum : s.1.inumOf = inum
  arrays : s.1.arrays = A.1
  seen : s.2 = A.2

/-- A file is no longer than its block pointers reach. -/
theorem Disk.size_le {s : State} (h : Disk s) {i : Nat} {m : Node} (hm : s.nodes i = some m) :
    m.bytes.length ≤ maxfile * bsize := by
  obtain ⟨type, ht⟩ : ∃ type, (s.dinode i).type = some type := by
    rw [← Option.ne_none_iff_exists']
    intro hnone
    simp only [State.nodes, nodeOf, hnone, Option.map_none] at hm
    cases hm
  rw [nodes_eq_some ht] at hm
  cases hm
  rw [length_bytes]
  by_contra hlt
  exact ((h.covers i (by simp [ht])) maxfile).mpr (by omega) (ptrs_of_le le_rfl)

theorem Settled.read_eq {s : State} (hs : Settled s) {f : Fin nfile} {i : Nat} {m : Node}
    (ho : s.Opens f i m) {n : Nat} (hn : n < 2 ^ 31) (hoff : (s.file f).off ≤ m.bytes.length) :
    m.read (s.file f).off n
      = ((((m.bytes.drop (s.file f).off).take n).length : Int),
        (m.bytes.drop (s.file f).off).take n) := by
  have hsize := hs.disk.size_le ho.node
  have hmax : maxfile * bsize = 71680 := by decide
  unfold Node.read
  rw [if_neg (by omega), List.length_take, List.length_drop]

section Arrays

variable {io : DevIo} {inum : Fin nfile → Nat} {s : State × List Seen} {A : Arrays × List Seen}
  {f : Fin nfile}

theorem inumOf_eq {s s' : State} (hu : Unmoved s s') {off : Nat}
    (hfile : s'.file = update s.file f { s.file f with off := off }) :
    s'.inumOf = s.inumOf := by
  funext g
  unfold State.inumOf
  rw [hu.inum, hfile]
  by_cases hg : g = f
  · subst hg
    rw [update_self]
  · rw [update_of_ne hg]

theorem arrays_off {s s' : State} {off : Nat}
    (hfile : s'.file = update s.file f { s.file f with off := off }) :
    s'.arrays.off = update s.arrays.off f off := by
  funext g
  change (s'.file g).off = _
  rw [hfile]
  by_cases hg : g = f
  · subst hg
    rw [update_self, update_self]
  · rw [update_of_ne hg, update_of_ne hg]
    rfl

theorem opStep_of_ok {op : FileOp} {r : Seen} {s' : State} (h : fileOp io op s.1 = .ok (r, s')) :
    opStep io s op = .ok (s', s.2 ++ [r]) := by
  rw [opStep, h]

/-- The offsets stay inside when one file moves to `off`, which is inside, and no file shrinks. -/
theorem State.OffsetsIn.move {s s' : State} (h : s.OffsetsIn) (hu : Unmoved s s') {off : Nat}
    (hfile : s'.file = update s.file f { s.file f with off := off })
    (hold : ∀ i m', s'.nodes i = some m' → m'.type ≠ .dev →
      ∃ m, s.nodes i = some m ∧ m.type ≠ .dev ∧ m.bytes.length ≤ m'.bytes.length)
    (hoff : ∀ m', s'.nodes (s.inumOf f) = some m' → off ≤ m'.bytes.length) : s'.OffsetsIn := by
  intro g i m' hg
  have hoffs : (s'.file g).off = _ := congrFun (arrays_off hfile) g
  rw [hoffs]
  by_cases hgf : g = f
  · subst hgf
    rw [update_self]
    refine hoff m' ?_
    have hinum : s'.inumOf g = i := hg.inum
    rw [← inumOf_eq hu hfile, hinum]
    exact hg.node
  · rw [update_of_ne hgf]
    obtain ⟨m, hm, ht, hle⟩ := hold i m' hg.node hg.type
    exact (h g i m (hg.before hu hfile hm ht)).trans hle

theorem StandsFor.bytes_eq (h : StandsFor inum s A) {m : Node}
    (ho : s.1.Opens f (s.1.inumOf f) m) : A.1.bytes (inum f) = m.bytes := by
  rw [← h.arrays, ← h.inum]
  simp only [State.arrays, ho.node, Option.elim]

theorem StandsFor.off_eq (h : StandsFor inum s A) : A.1.off f = (s.1.file f).off := by
  rw [← h.arrays]
  rfl

theorem fileread_arrays {n : Nat} (h : StandsFor inum s A) (hok : OpAllowed s (.read f n)) :
    ∃ s', opStep io s (.read f n) = .ok s' ∧ StandsFor inum s' (Arrays.step inum A (.read f n)) := by
  obtain ⟨⟨m, ho⟩, hread, hn⟩ := hok
  obtain ⟨r, s', hrun, hr, hset, hu, hnodes, -, -, hfile⟩ :=
    (fileread_spec h.settled ho hread n io).returns
  have hoff := h.inside f _ m ho
  obtain ⟨bs, hbs⟩ : ∃ bs, bs = (m.bytes.drop (s.1.file f).off).take n := ⟨_, rfl⟩
  rw [h.settled.read_eq ho hn hoff, ← hbs] at hr
  rw [hr, Int.toNat_natCast] at hfile
  have hlen : (s.1.file f).off + bs.length ≤ m.bytes.length := by
    rw [hbs, List.length_take, List.length_drop]
    omega
  refine ⟨_, opStep_of_ok hrun, hset, ?_, (inumOf_eq hu hfile).trans h.inum, ?_, ?_⟩
  · refine h.inside.move hu hfile (fun i m' hm' ht => ⟨m', hnodes ▸ hm', ht, le_rfl⟩) fun m' hm' => ?_
    rw [hnodes, ho.node] at hm'
    cases hm'
    exact hlen
  · simp only [Arrays.step, h.bytes_eq ho, h.off_eq, ← hbs]
    rw [← h.arrays]
    refine Arrays.ext ?_ (arrays_off hfile)
    simp only [State.arrays, hnodes]
  · simp only [Arrays.step, h.bytes_eq ho, h.off_eq, ← hbs, h.seen, hr]

theorem filewrite_arrays {src : List Byte} (h : StandsFor inum s A)
    (hok : OpAllowed s (.write f src)) :
    ∃ s', opStep io s (.write f src) = .ok s' ∧
      StandsFor inum s' (Arrays.step inum A (.write f src)) := by
  obtain ⟨⟨m, ho⟩, hwrite, hmax, henough⟩ := hok
  have hoff := h.inside f _ m ho
  obtain ⟨r, s', hrun, hr, hw⟩ :=
    (filewrite_spec h.settled ho hwrite hoff hmax henough io).returns
  have hop : fileOp io (.write f src) s.1 = .ok ((r, []), s') := by
    change (filewrite f src io s.1 >>= fun r => pure ((r.1, []), r.2)) = _
    rw [hrun]
    rfl
  have hlen : (s.1.file f).off + src.length
      ≤ (splice m.bytes src (s.1.file f).off).length ∧
      m.bytes.length ≤ (splice m.bytes src (s.1.file f).off).length := by
    simp only [splice, List.length_append, List.length_take, List.length_drop]
    omega
  refine ⟨_, opStep_of_ok hop, hw.settled, ?_, (inumOf_eq hw.unmoved hw.file).trans h.inum, ?_, ?_⟩
  · refine h.inside.move hw.unmoved hw.file (fun i m' hm' ht => ?_) fun m' hm' => ?_
    · rw [hw.nodes] at hm'
      by_cases hi : i = s.1.inumOf f
      · subst hi
        rw [update_self] at hm'
        cases hm'
        exact ⟨m, ho.node, ho.type, hlen.2⟩
      · rw [update_of_ne hi] at hm'
        exact ⟨m', hm', ht, le_rfl⟩
    · rw [hw.nodes, update_self] at hm'
      cases hm'
      exact hlen.1
  · simp only [Arrays.step, h.bytes_eq ho, h.off_eq]
    rw [← h.arrays, ← h.inum]
    refine Arrays.ext ?_ (arrays_off hw.file)
    funext i
    simp only [State.arrays, hw.nodes]
    by_cases hi : i = s.1.inumOf f
    · subst hi
      rw [update_self, update_self]
      rfl
    · rw [update_of_ne hi, update_of_ne hi]
  · simp only [Arrays.step, h.seen, hr]

end Arrays

/-- **Files are byte arrays**: over every sequence of reads and writes, what the callers see is what
they would see of the arrays, and the disk holds the arrays at the end. -/
theorem files_are_arrays (io : DevIo) (s : State) (ops : List FileOp) (hs : Settled s)
    (hoff : s.OffsetsIn) (hg : Guarded (opStep io) OpAllowed (s, []) ops) :
    ∃ s' seen, run (opStep io) (s, []) ops = .ok (s', seen) ∧
      (s'.arrays, seen) = ops.foldl (Arrays.step s.inumOf) (s.arrays, []) := by
  have hstart : StandsFor s.inumOf (s, []) (s.arrays, []) := ⟨hs, hoff, rfl, rfl, rfl⟩
  obtain ⟨⟨s', seen⟩, hr, hfor⟩ := run_refines (StandsFor s.inumOf)
    (fun t A op ht hok => by
      cases op with
      | read f n => exact fileread_arrays ht hok
      | write f src => exact filewrite_arrays ht hok)
    hstart hg
  exact ⟨s', seen, hr, Prod.ext hfor.arrays hfor.seen⟩

/-! ## A file system with one file -/

/-- The inode of an empty file with one link. -/
def Dinode.emptyFile : Dinode := { Dinode.zero with type := some .file, nlink := 1 }

/-- The first file of `ftable`. -/
def file0 : Fin nfile := ⟨0, by decide⟩

/-- Inode 2 is an empty file that is open for reading and writing; the other inodes are free. -/
def State.oneFile : State where
  sb := ⟨1000, 941, 200, by decide, by decide⟩
  vol := ⟨fun b => decide (b < 59), fun _ _ => 0#8⟩
  dinode := update (fun _ => .zero) 2 .emptyFile
  inode := update (fun _ => .unused) 0 ⟨2, 1, false, true, .emptyFile⟩
  file := update (fun _ => .unused) file0 ⟨.inode, 1, true, true, 0, 0⟩
  proc _ := .unused

theorem oneFile_dinode (i : Nat) :
    (State.oneFile.dinode i).size = 0 ∧ (State.oneFile.dinode i).addrs = fun _ => 0 := by
  unfold State.oneFile
  by_cases hi : i = 2
  · subst hi
    exact ⟨rfl, rfl⟩
  · dsimp only
    rw [update_of_ne hi]
    exact ⟨rfl, rfl⟩

theorem oneFile_ptrs (k : Nat × Option Nat) :
    ptrs State.oneFile.dinode State.oneFile.vol.data k = 0 := by
  unfold ptrs
  split
  · rfl
  cases k.2 with
  | none =>
    unfold Dinode.ptr
    rw [(oneFile_dinode k.1).2]
  | some bn =>
    unfold Dinode.ptr
    rw [(oneFile_dinode k.1).2]
    simp

theorem oneFile_inode {a : Fin ninode} (h : 0 < (State.oneFile.inode a).ref) : a = 0 := by
  by_contra ha
  unfold State.oneFile at h
  dsimp only at h
  rw [update_of_ne ha] at h
  exact absurd h (by decide)

theorem oneFile_settled : Settled State.oneFile where
  disk := {
    own := {
      range := fun k hk => absurd (oneFile_ptrs k) hk
      inj := fun k _ hk => absurd (oneFile_ptrs k) hk
      bits := fun b hlo _ => by
        have hlo : 59 ≤ b := hlo
        refine iff_of_false ?_ ?_
        · change ¬ decide (b < 59) = true
          simpa using hlo
        · rintro ⟨k, hk⟩
          rw [oneFile_ptrs] at hk
          omega
      below := fun b hb => decide_eq_true hb }
    covers := fun i _ bn => by
      rw [oneFile_ptrs, (oneFile_dinode i).1]
      exact iff_of_false (not_not.mpr rfl) (Nat.not_lt_zero _)
    cached := fun a ha _ => by
      rw [oneFile_inode ha]
      exact ⟨rfl, nofun⟩
    unique := fun a b ha hb _ => (oneFile_inode ha).trans (oneFile_inode hb).symm }
  nonneg := by decide
  unlocked := by decide

theorem oneFile_opens : State.oneFile.Opens file0 2 ⟨.file, 1, []⟩ :=
  ⟨rfl, by decide, rfl, rfl, nofun⟩

theorem oneFile_enough {e : Nat} (he : e ≤ maxfile * bsize) : State.oneFile.enough 2 e := by
  have hmax : State.oneFile.enough 2 (maxfile * bsize) := by
    unfold State.enough
    decide +kernel
  exact hmax.mono he

theorem oneFile_offsetsIn : State.oneFile.OffsetsIn := by
  intro f i m ho
  by_cases hf : f = file0
  · subst hf
    exact Nat.zero_le _
  · have hkind := ho.kind
    unfold State.oneFile at hkind
    dsimp only at hkind
    rw [update_of_ne hf] at hkind
    cases hkind

theorem files_are_arrays_two_pieces :
    ∃ s' seen, run (opStep default) (State.oneFile, []) [.write file0 (List.replicate 2000 7#8)]
        = .ok (s', seen) ∧
      s'.arrays.bytes 2 = List.replicate 2000 7#8 ∧ s'.arrays.off file0 = 2000 ∧
      seen = [(2000, [])] := by
  obtain ⟨bs, hbs⟩ : ∃ bs, bs = List.replicate 2000 7#8 := ⟨_, rfl⟩
  have hlen : bs.length = 2000 := by
    rw [hbs, List.length_replicate]
  rw [← hbs]
  have hoff : (State.oneFile.file file0).off + bs.length = 2000 := by
    rw [hlen]
    rfl
  have hguard : Guarded (opStep default) OpAllowed (State.oneFile, []) [.write file0 bs] := by
    refine ⟨⟨⟨_, oneFile_opens⟩, rfl, ?_, ?_⟩, by split <;> trivial⟩
    · rw [hoff]
      decide
    · rw [hoff]
      exact oneFile_enough (by decide)
  obtain ⟨s', seen, hr, heq⟩ := files_are_arrays default State.oneFile _ oneFile_settled
    oneFile_offsetsIn hguard
  obtain ⟨harrays, hseen⟩ := Prod.mk.inj heq
  have hinum : State.oneFile.inumOf file0 = 2 := rfl
  have hbytes : State.oneFile.arrays.bytes 2 = [] := rfl
  have hstart : State.oneFile.arrays.off file0 = 0 := rfl
  refine ⟨s', seen, hr, ?_, ?_, ?_⟩
  · rw [harrays]
    simp [hinum, hbytes, hstart, splice]
  · rw [harrays]
    simp [hstart, hlen]
  · rw [hseen]
    simp [hlen]

/-- A file system in which that file has any given bytes. -/
theorem exists_file (bs : List Byte) (h : bs.length ≤ maxfile * bsize) :
    ∃ s, Settled s ∧ s.Opens file0 2 ⟨.file, 1, bs⟩ ∧
      s.file file0 = ⟨.inode, 1, true, true, 0, bs.length⟩ := by
  have hoff : (State.oneFile.file file0).off + bs.length = bs.length := Nat.zero_add _
  obtain ⟨r, s, -, -, hw⟩ := (filewrite_spec oneFile_settled oneFile_opens rfl (le_refl 0)
    (by rw [hoff]; exact h) (oneFile_enough (by rw [hoff]; exact h)) default).returns
  refine ⟨s, hw.settled, ?_, ?_⟩
  · have hopens := hw.opens oneFile_opens
    have hbs : splice [] bs (State.oneFile.file file0).off = bs := by simp [splice]
    rw [hbs] at hopens
    exact hopens
  · rw [hw.file, update_self, hoff]
    rfl

end Xv6Mmap.Fs
