import Xv6Mmap.Paths

/-!
# Calls on names that fail (`sysfile.c:119-371`)

`link`, `unlink`, `mkdir`, `mknod` and `open` have many exits with `-1`, some of them after something
was changed. Here is what is on the disk at each of them, between two operations and where the nodes
without links are referred to (`Calm`).

* Up to where a call changes something it only looks (`Looks`, `Walks`), and an exit from there
  leaves the disk as it was: all of `unlink`, `mkdir` and `mknod`, and of `open` without a new file.
* `link` raises the link count first. Its label `bad` puts it back (`sysLinkBad_restores`), and
  between the two it only looks.
* `open` with `O_CREATE` makes the file, and only then asks for a file structure and a descriptor.
  If there is none it returns `-1` with the new file in place (`open_unopened`).

`failed_call_untouched_iff`: of the calls that return `-1`, exactly those `open` leave something
changed.
-/

namespace Xv6Mmap.Fs

open Lib
open Function (update update_self update_of_ne update_eq_self update_idem)

/-- The blocks and the inodes on disk are the same. -/
structure SameDisk (s s' : State) : Prop where
  vol : s'.vol = s.vol
  dinode : s'.dinode = s.dinode

/-- The directory of `path` exists and does not have its last name. -/
def State.Missing (s : State) (p : Fin nproc) (path : List Byte) : Prop :=
  ∃ d name, s.resolve p true path = some (d, name) ∧ child s.nodes d name = none

/-- There is no file structure or no descriptor left for process `p`. -/
def State.Full (s : State) (p : Fin nproc) : Prop :=
  (∀ f, (s.file f).ref ≠ 0) ∨ ∀ fd, (s.proc p).ofile fd ≠ none

/-- `open` is to make a file, and cannot open it. -/
def State.LosesFile (s : State) (p : Fin nproc) (path : List Byte) (omode : Word) : Prop :=
  hasFlag omode oCreate = true ∧ s.Missing p path ∧ s.Full p

section Looking

variable {G : Fin ninode → Int} {L : List (Fin ninode)} {s s₁ : State} {a : Fin ninode} {p : Fin nproc}

theorem Quiet.sameDisk (h : Quiet G s s₁) : SameDisk s s₁ := ⟨h.vol, h.dinode⟩

theorem wp_any {α : Type} {m : FsM α} : Wp m s (fun _ _ => True) :=
  wp_of_ok fun _ _ _ => trivial

theorem ilock_looks (h : Rest G L s) (hpos : 0 < G a) :
    Wp (ilock a) s (fun _ s' => a ∉ L ∧ Rest G (a :: L) s' ∧ Quiet 1 s s') := by
  by_cases ha : a ∈ L
  · exact (ilock_held h.held 1).imp fun _ _ hr => absurd ha hr.1
  · exact (ilock_rest h ha hpos).mono (fun _ _ hr => ⟨ha, hr⟩) fun _ _ => trivial

theorem dirlookup_looks (h : Rest G L s) (ha : a ∈ L) (name : List Byte) :
    Wp (dirlookup a name) s
      (fun r s' => ∃ m, s.nodes (s.inode a).inum = some m ∧ m.type = .dir ∧
        Looks G L s m.bytes (lookup m.bytes name) r s') := by
  obtain ⟨m, hm, hmt, -⟩ := h.held.node ha h.disk
  by_cases ht : m.type = .dir
  · exact (dirlookup_rest h ha hm ht name).mono (fun _ _ hr => ⟨m, hm, ht, hr⟩) fun _ _ => trivial
  · unfold dirlookup
    simp only [wp_bind, wp_getInode, hmt]
    rw [if_pos fun he => ht (Option.some.inj he)]
    trivial

/-- The test whether a directory can be removed changes nothing. -/
theorem removable_looks (h : Rest G L s) (ha : a ∈ L) :
    Wp (removable a) s (fun _ s' => s' = s) := by
  unfold removable
  rw [wp_bind, wp_getInode]
  split
  case isTrue =>
    unfold isdirempty
    rw [wp_bind, wp_getInode, Nat.mul_comm 2 deSize]
    exact (isdiremptyLoop_held h.held ha 1 _ 2).imp fun _ _ hr => (hr.2.2 h.disk).1
  case isFalse => rfl

/-! ## `unlink` -/

theorem sysUnlinkBad_looks (h : Rest G [a] s) (ho : s.Spared (G - one a) (s.inode a).inum) :
    Wp (sysUnlinkBad a) s (fun _ s' => Quiet 1 s s') := by
  unfold sysUnlinkBad
  exact (iunlockput_rest h List.not_mem_nil ho).bind (fun _ _ hr => hr.2) fun _ _ => trivial

theorem unlink_failed (h : Rest G [] s) (hcwd : ∀ c, (s.proc p).cwd = some c → 0 < G c)
    (ho : s.NoOrphan G) (path : List Byte) :
    Wp (unlink p path) s (fun r s' => r = -1 → SameDisk s s') := by
  unfold unlink nameiparent
  refine (namex_rest h hcwd ho true path).bind ?_ fun _ _ => trivial
  rintro (_ | ⟨dp, name⟩) s₁ ⟨hq1, -, h1⟩
  · exact fun _ => hq1.sameDisk
  obtain ⟨h1, hspared⟩ := h1
  have hdp := pos_add_one h.held.nonneg dp
  have hfloor : ∀ b, 0 < G b → 0 < (G + one dp) b := fun b hb => pos_add dp b hb
  -- leaving without having done anything
  have hbad : ∀ s3, Rest (G + one dp) [dp] s3 → Quiet (G + one dp) s₁ s3 →
      Wp (sysUnlinkBad dp) s3 (fun r s' => r = -1 → SameDisk s s') := by
    intro s3 h3 hq3
    have hspared3 := hspared.slot hq3 hfloor hdp
    refine (sysUnlinkBad_looks h3 (by rwa [add_sub_cancel_right])).imp ?_
    exact fun _ s4 hq4 _ => ((hq1.trans (hq3.mono hfloor)).trans hq4.all).sameDisk
  simp only [wp_bind]
  refine (ilock_looks h1 hdp).imp ?_
  rintro - s2 ⟨-, h2, hq2⟩
  split
  case isTrue => exact hbad s2 h2 hq2.all
  case isFalse =>
    refine (dirlookup_looks h2 List.mem_cons_self name).next ?_
    rintro (_ | ⟨ip, off⟩) s3 ⟨m, hm, ht, hq3, hr⟩
    · obtain ⟨-, -, rfl⟩ := hr
      exact hbad s3 h2 hq2.all
    obtain ⟨h3, -, k, hk, -, hinum⟩ := hr
    have hip := pos_add_one h1.held.nonneg ip
    have hq23 : Quiet (G + one dp) s₁ s3 := hq2.all.trans hq3
    have hnew : s3.Spared (G + one dp) (s3.inode ip).inum := by
      have hexp := exposed_of_lookup hm ht hk
      rw [← hinum] at hexp
      exact ((((ho.quiet hq1).quiet hq2.all) _ hexp).mono hfloor).quiet hq3
    refine (ilock_looks h3 hip).next ?_
    rintro - s4 ⟨hne, h4, hq4⟩
    have hnew4 := hnew.slot hq4 (fun _ _ => Int.one_pos) Int.one_pos
    unfold unlinkLocked
    rw [wp_bind, wp_getInode]
    split
    case isTrue => trivial
    case isFalse =>
      refine (removable_looks h4 List.mem_cons_self).next ?_
      rintro r s5 rfl
      split
      case isTrue =>
        refine (iunlockput_rest h4 hne (by rwa [add_sub_cancel_right])).bind ?_ fun _ _ => trivial
        rintro - s6 ⟨h6, hq6⟩
        rw [add_sub_cancel_right] at h6
        exact hbad s6 h6 (hq23.trans (hq4.trans hq6).all)
      case isFalse =>
        -- from here on it returns `0`
        rw [wp_bind]
        refine wp_any.imp fun r' s6 _ => ?_
        split
        case isTrue => trivial
        case isFalse =>
          unfold unlinkCleared
          simp only [wp_bind, wp_getInode]
          exact wp_any.imp fun _ _ _ => wp_any.imp fun _ _ _ => wp_any.imp fun _ _ _ =>
            wp_any.imp fun _ _ _ he => by cases he

/-! ## `link` -/

/-- The link count of inode `i` changes by `n`, on disk and in the cache, and nothing else. -/
structure Relinks (i : Nat) (n : Int) (s s' : State) : Prop
    extends Keeps 1 (Relinked i n) s s' where
  vol : s'.vol = s.vol
  dinode : s'.dinode = update s.dinode i
    { s.dinode i with nlink := (s.dinode i).nlink + n }

theorem addNlink_rest (h : Rest G L s) (ha : a ∈ L) (n : Int) :
    Wp (addNlink a n) s (fun _ s' => Rest G L s' ∧ Relinks (s.inode a).inum n s s')
      fun _ => False := by
  obtain ⟨-, hvalid, hpos⟩ := h.held.lock a ha
  obtain ⟨hcopy, -⟩ := h.disk.cached a (by rwa [h.held.ref a]) hvalid
  have hheld := addNlink_held h.held ha 1 n
  unfold addNlink at hheld ⊢
  simp only [wp_bind, wp_getInode, wp_setCopy, wp_iupdate, slot_self] at hheld ⊢
  obtain ⟨h', hk⟩ := hheld
  refine ⟨⟨h', (hk.disk h.disk).1, fun b hb => ?_⟩, hk, rfl, by rw [hcopy]; rfl⟩
  exact (congrArg Inode.locked (slot_of_ne s _ fun hba => hb (by rwa [hba]))).trans
    (h.unlocked b hb)

theorem Relinks.undo {s2 s3 : State} {i : Nat} {n : Int} (h : Relinks i n s s₁) (hd : SameDisk s₁ s2)
    (h' : Relinks i (-n) s2 s3) : SameDisk s s3 := by
  refine ⟨h'.vol.trans (hd.vol.trans h.vol), ?_⟩
  rw [h'.dinode, hd.dinode, h.dinode, update_self, update_idem]
  simp only [Int.add_neg_cancel_right, update_eq_self]

theorem SameDisk.nodes (h : SameDisk s s₁) : s₁.nodes = s.nodes := by
  unfold State.nodes
  rw [h.vol, h.dinode]

/-- While its link count is raised the inode is the caller's. -/
theorem Relinks.noOrphan (h : Rest G L s) (ha : 0 < G a) (hr : Relinks (s.inode a).inum 1 s s₁)
    (ho : s.NoOrphan (G - one a)) : s₁.NoOrphan G := by
  obtain ⟨-, m, hm, hN⟩ := hr.disk h.disk
  intro i hi
  have hexp : s.Exposed i := by
    refine hi.imp id ?_
    rintro ⟨j, m', k, hm', ht, hk⟩
    rw [hN] at hm'
    by_cases hj : j = (s.inode a).inum
    · rw [hj, update_self] at hm'
      cases hm'
      exact ⟨_, m, k, hm, ht, hk⟩
    · rw [update_of_ne hj] at hm'
      exact ⟨j, m', k, hm', ht, hk⟩
  by_cases hia : i = (s.inode a).inum
  · rw [hia, ← hr.inum a Int.one_pos]
    exact .of_pos ha
  · refine ((ho i hexp).mono fun b hb => pos_of_sub hb).keeps
      (hr.toKeeps.mono fun _ _ => Int.one_pos) ?_
    rw [hN, update_of_ne hia]

/-- **The label `bad` of `sys_link`** takes back the link that `ip` was given. -/
theorem sysLinkBad_restores {s0 : State} (h : Rest G [] s) (hpos : 0 < G a)
    (hr : Relinks (s0.inode a).inum 1 s0 s₁) (hq : Quiet G s₁ s)
    (hspared : s0.Spared (G - one a) (s0.inode a).inum) :
    Wp (sysLinkBad a) s (fun _ s' => SameDisk s0 s') := by
  have hfloor : ∀ b, 0 < (G - one a) b → 0 < G b := fun b hb => pos_of_sub hb
  unfold sysLinkBad
  simp only [wp_bind]
  refine (ilock_looks h hpos).imp ?_
  rintro - s2 ⟨-, h2, hq2⟩
  have hinum : (s2.inode a).inum = (s0.inode a).inum := by
    rw [hq2.inum a Int.one_pos, hq.inum a hpos, hr.inum a Int.one_pos]
  refine (addNlink_rest h2 List.mem_cons_self (-1)).mono ?_ fun _ he => he.elim
  rintro - s3 ⟨h3, hr3⟩
  rw [hinum] at hr3
  have hsame : SameDisk s0 s3 := hr.undo (hq.trans hq2.all).sameDisk hr3
  have hk := (((hr.toKeeps.mono fun _ _ => Int.one_pos).comp hq.toKeeps).comp
    (hq2.toKeeps.mono fun _ _ => Int.one_pos)).comp (hr3.toKeeps.mono fun _ _ => Int.one_pos)
  have hspared3 : s3.Spared (G - one a) (s3.inode a).inum := by
    rw [hr3.inum a Int.one_pos, hinum]
    exact hspared.keeps (hk.mono hfloor) (by rw [hsame.nodes])
  refine (iunlockput_rest h3 List.not_mem_nil hspared3).mono ?_ fun _ _ => trivial
  rintro - s4 ⟨-, hq4⟩
  exact ⟨hq4.vol.trans hsame.vol, hq4.dinode.trans hsame.dinode⟩

theorem linkRaised_failed {s0 : State} (h : Rest G [] s) (hpos : 0 < G a)
    (hcwd : ∀ c, (s.proc p).cwd = some c → 0 < G c) (ho : s.NoOrphan G)
    (hr : Relinks (s0.inode a).inum 1 s0 s₁) (hq : Quiet G s₁ s)
    (hspared : s0.Spared (G - one a) (s0.inode a).inum) (new : List Byte) :
    Wp (linkRaised p a new) s (fun r s' => r = -1 → SameDisk s0 s') := by
  -- leaving through `bad` after having looked around
  have hbad : ∀ s', Rest G [] s' → Quiet G s s' →
      Wp (sysLinkBad a) s' (fun r s'' => r = -1 → SameDisk s0 s'') :=
    fun s' h' hq' => (sysLinkBad_restores h' hpos hr (hq.trans hq') hspared).imp fun _ _ he _ => he
  unfold linkRaised nameiparent
  refine (namex_rest h hcwd ho true new).bind ?_ fun _ _ => trivial
  rintro (_ | ⟨dp, name⟩) s2 ⟨hq2, -, h2⟩
  · exact hbad s2 h2 hq2
  obtain ⟨h2, hdpS⟩ := h2
  have hdp := pos_add_one h.held.nonneg dp
  have hfloor : ∀ b, 0 < G b → 0 < (G + one dp) b := fun b hb => pos_add dp b hb
  simp only [wp_bind]
  refine (ilock_looks h2 hdp).imp ?_
  rintro - s3 ⟨-, h3, hq3⟩
  rw [wp_getInode]
  obtain ⟨m, hm, hmt, -⟩ := h3.held.node List.mem_cons_self h3.disk
  by_cases ht : m.type = .dir
  · refine (dirlink_rest h3 List.mem_cons_self hm ht name _).mono ?_ fun _ _ => trivial
    rintro r s4 ⟨h4, hlink⟩
    cases r with
    | true =>
      simp only [if_true, wp_bind]
      exact wp_any.imp fun _ _ _ => wp_any.imp fun _ _ _ he => by cases he
    | false =>
      have hq4 : Quiet (G + one dp) s3 s4 := by
        unfold LinkDoes at hlink
        split at hlink
        · exact hlink.2
        · cases hlink.1
      simp only [Bool.false_eq_true, if_false, wp_bind]
      have hdpS4 := hdpS.slot (hq3.all.trans hq4) hfloor hdp
      refine (iunlockput_rest h4 List.not_mem_nil (by rwa [add_sub_cancel_right])).mono ?_
        fun _ _ => trivial
      rintro - s5 ⟨h5, hq5⟩
      rw [add_sub_cancel_right] at h5
      exact hbad s5 h5 ((hq2.trans ((hq3.all.trans hq4).mono hfloor)).trans hq5.all)
  · unfold dirlink dirlookup
    simp only [wp_bind, wp_getInode, hmt]
    rw [if_pos fun he => ht (Option.some.inj he)]
    trivial

theorem link_failed (h : Rest G [] s) (hcwd : ∀ c, (s.proc p).cwd = some c → 0 < G c)
    (ho : s.NoOrphan G) (old new : List Byte) :
    Wp (link p old new) s (fun r s' => r = -1 → SameDisk s s') := by
  unfold link
  refine (namei_rest h hcwd ho old).bind ?_ fun _ _ => trivial
  rintro (_ | ip) s₁ ⟨hq1, -, h1⟩
  · exact fun _ => hq1.sameDisk
  obtain ⟨h1, hspared⟩ := h1
  have hip := pos_add_one h.held.nonneg ip
  have hfloor : ∀ b, 0 < G b → 0 < (G + one ip) b := fun b hb => pos_add ip b hb
  simp only [wp_bind]
  refine (ilock_looks h1 hip).imp ?_
  rintro - s2 ⟨-, h2, hq2⟩
  have hspared2 : s2.Spared (G + one ip - one ip) (s2.inode ip).inum := by
    rw [add_sub_cancel_right]
    exact hspared.slot hq2 (fun _ _ => Int.one_pos) Int.one_pos
  have hq : Quiet G s s2 := hq1.trans hq2.all
  rw [wp_getInode]
  split
  case isTrue =>
    refine (iunlockput_rest h2 List.not_mem_nil hspared2).bind ?_ fun _ _ => trivial
    exact fun _ s3 hr _ => (hq.trans hr.2.all).sameDisk
  case isFalse =>
    simp only [wp_bind]
    refine (addNlink_rest h2 List.mem_cons_self 1).mono ?_ fun _ he => he.elim
    rintro - s3 ⟨h3, hr3⟩
    have ho3 : s3.NoOrphan (G + one ip) :=
      hr3.noOrphan h2 hip (by rw [add_sub_cancel_right]; exact ho.quiet hq)
    refine (iunlock_rest h3 List.not_mem_nil).mono ?_ fun _ he => he.elim
    rintro - s4 ⟨h4, hq4⟩
    have hcwd4 : ∀ c, (s4.proc p).cwd = some c → 0 < (G + one ip) c := by
      rw [hq4.proc, hr3.proc, hq.proc]
      exact fun c hc => hfloor c (hcwd c hc)
    refine (linkRaised_failed h4 hip hcwd4 (ho3.quiet hq4.all) hr3 hq4.all hspared2 new).imp ?_
    rintro r s5 hr hneg
    obtain ⟨hvol, hdinode⟩ := hr hneg
    exact ⟨hvol.trans hq.vol, hdinode.trans hq.dinode⟩

/-! ## `create` -/

theorem State.missing_iff {d : Nat} {name path : List Byte}
    (hw : s.resolve p true path = some (d, name)) :
    s.Missing p path ↔ child s.nodes d name = none := by
  constructor
  · rintro ⟨d', name', hw', hnone⟩
    rw [hw] at hw'
    cases hw'
    exact hnone
  · exact fun hnone => ⟨d, name, hw, hnone⟩

/-- There is a new node `i`, with a link. -/
def Appears (i : Nat) (s s' : State) : Prop :=
  s.nodes i = none ∧ ∃ n, s'.nodes i = some n ∧ n.nlink ≠ 0

/-- How `create` ends: it only looked, it found the file `ip`, or it made it. -/
def CreateEnds (G : Fin ninode → Int) (p : Fin nproc) (path : List Byte) (type : FileType)
    (s : State) (r : Option (Fin ninode)) (s' : State) : Prop :=
  match r with
  | none => Quiet G s s' ∧ ¬ s.Missing p path
  | some ip =>
    Quiet G s s' ∧ Rest (G + one ip) [ip] s' ∧ s'.Spared G (s'.inode ip).inum ∧
        ¬ s.Missing p path ∨
      s.Missing p path ∧ (type = .file → Held (G + one ip) [ip] s' ∧ Disk s' ∧
        s'.file = s.file ∧ s'.proc = s.proc ∧ Appears (s'.inode ip).inum s s')

/-- `create` of a file from where it is known that there is none. -/
theorem createFile_appears {dp : Fin ninode} {m : Node} (h : Rest G [dp] s)
    (hm : s.nodes (s.inode dp).inum = some m) (name : List Byte) (major minor : BitVec 16) :
    Wp (do
        let ip ← ialloc .file
        createNew dp ip name .file major minor
        return some ip) s
      (fun r s' => ∃ ip, r = some ip ∧ Held (G - one dp + one ip) [ip] s' ∧ Disk s' ∧
        s'.file = s.file ∧ s'.proc = s.proc ∧ Appears (s'.inode ip).inum s s') := by
  refine (ialloc_held h.held .file).next ?_
  rintro ip s₁ ⟨h1, hk1, -⟩
  have hip := pos_add_one h.held.nonneg ip
  refine (createNew_held h1 hip name .file major minor).next ?_
  rintro - s2 ⟨h2, -, hk2⟩
  have hG : G + one ip - one dp = G - one dp + one ip := add_sub_right_comm ..
  rw [hG] at h2 hk2
  have hip2 : 0 < (G - one dp + one ip) ip := (h2.lock ip List.mem_cons_self).2.2
  have hdp := (h.held.lock dp List.mem_cons_self).2.2
  obtain ⟨hd1, hnone, hnew⟩ := hk1.disk h.disk
  obtain ⟨hd2, N, ⟨m', hm', _, rfl, m'', k, -, -, -, -, -, -, rfl⟩, hreaps⟩ := hk2.disk hd1
  refine ⟨ip, rfl, h2, hd2, hk2.file.trans hk1.file, hk2.proc.trans hk1.proc, ?_⟩
  rw [hk2.inum ip hip2]
  have hne : (s₁.inode ip).inum ≠ (s₁.inode dp).inum := by
    rw [hk1.inum dp hdp]
    intro he
    rw [he, hm] at hnone
    cases hnone
  refine ⟨hnone, { m' with nlink := 1 }, ?_, Int.one_ne_zero⟩
  rw [hreaps.kept ⟨ip, hip2, rfl⟩, update_of_ne hne, update_self]

theorem create_ends (h : Rest G [] s) (hcwd : ∀ c, (s.proc p).cwd = some c → 0 < G c)
    (ho : s.NoOrphan G) (path : List Byte) (type : FileType) (major minor : BitVec 16) :
    Wp (create p path type major minor) s (CreateEnds G p path type s) := by
  unfold create nameiparent
  refine (namex_rest h hcwd ho true path).bind ?_ fun _ _ => trivial
  rintro (_ | ⟨dp, name⟩) s₁ ⟨hq1, hw, h1⟩
  · refine ⟨hq1, ?_⟩
    rintro ⟨d, name, hw', -⟩
    rw [hw] at hw'
    cases hw'
  obtain ⟨h1, hdpS⟩ := h1
  have hdp := pos_add_one h.held.nonneg dp
  have hfloor : ∀ b, 0 < G b → 0 < (G + one dp) b := fun b hb => pos_add dp b hb
  simp only [wp_bind]
  refine (ilock_looks h1 hdp).imp ?_
  rintro - s2 ⟨-, h2, hq2⟩
  have hq12 : Quiet G s s2 := hq1.trans hq2.all
  refine (dirlookup_looks h2 List.mem_cons_self name).imp ?_
  rintro r s3 ⟨m, hm, ht, hq3, hr⟩
  have hmissing : s.Missing p path ↔ lookup m.bytes name = none := by
    have hm0 : s.nodes (s₁.inode dp).inum = some m := by
      rw [← hq2.inum dp Int.one_pos, ← hq12.nodes, hm]
    rw [State.missing_iff hw, child_dir hm0 ht, Option.map_eq_none_iff]
  rcases r with _ | ⟨ip, off⟩
  · -- there is no such name: a new inode
    obtain ⟨hnone, -, rfl⟩ := hr
    by_cases hfile : type = .file
    · subst hfile
      refine (createFile_appears h2 hm name major minor).imp ?_
      rintro - s4 ⟨ip, rfl, h4, hd4, hfile4, hproc4, happ⟩
      rw [add_sub_cancel_right] at h4
      refine .inr ⟨hmissing.mpr hnone, fun _ => ⟨h4, hd4, hfile4.trans hq12.file,
        hproc4.trans hq12.proc, ?_⟩⟩
      unfold Appears at *
      rwa [hq12.nodes] at happ
    · simp only [wp_bind]
      exact wp_any.imp fun _ _ _ => wp_any.imp fun _ _ _ =>
        .inr ⟨hmissing.mpr hnone, fun he => absurd he hfile⟩
  · -- the name exists
    obtain ⟨h3, -, k, hk, -, hinum⟩ := hr
    have hnot : ¬ s.Missing p path := by
      rw [hmissing, hk]
      rintro ⟨⟩
    have hip := pos_add_one h.held.nonneg ip
    have hG : G + one dp + one ip - one dp = G + one ip := by
      rw [add_right_comm, add_sub_cancel_right]
    have hq13 : Quiet G s s3 := hq12.trans (hq3.mono hfloor)
    have hnew : s3.Spared G (s3.inode ip).inum := by
      have hexp := exposed_of_lookup hm ht hk
      rw [← hinum] at hexp
      exact ((ho.quiet hq12) _ hexp).quiet (hq3.mono hfloor)
    have hdpS3 := hdpS.slot (hq2.all.trans hq3) hfloor hdp
    simp only [wp_bind]
    refine (iunlockput_rest h3 List.not_mem_nil ?_).mono ?_ fun _ _ => trivial
    · rw [hG]
      exact hdpS3.mono fun b hb => pos_add ip b hb
    rintro - s4 ⟨h4, hq4⟩
    rw [hG] at h4
    refine (ilock_looks h4 hip).imp ?_
    rintro - s5 ⟨-, h5, hq5⟩
    have hq35 := hq4.trans hq5
    have hnew5 := hnew.slot hq35 (fun _ _ => Int.one_pos) Int.one_pos
    rw [wp_getInode]
    split
    case isTrue => exact .inl ⟨hq13.trans hq35.all, h5, hnew5, hnot⟩
    case isFalse =>
      refine (iunlockput_rest h5 List.not_mem_nil (by rwa [add_sub_cancel_right])).bind ?_
        fun _ _ => trivial
      rintro - s6 ⟨-, hq6⟩
      exact ⟨hq13.trans (hq35.trans hq6).all, hnot⟩

/-! ## `open` -/

/-- Files do not matter to what is on the disk and in the inode cache. -/
theorem Rest.withFiles (h : Rest G L s) (file : Fin nfile → File) :
    Rest G L { s with file := file } :=
  ⟨h.held.congr rfl, ⟨h.disk.own, h.disk.covers, h.disk.cached, h.disk.unique⟩, h.unlocked⟩

/-- `sys_open` from where the inode is locked: it fails only for want of a file structure or a
descriptor, and then it puts the inode. -/
theorem openLocked_failed {Q : State → Prop}
    (hidle : ∀ f, (s.file f).ref = 0 → (s.file f).kind ≠ .inode)
    (hput : ∀ file, Wp (iunlockput a) { s with file := file } (fun _ s' => Q s'))
    (omode : Word) :
    Wp (openLocked p a omode) s (fun r s' => r = -1 → s.Full p ∧ Q s') := by
  unfold openLocked filealloc
  simp only [wp_bind, wp_get]
  cases hf : (List.finRange nfile).find? fun f => decide ((s.file f).ref = 0) with
  | none =>
    have hfull : s.Full p := .inl fun f h0 =>
      List.find?_eq_none.mp hf f (List.mem_finRange f) (decide_eq_true h0)
    simp only [wp_pure, wp_bind]
    exact (hput s.file).imp fun _ s' hQ _ => ⟨hfull, hQ⟩
  | some f =>
    have href : (s.file f).ref = 0 := by simpa using List.find?_some hf
    unfold fdalloc
    simp only [wp_bind, wp_setFile, wp_pure, wp_getProc]
    cases hfd : (List.finRange nofile).find? fun fd =>
        (((s.withFile f { s.file f with ref := 1 }).proc p).ofile fd).isNone with
    | none =>
      have hfull : s.Full p := .inr fun fd hnone =>
        List.find?_eq_none.mp hfd fd (List.mem_finRange fd) (Option.isNone_iff_eq_none.mpr hnone)
      unfold fileclose
      simp only [wp_pure, wp_bind, wp_getFile, withFile_self]
      -- the structure goes back as it was; what it was for before is closed
      rw [if_neg (by decide), if_neg (by decide), wp_bind, wp_setFile, if_neg (hidle f href),
        wp_pure]
      exact (hput _).imp fun _ s' hQ _ => ⟨hfull, hQ⟩
    | some fd =>
      unfold setOfile
      simp only [wp_bind, wp_getProc, wp_setProc, wp_pure, wp_getFile, wp_setFile]
      refine wp_any.imp fun _ s' _ hneg => ?_
      have := Int.natCast_nonneg fd.val
      omega

/-- How an `open` that returns `-1` ends: it lost a file that it made, or it only looked. -/
def OpenFails (p : Fin nproc) (path : List Byte) (omode : Word) (s s' : State) : Prop :=
  s.LosesFile p path omode ∧ (∃ i, s.nodes i = none ∧ s'.nodes i ≠ none) ∨
    ¬ s.LosesFile p path omode ∧ SameDisk s s'

theorem openLocked_looks (h : Rest (G + one a) [a] s) (hspared : s.Spared G (s.inode a).inum)
    (hidle : ∀ f, (s.file f).ref = 0 → (s.file f).kind ≠ .inode) (omode : Word) :
    Wp (openLocked p a omode) s (fun r s' => r = -1 → SameDisk s s') := by
  refine (openLocked_failed hidle (fun file => ?_) omode).imp fun _ _ hr hneg => (hr hneg).2
  refine (iunlockput_rest (h.withFiles file) List.not_mem_nil ?_).mono ?_ fun _ _ => trivial
  · rw [add_sub_cancel_right]
    exact hspared
  · rintro - s' ⟨-, hq⟩
    exact ⟨hq.vol, hq.dinode⟩

/-- **A new file that cannot be opened** stays. -/
theorem open_unopened {i : Nat} (h : Held (G + one a) [a] s) (hd : Disk s)
    (hidle : ∀ f, (s.file f).ref = 0 → (s.file f).kind ≠ .inode)
    (hnode : ∃ n, s.nodes i = some n ∧ n.nlink ≠ 0) (omode : Word) :
    Wp (openLocked p a omode) s (fun r s' => r = -1 → s.Full p ∧ s'.nodes i ≠ none) := by
  obtain ⟨n, hn, hlink⟩ := hnode
  refine openLocked_failed hidle (fun file => ?_) omode
  have h' : Held (G + one a) [a] { s with file := file } := h.congr rfl
  refine (iunlockput_held h' List.mem_cons_self [] (fun b hb => nomatch hb) nofun).imp ?_
  rintro - s' ⟨-, hk⟩
  obtain ⟨-, hreaps⟩ := hk.disk ⟨hd.own, hd.covers, hd.cached, hd.unique⟩
  rcases hreaps i with hsame | ⟨-, -, n', hn', h0⟩
  · rw [hsame]
    exact fun hnone => nomatch hn.symm.trans hnone
  · cases hn.symm.trans hn'
    exact absurd h0 hlink

theorem open_fails (h : Rest G [] s) (hcwd : ∀ c, (s.proc p).cwd = some c → 0 < G c)
    (ho : s.NoOrphan G) (hidle : ∀ f, (s.file f).ref = 0 → (s.file f).kind ≠ .inode)
    (path : List Byte) (omode : Word) :
    Wp (open_ p path omode) s (fun r s' => r = -1 → OpenFails p path omode s s') := by
  unfold open_
  split
  case isTrue hcreate =>
    refine (create_ends h hcwd ho path .file 0#16 0#16).next ?_
    rintro (_ | ip) s₁ hr
    · exact fun _ => .inr ⟨fun hl => hr.2 hl.2.1, hr.1.sameDisk⟩
    rcases hr with ⟨hq, h1, hspared, hnot⟩ | ⟨hmissing, hmade⟩
    · refine (openLocked_looks h1 hspared (by rwa [hq.file]) omode).imp ?_
      rintro r s2 hr hneg
      obtain ⟨hvol, hdinode⟩ := hr hneg
      exact .inr ⟨fun hl => hnot hl.2.1, hvol.trans hq.vol, hdinode.trans hq.dinode⟩
    · obtain ⟨h1, hd1, hfile, hproc, hfree, hnode⟩ := hmade rfl
      refine (open_unopened h1 hd1 (by rwa [hfile]) hnode omode).imp ?_
      rintro r s2 hr hneg
      obtain ⟨hfull, hthere⟩ := hr hneg
      unfold State.Full at hfull
      rw [hfile, hproc] at hfull
      exact .inl ⟨⟨hcreate, hmissing, hfull⟩, _, hfree, hthere⟩
  case isFalse hcreate =>
    have hnot : ¬ s.LosesFile p path omode := fun hl => hcreate hl.1
    refine (namei_rest h hcwd ho path).bind ?_ fun _ _ => trivial
    rintro (_ | ip) s₁ ⟨hq1, -, h1⟩
    · exact fun _ => .inr ⟨hnot, hq1.sameDisk⟩
    obtain ⟨h1, hspared⟩ := h1
    simp only [wp_bind]
    refine (ilock_looks h1 (pos_add_one h.held.nonneg ip)).imp ?_
    rintro - s2 ⟨-, h2, hq2⟩
    have hq : Quiet G s s2 := hq1.trans hq2.all
    have hspared2 := hspared.slot hq2 (fun _ _ => Int.one_pos) Int.one_pos
    rw [wp_getInode]
    split
    case isTrue =>
      refine (iunlockput_rest h2 List.not_mem_nil (by rwa [add_sub_cancel_right])).bind ?_
        fun _ _ => trivial
      exact fun _ s3 hr _ => .inr ⟨hnot, (hq.trans hr.2.all).sameDisk⟩
    case isFalse =>
      refine (openLocked_looks h2 hspared2 (by rwa [hq.file]) omode).imp ?_
      rintro r s3 hr hneg
      obtain ⟨hvol, hdinode⟩ := hr hneg
      exact .inr ⟨hnot, hvol.trans hq.vol, hdinode.trans hq.dinode⟩

theorem createAndPut_failed (h : Rest G [] s) (hcwd : ∀ c, (s.proc p).cwd = some c → 0 < G c)
    (ho : s.NoOrphan G) (path : List Byte) (type : FileType) (major minor : BitVec 16) :
    Wp (createAndPut p path type major minor) s (fun r s' => r = -1 → SameDisk s s') := by
  unfold createAndPut
  refine (create_ends h hcwd ho path type major minor).next ?_
  rintro (_ | ip) s₁ hr
  · exact fun _ => hr.1.sameDisk
  · rw [wp_bind]
    exact wp_any.imp fun _ _ _ => nofun

end Looking

/-! ## The calls -/

/-- The calls on names, with the strings that were fetched. -/
inductive NameCall where
  | link (old new : Option (List Byte))
  | unlink (path : Option (List Byte))
  | mkdir (path : Option (List Byte))
  | mknod (path : Option (List Byte)) (major minor : Word)
  | open (path : Option (List Byte)) (omode : Word)

def nameCall (p : Fin nproc) : NameCall → FsM Int
  | .link old new => sysLink p old new
  | .unlink path => sysUnlink p path
  | .mkdir path => sysMkdir p path
  | .mknod path major minor => sysMknod p path major minor
  | .open path omode => sysOpen p path omode

/-- The entries of directory `i`: names and inode numbers. -/
def State.entriesOf (s : State) (i : Nat) : Set (List Byte × Nat) :=
  {e | ∃ m, s.nodes i = some m ∧ m.type = .dir ∧ some e ∈ slotsOf m.bytes}

/-- The tree is the same: the inodes with their types, link counts and sizes, the entries of the
directories, and which blocks are allocated. -/
structure Untouched (s s' : State) : Prop where
  type : ∀ i, (s'.dinode i).type = (s.dinode i).type
  nlink : ∀ i, (s'.dinode i).nlink = (s.dinode i).nlink
  size : ∀ i, (s'.dinode i).size = (s.dinode i).size
  entries : ∀ i, s'.entriesOf i = s.entriesOf i
  blocks : s'.vol.bit = s.vol.bit

/-- Between two calls: the disk is well formed and nobody holds a lock, the current directory is
referred to, nodes without links that can be found are in use, and file structures that are free are
for nothing. -/
structure Calm (s : State) (p : Fin nproc) : Prop where
  settled : Settled s
  cwd : ∀ c, (s.proc p).cwd = some c → 0 < (s.inode c).ref
  links : s.NoOrphan fun b => (s.inode b).ref
  idle : ∀ f, (s.file f).ref = 0 → (s.file f).kind ≠ .inode

/-- The call makes a file and cannot open it. -/
def State.Loses (s : State) (p : Fin nproc) : NameCall → Prop
  | .open path omode => ∃ path' ∈ argstr path, s.LosesFile p path' omode
  | _ => False

section Calls

variable {s s' : State} {p : Fin nproc}

theorem SameDisk.untouched (h : SameDisk s s') : Untouched s s' := by
  have hentries : ∀ i, s'.entriesOf i = s.entriesOf i := fun i => by
    unfold State.entriesOf
    rw [h.nodes]
  exact ⟨fun i => by rw [h.dinode], fun i => by rw [h.dinode], fun i => by rw [h.dinode], hentries,
    by rw [h.vol]⟩

theorem Untouched.nodes_none (h : Untouched s s') {i : Nat} (hnone : s.nodes i = none) :
    s'.nodes i = none := by
  have ht := h.type i
  unfold State.nodes nodeOf at *
  cases hs : (s.dinode i).type with
  | none =>
    rw [hs] at ht
    rw [ht]
    rfl
  | some type => simp [hs] at hnone

/-- How a call that returns `-1` ends. -/
def CallFails (p : Fin nproc) (call : NameCall) (s s' : State) : Prop :=
  s.Loses p call ∧ (∃ i, s.nodes i = none ∧ s'.nodes i ≠ none) ∨ ¬ s.Loses p call ∧ SameDisk s s'

theorem nameCall_fails (h : Calm s p) (call : NameCall) :
    Wp (nameCall p call) s (fun r s' => r = -1 → CallFails p call s s') := by
  have hrest := h.settled.rest
  have hsame : SameDisk s s := ⟨rfl, rfl⟩
  have hlook : ∀ {m : FsM Int}, ¬ s.Loses p call →
      Wp m s (fun r s' => r = -1 → SameDisk s s') (fun _ => True) →
      Wp m s (fun r s' => r = -1 → CallFails p call s s') :=
    fun hnot hm => hm.imp fun _ _ hr hneg => .inr ⟨hnot, hr hneg⟩
  cases call with
  | link old new =>
    refine hlook id ?_
    rw [nameCall, sysLink]
    split
    · exact link_failed hrest h.cwd h.links _ _
    · exact fun _ => hsame
  | unlink path =>
    refine hlook id ?_
    rw [nameCall, sysUnlink]
    split
    · exact unlink_failed hrest h.cwd h.links _
    · exact fun _ => hsame
  | mkdir path =>
    refine hlook id ?_
    rw [nameCall, sysMkdir]
    split
    · exact createAndPut_failed hrest h.cwd h.links _ _ _ _
    · exact fun _ => hsame
  | mknod path major minor =>
    refine hlook id ?_
    rw [nameCall, sysMknod]
    split
    · exact createAndPut_failed hrest h.cwd h.links _ _ _ _
    · exact fun _ => hsame
  | «open» path omode =>
    rw [nameCall, sysOpen]
    cases hpath : argstr path with
    | none => exact fun _ => .inr ⟨by simp [State.Loses, hpath], hsame⟩
    | some path' =>
      have hloses : s.Loses p (.open path omode) ↔ s.LosesFile p path' omode := by
        simp [State.Loses, hpath]
      simp only [CallFails, hloses]
      exact open_fails hrest h.cwd h.links h.idle path' omode

end Calls

/-- **Failed calls on names leave the tree alone, except an `open` that makes a file it cannot
open**: of the calls of `link`, `unlink`, `mkdir`, `mknod` and `open` that return `-1`, in any
state and with any arguments, exactly those of `open` with `O_CREATE` for a new file, without a free
file structure or a free descriptor, leave anything changed. -/
theorem failed_call_untouched_iff (s s' : State) (p : Fin nproc) (call : NameCall) (h : Calm s p)
    (hr : nameCall p call s = .ok (-1, s')) : Untouched s s' ↔ ¬ s.Loses p call := by
  rcases (nameCall_fails h call).ok hr rfl with ⟨hloses, i, hnone, hsome⟩ | ⟨hnot, hsame⟩
  · exact ⟨fun hu => absurd (hu.nodes_none hnone) hsome, fun hnot => absurd hloses hnot⟩
  · exact ⟨fun _ => hnot, fun _ => hsame.untouched⟩

/-- A call that returns `-1`, where `q` holds after it, from one evaluation. -/
theorem nameCall_of_eval (p : Fin nproc) (call : NameCall) (s : State) (q : State → Bool)
    (h : (match nameCall p call s with
      | .error _ => false
      | .ok (r, s') => decide (r = -1) && q s') = true) :
    ∃ s', nameCall p call s = .ok (-1, s') ∧ q s' = true := by
  cases hr : nameCall p call s with
  | error e => simp [hr] at h
  | ok x =>
    obtain ⟨r, s'⟩ := x
    simp only [hr, Bool.and_eq_true, decide_eq_true_eq] at h
    obtain ⟨rfl, hq⟩ := h
    exact ⟨s', rfl, hq⟩

/-- The root directory is opened, and then all other descriptors are used for it. -/
def useDescriptors : List (Fin nproc × Call) :=
  (initproc, .open (some [slash]) 0#32) :: List.replicate 15 (initproc, .dup 0#32)

/-- With all descriptors in use, `open("a", O_CREATE)` returns `-1`, and there is a new inode 2 and
an entry for it. -/
theorem failed_open_leaves_file :
    ∃ s s', run step emptyBoot useDescriptors = .ok s ∧
      nameCall initproc (.open (some [97#8]) 0x200#32) s = .ok (-1, s') ∧
      (s.dinode 2).type = none ∧ (s'.dinode 2).type = some .file ∧ (s'.dinode 2).nlink = 1 ∧
      dirMap (s.dirBytes 0) [97#8] = none ∧ dirMap (s'.dirBytes 0) [97#8] = some 2 ∧
      ¬ Untouched s s' := by
  obtain ⟨s, hs, hq⟩ := run_ok_of_eval step emptyBoot useDescriptors
    (fun s => match nameCall initproc (.open (some [97#8]) 0x200#32) s with
      | .error _ => false
      | .ok (r, s') => decide (r = -1) && decide ((s.dinode 2).type = none ∧
          (s'.dinode 2).type = some .file ∧ (s'.dinode 2).nlink = 1 ∧
          dirMap (s.dirBytes 0) [97#8] = none ∧ dirMap (s'.dirBytes 0) [97#8] = some 2))
    (by decide +kernel)
  obtain ⟨s', hs', hq⟩ := nameCall_of_eval _ _ _ _ hq
  obtain ⟨hnone, hfile, hnlink, hbefore, hafter⟩ := of_decide_eq_true hq
  refine ⟨s, s', hs, hs', hnone, hfile, hnlink, hbefore, hafter, fun hu => ?_⟩
  rw [hu.type 2, hnone] at hfile
  cases hfile

theorem emptyBoot_calm : Calm emptyBoot initproc where
  settled := emptyBoot_settled
  cwd := emptyBoot_inTree.cwd_ref
  links := emptyBoot_inTree.links
  idle _ _ := nofun

/-- The empty disk with every file structure in use. -/
def noFile : State := { emptyBoot with file := fun _ => { File.unused with ref := 1 } }

theorem noFile_calm : Calm noFile initproc where
  settled :=
    have h := emptyBoot_settled.disk
    ⟨⟨h.own, h.covers, h.cached, h.unique⟩, emptyBoot_settled.nonneg, emptyBoot_settled.unlocked⟩
  cwd := emptyBoot_inTree.cwd_ref
  links := emptyBoot_inTree.links
  idle _ h := absurd (show (1 : Int) = 0 from h) (by decide)

/-- `open("/", 0)` finds the directory and locks it, and there is no file structure for it. -/
theorem failed_call_untouched_no_file :
    ∃ s', nameCall initproc (.open (some [slash]) 0#32) noFile = .ok (-1, s') ∧
      Untouched noFile s' := by
  obtain ⟨s', hr, -⟩ := nameCall_of_eval initproc (.open (some [slash]) 0#32) noFile (fun _ => true)
    (by decide +kernel)
  refine ⟨s', hr, (failed_call_untouched_iff _ s' initproc _ noFile_calm hr).mpr ?_⟩
  rintro ⟨path, -, hcreate, -⟩
  exact absurd hcreate (by decide)

end Xv6Mmap.Fs
