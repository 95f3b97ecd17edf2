import Xv6Mmap.FsDir
import Xv6Mmap.SysFile

/-!
# Links: what `create`, `link` and `unlink` do (`sysfile.c:119-285`)

The parts of `sys_link`, `sys_unlink`, `sys_open`, `sys_mkdir` and `sys_mknod` that change link
counts and directories, as relations between the nodes before and after. On the way, at any `iput`,
nodes without links may be freed; those steps are moved out of the middle of each relation, so that
what is between them is one change (`Links`, `Unlinks`, `Creates`).
-/

namespace Xv6Mmap.Fs

open Lib
open Function (update update_self update_of_ne update_eq_self update_idem)

/-- The link count of node `i` changes by `n`. -/
def Relinked (i : Nat) (n : Int) (N N' : Nodes) : Prop :=
  ∃ m, N i = some m ∧ N' = update N i (some { m with nlink := m.nlink + n })

section Specs

variable {G : Fin ninode → Int} {L : List (Fin ninode)} {s : State} {a dp ip : Fin ninode}

theorem addNlink_held (h : Held G L s) (ha : a ∈ L) (F : Fin ninode → Int) (n : Int) :
    Wp (addNlink a n) s
      (fun _ s' => Held G L s' ∧ Keeps F (Relinked (s.inode a).inum n) s s') := by
  unfold addNlink
  simp only [wp_bind, wp_getInode, wp_setCopy, wp_iupdate, slot_self]
  obtain ⟨h', hk⟩ := store_held h ha F
    (d := { (s.inode a).copy with nlink := (s.inode a).copy.nlink + n }) rfl rfl rfl
  refine ⟨h', hk.sb, hk.file, hk.proc, hk.inum, fun hd => ?_⟩
  obtain ⟨hd', m, hm, hN⟩ := hk.disk hd
  obtain ⟨m', hm', -, -, hnl⟩ := h.node ha hd
  rw [hm] at hm'
  cases hm'
  exact ⟨hd', m, hm, by rw [← hnl]; exact hN⟩

theorem mustLink_held (h : Held G L s) (ha : a ∈ L) (name : List Byte) (inum : Nat) (msg : String) :
    Wp (mustLink a name inum msg) s
      (fun _ s' => Held G L s' ∧ Keeps G (Linked (s.inode a).inum name inum) s s') := by
  unfold mustLink
  refine (dirlink_held h ha name inum).next ?_
  rintro (_ | _) s' hr
  · trivial
  · exact hr

/-! ## `create` -/

/-- The entries of a new directory `i` in directory `d`, which gets the link of `..`. -/
def Dots (d i : Nat) : Nodes → Nodes → Prop :=
  Relation.Comp (Relinked d 1) (Relation.Comp (Linked i dot i) (Linked i dotdot d))

theorem createDots_held (h : Held G L s) (hdp : dp ∈ L) (hip : ip ∈ L) :
    Wp (createDots dp ip) s
      (fun _ s' => Held G L s' ∧ Keeps G (Dots (s.inode dp).inum (s.inode ip).inum) s s') := by
  have hd := (h.lock dp hdp).2.2
  have hi := (h.lock ip hip).2.2
  unfold createDots
  simp only [wp_bind, wp_getInode]
  refine (addNlink_held h hdp G 1).imp ?_
  rintro _ s1 ⟨h1, hk1⟩
  refine (mustLink_held h1 hip _ _ _).imp ?_
  rintro _ s2 ⟨h2, hk2⟩
  refine (mustLink_held h2 hip _ _ _).imp ?_
  rintro _ s3 ⟨h3, hk3⟩
  rw [hk1.inum ip hi] at hk2
  rw [hk2.inum ip hi, hk2.inum dp hd, hk1.inum ip hi, hk1.inum dp hd] at hk3
  exact ⟨h3, hk1.comp (hk2.comp hk3)⟩

theorem createWhenDir_held (h : Held G L s) (hdp : dp ∈ L) (hip : ip ∈ L) (type : FileType) :
    Wp (when (type = .dir) (createDots dp ip)) s
      (fun _ s' => Held G L s' ∧
        Keeps G (if type = .dir then Dots (s.inode dp).inum (s.inode ip).inum else Eq) s s') := by
  rw [wp_when]
  split
  case isTrue => exact createDots_held h hdp hip
  case isFalse => exact ⟨h, .refl G s⟩

/-- The new node `i` and its entry in directory `d`, up to where `create` lets go of `d`. -/
def Creates (type : FileType) (d i : Nat) (name : List Byte) (N N' : Nodes) : Prop :=
  N i = none ∧ d ≠ i ∧
    Relation.Comp (if type = .dir then Dots d i else Eq) (Linked d name i)
      (update N i (some ⟨type, 1, []⟩)) N'

theorem createNew_held (h : Held G [dp] s) (hpos : 0 < G ip) (name : List Byte) (type : FileType)
    (major minor : BitVec 16) :
    Wp (createNew dp ip name type major minor) s
      (fun _ s' => Held (G - one dp) [ip] s' ∧ ip ≠ dp ∧
        Keeps (G - one dp) (Relation.Comp
          (fun N N' => ∃ m, N (s.inode ip).inum = some m ∧
            Relation.Comp (if type = .dir then Dots (s.inode dp).inum (s.inode ip).inum else Eq)
              (Linked (s.inode dp).inum name (s.inode ip).inum)
              (update N (s.inode ip).inum (some { m with nlink := 1 })) N')
          (Reaps (s.named (G - one dp)))) s s') := by
  have hdp := (h.lock dp List.mem_cons_self).2.2
  unfold createNew
  simp only [wp_bind]
  refine (ilock_held h G).imp ?_
  rintro _ s1 ⟨hne, h1, hk1⟩
  have hne : ip ≠ dp := fun he => hne (he ▸ List.mem_cons_self)
  have hmem : ip ∈ [ip, dp] := List.mem_cons_self
  have hmem' : dp ∈ [ip, dp] := List.mem_cons_of_mem _ List.mem_cons_self
  simp only [wp_getInode, wp_setCopy, wp_iupdate, slot_self]
  obtain ⟨h2, hk2⟩ := store_held h1 hmem G
    (d := { (s1.inode ip).copy with major := major, minor := minor, nlink := 1 }) rfl rfl rfl
  refine Wp.imp (createWhenDir_held h2 hmem' hmem type) ?_
  rintro _ s3 ⟨h3, hk3⟩
  refine (mustLink_held h3 hmem' name _ _).imp ?_
  rintro _ s4 ⟨h4, hk4⟩
  refine (iunlockput_held h4 hmem' [ip] ?_ ?_).imp ?_
  · exact fun b hb => List.mem_cons.mpr (.inl (List.mem_singleton.mp hb))
  · exact fun hmem => hne (List.mem_singleton.mp hmem).symm
  rintro _ s5 ⟨h5, hk5⟩
  rw [hk2.inum dp hdp, hk2.inum ip hpos] at hk3
  rw [hk3.inum dp hdp, hk3.inum ip hpos, hk2.inum dp hdp, hk2.inum ip hpos] at hk4
  rw [hk1.inum ip hpos] at hk2 hk3 hk4
  rw [hk1.inum dp hdp] at hk3 hk4
  have hk := hk1.eq_comp (hk2.comp (hk3.comp hk4))
  refine ⟨h5, hne, Keeps.comp_frees ((hk.mono fun b hb => pos_of_sub hb).imp ?_) hk5⟩
  rintro ⟨N1, ⟨m, hm, rfl⟩, hrest⟩
  exact ⟨m, hm, hrest⟩

/-- What `create` for a path that names `w` returns: an inode that is locked. -/
def Created (G : Fin ninode → Int) (s : State) (w : Option (Nat × List Byte)) (type : FileType)
    (r : Option (Fin ninode)) (s' : State) : Prop :=
  match r with
  | none => Held G [] s' ∧ Frees G s s'
  | some ip => Held (G + one ip) [ip] s' ∧
    Keeps G (fun N N' => Reaps (s.named G) N N' ∨
      ∃ d name, w = some (d, name) ∧ 0 < (s'.inode ip).inum ∧ (s'.inode ip).inum < s.sb.ninodes ∧
        Relation.Comp (Reaps (s.named G)) (Relation.Comp
          (Creates type d (s'.inode ip).inum name) (Reaps (s.named G))) N N') s s'

variable {p : Fin nproc}

theorem create_held (h : Held G [] s) (hcwd : ∀ c, (s.proc p).cwd = some c → 0 < G c)
    (path : List Byte) (type : FileType) (major minor : BitVec 16) :
    Wp (create p path type major minor) s (Created G s (s.resolve p true path) type) := by
  unfold create nameiparent
  refine (namex_held h hcwd true path).next ?_
  rintro (_ | ⟨dp, name⟩) s1 ⟨hk1, h1⟩
  · exact ⟨h1, hk1⟩
  obtain ⟨h1, hw⟩ := h1
  simp only [wp_bind]
  refine (ilock_held h1 (G + one dp)).imp ?_
  rintro _ s2 ⟨-, h2, hk2⟩
  refine (dirlookup_held h2 List.mem_cons_self name).imp ?_
  have hfloor : ∀ b, 0 < G b → 0 < (G + one dp) b := fun b hb => pos_add dp b hb
  rintro (_ | ⟨ip, off⟩) s3 ⟨hk3, h3, hfound⟩
  · -- there is no such name: a new inode
    refine (ialloc_held h3 type).next ?_
    rintro ip s4 ⟨h4, hk4, hi⟩
    refine (createNew_held h4 (pos_add_one h3.nonneg ip) name type major minor).next ?_
    rintro _ s5 ⟨h5, hne, hk5⟩
    have hG : G + one dp + one ip - one dp = G + one ip := by
      rw [add_right_comm, add_sub_cancel_right]
    rw [hG] at h5 hk5
    have hdp : (s4.inode dp).inum = (s1.inode dp).inum := by
      have hpos := pos_add_one h.nonneg dp
      rw [hk4.inum dp hpos, hk3.inum dp hpos, hk2.inum dp hpos]
    have hip : (s5.inode ip).inum = (s4.inode ip).inum := hk5.inum ip (pos_add_one h.nonneg ip)
    have hk := ((hk2.eq_comp hk3).comp hk4).mono hfloor
    have hk' := (hk1.comp hk).comp (hk5.mono fun b hb => pos_add ip b hb)
    refine ⟨h5, hk'.sb, hk'.file, hk'.proc, hk'.inum, fun hd => ⟨(hk'.disk hd).1, .inr ?_⟩⟩
    obtain ⟨hd1, hr1⟩ := hk1.disk hd
    obtain ⟨hd2, he2⟩ := hk2.disk hd1
    obtain ⟨hd3, he3⟩ := hk3.disk hd2
    obtain ⟨hd4, hnone, hnew⟩ := hk4.disk hd3
    obtain ⟨-, N, ⟨m, hm, hcreate⟩, hr5⟩ := hk5.disk hd4
    obtain ⟨n, hn, -⟩ := hfound hd2
    rw [hk2.inum dp (pos_add_one h.nonneg dp), he3] at hn
    rw [hdp] at hcreate
    rw [hip]
    refine ⟨_, _, hw hd, hi.1, ?_, s3.nodes, (he2.trans he3) ▸ hr1, N, ⟨hnone, ?_, ?_⟩, ?_⟩
    · rw [← hk1.sb, ← hk2.sb, ← hk3.sb]
      exact hi.2
    · rintro he
      rw [he, hnone] at hn
      cases hn
    · rw [hnew, update_self] at hm
      cases hm
      rw [hnew, update_idem] at hcreate
      exact hcreate
    · refine hr5.mono fun i hi => ?_
      obtain ⟨b, hb, rfl⟩ := hi
      exact ⟨b, pos_add ip b hb, by rw [hk.inum b hb, hk1.inum b hb]⟩
  · -- the name exists
    simp only [wp_bind]
    refine (iunlockput_held h3 List.mem_cons_self [] (by simp) List.not_mem_nil).imp ?_
    rintro _ s4 ⟨h4, hk4⟩
    have hG : G + one dp + one ip - one dp = G + one ip := by
      rw [add_right_comm, add_sub_cancel_right]
    rw [hG] at h4 hk4
    have hk : Frees G s s4 := hk1.trans
      (((hk2.eq_comp hk3).mono hfloor).frees.trans (hk4.mono fun b hb => pos_add ip b hb))
    refine (ilock_held h4 G).imp ?_
    rintro _ s5 ⟨-, h5, hk5⟩
    simp only [wp_getInode]
    split
    case isTrue => exact ⟨h5, Keeps.imp (hk.trans hk5.frees) .inl⟩
    case isFalse =>
      refine (iunlockput_held h5 List.mem_cons_self [] (by simp) List.not_mem_nil).next ?_
      rintro _ s6 ⟨h6, hk6⟩
      rw [add_sub_cancel_right] at h6 hk6
      exact ⟨h6, (hk.trans hk5.frees).trans hk6⟩

/-! ## `unlink` -/

/-- The directory has no entries but the first two. -/
def Empty (bs : List Byte) : Prop := ∀ k, 2 ≤ k → k < entries bs → deInum (entry bs k) = 0

theorem isdiremptyLoop_held (h : Held G L s) (ha : a ∈ L) (F : Fin ninode → Int) (fuel k : Nat) :
    Wp (isdiremptyLoop a fuel (deSize * k)) s
      (fun r s' => Held G L s' ∧ Keeps F Eq s s' ∧
        (Disk s → s' = s ∧ ∀ m, s.nodes (s.inode a).inum = some m → m.type = .dir → r = true →
          ∀ j, k ≤ j → j < entries m.bytes → deInum (entry m.bytes j) = 0)) := by
  induction fuel generalizing s k with
  | zero => trivial
  | succ fuel ih =>
    rw [isdiremptyLoop]
    simp only [wp_bind, wp_getInode]
    split
    case isTrue hlt =>
      refine (readDirent_held h ha F k _).next ?_
      rintro de s1 ⟨h1, hk1, hde⟩
      split
      case isTrue => exact ⟨h1, hk1, fun hd => ⟨(hde hd).1, fun m _ _ hr => by cases hr⟩⟩
      case isFalse hzero =>
        refine (ih h1 (k + 1)).imp ?_
        rintro r s' ⟨h', hk', hr'⟩
        refine ⟨h', hk1.eq_comp hk', fun hd => ?_⟩
        obtain ⟨rfl, hent⟩ := hde hd
        refine ⟨(hr' hd).1, fun m hm ht hr j hj hlt => ?_⟩
        obtain rfl | hlt' := Nat.eq_or_lt_of_le hj
        · obtain ⟨-, rfl⟩ := hent m hm (by simp [ht])
          exact not_not.mp hzero
        · exact (hr' hd).2 m hm ht hr j hlt' hlt
    case isFalse hge =>
      refine ⟨h, .refl F s, fun hd => ⟨rfl, fun m hm ht _ j hj hlt => ?_⟩⟩
      obtain ⟨m', hm', -, hsize, -⟩ := h.node ha hd
      rw [hm] at hm'
      cases hm'
      unfold entries deSize at *
      omega

theorem removable_held (h : Held G L s) (ha : a ∈ L) (F : Fin ninode → Int) :
    Wp (removable a) s
      (fun r s' => Held G L s' ∧ Keeps F Eq s s' ∧
        (Disk s → r = true → ∀ m, s.nodes (s.inode a).inum = some m → m.type = .dir →
          Empty m.bytes)) := by
  unfold removable
  rw [wp_bind, wp_getInode]
  split
  case isTrue =>
    unfold isdirempty
    rw [wp_bind, wp_getInode, Nat.mul_comm 2 deSize]
    refine (isdiremptyLoop_held h ha F _ 2).imp ?_
    rintro r s' ⟨h', hk, hr⟩
    exact ⟨h', hk, fun hd ht m hm hdir => (hr hd).2 m hm hdir ht⟩
  case isFalse ht =>
    refine ⟨h, .refl F s, fun hd _ m hm hdir => ?_⟩
    obtain ⟨m', hm', hmt, -⟩ := h.node ha hd
    rw [hm] at hm'
    cases hm'
    rw [hdir] at hmt
    exact absurd hmt ht

/-- The entry at `off` of directory `d` is cleared and node `i` loses a link; if it is a directory,
so does `d`. -/
def Unlinks (d i off : Nat) (N N' : Nodes) : Prop :=
  ∃ m n, N d = some m ∧ N i = some n ∧ d ≠ i ∧ 1 ≤ n.nlink ∧ (n.type = .dir → Empty n.bytes) ∧
    off ≤ m.bytes.length ∧
    N' = update
      (update N d (some { m with
        bytes := splice m.bytes (List.replicate deSize 0#8) off
        nlink := m.nlink - if n.type = .dir then 1 else 0 })) i
      (some { n with nlink := n.nlink - 1 })

theorem sysUnlinkBad_held (h : Held G [dp] s) :
    Wp (sysUnlinkBad dp) s
      (fun _ s' => Held (G - one dp) [] s' ∧ Frees (G - one dp) s s') := by
  unfold sysUnlinkBad
  rw [wp_bind]
  exact iunlockput_held h List.mem_cons_self [] (fun b hb => nomatch hb) nofun

theorem Held.nodes_ne (h : Held G [ip, dp] s) (hne : ip ≠ dp) (hd : Disk s) :
    (s.inode dp).inum ≠ (s.inode ip).inum := by
  have hip := (h.lock ip List.mem_cons_self).2.2
  have hdp := (h.lock dp (List.mem_cons_of_mem _ List.mem_cons_self)).2.2
  rw [← h.ref] at hip hdp
  exact fun he => hne (hd.unique dp ip hdp hip he).symm

theorem unlinkCleared_held (h : Held G [ip, dp] s) (hne : ip ≠ dp) :
    Wp (unlinkCleared dp ip) s
      (fun _ s' => Held (G - one dp - one ip) [] s' ∧
        Keeps (G - one dp - one ip) (Relation.Comp
          (fun N N' => ∃ m n, N (s.inode dp).inum = some m ∧ N (s.inode ip).inum = some n ∧
            N' = update (update N (s.inode dp).inum
                (some { m with nlink := m.nlink - if n.type = .dir then 1 else 0 }))
              (s.inode ip).inum (some { n with nlink := n.nlink - 1 }))
          (Reaps (s.named (G - one dp - one ip)))) s s') := by
  have hip : ip ∈ [ip, dp] := List.mem_cons_self
  have hdp : dp ∈ [ip, dp] := List.mem_cons_of_mem _ List.mem_cons_self
  have hipos := (h.lock ip hip).2.2
  unfold unlinkCleared
  simp only [wp_bind, wp_getInode]
  have hwhen : Wp (when ((s.inode ip).copy.type = some .dir) (addNlink dp (-1))) s
      (fun _ s' => Held G [ip, dp] s' ∧ Keeps G (if (s.inode ip).copy.type = some .dir then
        Relinked (s.inode dp).inum (-1) else Eq) s s') := by
    rw [wp_when]
    split
    case isTrue => exact addNlink_held h hdp G (-1)
    case isFalse => exact ⟨h, .refl G s⟩
  refine hwhen.imp ?_
  rintro _ s1 ⟨h1, hk1⟩
  refine (iunlockput_held h1 hdp [ip] ?_ (by simpa using hne.symm)).imp ?_
  · exact fun b hb => List.mem_cons.mpr (.inl (List.mem_singleton.mp hb))
  rintro _ s2 ⟨h2, hk2⟩
  refine (addNlink_held h2 List.mem_cons_self (G - one dp) (-1)).imp ?_
  rintro _ s3 ⟨h3, hk3⟩
  refine (iunlockput_held h3 List.mem_cons_self [] (by simp) List.not_mem_nil).imp ?_
  rintro _ s4 ⟨h4, hk4⟩
  have hfloor : ∀ b, 0 < (G - one dp - one ip) b → 0 < (G - one dp) b := fun b hb => pos_of_sub hb
  have hk1' := hk1.mono (F := G - one dp) fun b hb => pos_of_sub hb
  have hipos' : 0 < (G - one dp) ip := by rwa [Pi.sub_apply, one_of_ne hne, Int.sub_zero]
  have hk := ((hk1'.comp hk2).comp hk3).mono hfloor |>.comp_frees hk4
  refine ⟨h4, hk.sb, hk.file, hk.proc, hk.inum, fun hd => ⟨(hk.disk hd).1, ?_⟩⟩
  have hdi := h.nodes_ne hne hd
  obtain ⟨m, hm, -⟩ := h.node hdp hd
  obtain ⟨n, hn, hnt, -⟩ := h.node hip hd
  obtain ⟨hd1, hr1⟩ := hk1.disk hd
  obtain ⟨hd2, hr2⟩ := hk2.disk hd1
  obtain ⟨hd3, n', hn', hN3⟩ := hk3.disk hd2
  obtain ⟨-, hr4⟩ := hk4.disk hd3
  have hN1 : s1.nodes = update s.nodes (s.inode dp).inum
      (some { m with nlink := m.nlink - if n.type = .dir then 1 else 0 }) := by
    rw [hnt] at hr1
    by_cases hdir : n.type = .dir
    · rw [if_pos (congrArg some hdir)] at hr1
      obtain ⟨m', hm', hN⟩ := hr1
      rw [hm] at hm'
      cases hm'
      rw [hN, if_pos hdir]
      rfl
    · rw [if_neg fun h => hdir (Option.some.inj h)] at hr1
      rw [if_neg hdir, Int.sub_zero, ← hr1, ← hm, update_eq_self]
  -- `ip` is referred to until the end, so its node is the one it was
  have hkept : s2.nodes (s.inode ip).inum = some n := by
    rw [hr2.kept ⟨ip, hipos', hk1.inum ip hipos⟩, hN1, update_of_ne hdi.symm, hn]
  have hinum : (s2.inode ip).inum = (s.inode ip).inum := by
    rw [hk2.inum ip hipos', hk1.inum ip hipos]
  rw [hinum, hkept] at hn'
  cases hn'
  refine ⟨_, ⟨m, n, hm, hn, rfl⟩, ?_⟩
  have hnamed : s3.named (G - one dp - one ip) = s.named (G - one dp - one ip) :=
    (((hk1'.comp hk2).comp hk3).mono hfloor).named
  rw [hnamed] at hr4
  refine Reaps.trans ?_ hr4
  rw [hN3, hinum, ← hN1]
  refine (hr2.update _ _).mono fun i hi => ?_
  rw [← hnamed, Keeps.named (hk3.mono hfloor), Keeps.named (hk2.mono hfloor)] at hi
  obtain ⟨b, hb, hi⟩ := hi
  exact ⟨b, hfloor b hb, hi⟩

theorem unlinkLocked_held (h : Held G [ip, dp] s) (hne : ip ≠ dp) (off : Nat) :
    Wp (unlinkLocked dp ip off) s
      (fun _ s' => Held (G - one dp - one ip) [] s' ∧
        Keeps (G - one dp - one ip) (fun N N' =>
          ∀ m, N (s.inode dp).inum = some m → m.type = .dir →
          Reaps (s.named (G - one dp - one ip)) N N' ∨
            Relation.Comp (Unlinks (s.inode dp).inum (s.inode ip).inum off)
              (Reaps (s.named (G - one dp - one ip))) N N') s s') := by
  have hip : ip ∈ [ip, dp] := List.mem_cons_self
  have hdp : dp ∈ [ip, dp] := List.mem_cons_of_mem _ List.mem_cons_self
  unfold unlinkLocked
  rw [wp_bind, wp_getInode]
  split
  case isTrue => trivial
  case isFalse hnl =>
    refine (removable_held h hip G).next ?_
    rintro r s1 ⟨h1, hk1, hempty⟩
    split
    case isTrue =>
      refine (iunlockput_held h1 hip [dp]
        (fun b hb => List.mem_cons_of_mem _ hb) (by simpa using hne)).next ?_
      rintro _ s2 ⟨h2, hk2⟩
      refine (sysUnlinkBad_held h2).imp ?_
      rintro _ s3 ⟨h3, hk3⟩
      have hG : G - one ip - one dp = G - one dp - one ip := sub_right_comm ..
      rw [hG] at h3 hk3
      refine ⟨h3, Keeps.imp ?_ fun hr _ _ _ => .inl hr⟩
      have hfloor : ∀ b, 0 < (G - one dp - one ip) b → 0 < (G - one ip) b := fun b hb => by
        rw [← hG] at hb
        exact pos_of_sub hb
      exact ((hk1.mono fun b hb => pos_of_sub (pos_of_sub hb)).frees.trans
        (hk2.mono hfloor)).trans hk3
    case isFalse hyes =>
      refine (writei_held h1 hdp G off _).bind ?_ fun _ _ => trivial
      rintro r' s2 ⟨h2, hk2, -⟩
      split
      case isTrue => trivial
      case isFalse hr' =>
        have hr' : r' = (deSize : Nat) := by simpa using hr'
        refine (unlinkCleared_held h2 hne).imp ?_
        rintro _ s3 ⟨h3, hk3⟩
        have hfloor : ∀ b, 0 < (G - one dp - one ip) b → 0 < G b := fun b hb =>
          pos_of_sub (pos_of_sub hb)
        have hk12 := (hk1.eq_comp hk2).mono hfloor
        have hk := hk12.comp hk3
        refine ⟨h3, hk.sb, hk.file, hk.proc, hk.inum, fun hd =>
          ⟨(hk.disk hd).1, fun m hm ht => .inr ?_⟩⟩
        have hdi := h.nodes_ne hne hd
        obtain ⟨n, hn, -, -, hnlink⟩ := h.node hip hd
        obtain ⟨hd1, he1⟩ := hk1.disk hd
        obtain ⟨hd2, m', hm', hw⟩ := hk2.disk hd1
        obtain ⟨-, N, ⟨m2, n2, hm2, hn2, rfl⟩, hr3⟩ := hk3.disk hd2
        rw [(hk1.eq_comp hk2).inum dp (h.lock dp hdp).2.2] at hm2 hr3
        rw [(hk1.eq_comp hk2).inum ip (h.lock ip hip).2.2] at hn2 hr3
        rw [hk1.inum dp (h.lock dp hdp).2.2, ← he1] at hw
        rw [hk1.inum dp (h.lock dp hdp).2.2, ← he1, hm] at hm'
        cases hm'
        rcases hw with ⟨-, hdev | ⟨hneg, -⟩⟩ | ⟨-, -, hoff, hN2⟩
        · rw [ht] at hdev
          cases hdev
        · rw [hneg] at hr'
          cases hr'
        rw [hN2, update_self] at hm2
        cases hm2
        rw [hN2, update_of_ne hdi.symm, hn] at hn2
        cases hn2
        rw [hk12.named, hN2, update_idem] at hr3
        refine ⟨_, ⟨m, n, hm, hn, hdi, ?_, fun hnt => ?_, hoff, rfl⟩, hr3⟩
        · rw [← hnlink]
          omega
        · exact hempty hd (by simpa using hyes) n hn hnt

/-- What `unlink` for a path that names `w` does: perhaps nothing. -/
def Unlinked (K : Set Nat) (w : Option (Nat × List Byte)) (N N' : Nodes) : Prop :=
  Reaps K N N' ∨ ∃ d name N₁ m k, w = some (d, name) ∧ Reaps K N N₁ ∧ N₁ d = some m ∧
    m.type = .dir ∧ lookup m.bytes name = some k ∧ namecmp name dot = false ∧
    namecmp name dotdot = false ∧
    Relation.Comp (Unlinks d (deInum (entry m.bytes k)) (deSize * k)) (Reaps K) N₁ N'

theorem unlink_held (h : Held G [] s) (hcwd : ∀ c, (s.proc p).cwd = some c → 0 < G c)
    (path : List Byte) :
    Wp (unlink p path) s
      (fun _ s' => Held G [] s' ∧ Keeps G (Unlinked (s.named G) (s.resolve p true path)) s s') := by
  unfold unlink nameiparent
  refine (namex_held h hcwd true path).next ?_
  rintro (_ | ⟨dp, name⟩) s1 ⟨hk1, h1⟩
  · exact ⟨h1, Keeps.imp hk1 .inl⟩
  obtain ⟨h1, hw⟩ := h1
  simp only [wp_bind]
  refine (ilock_held h1 (G + one dp)).imp ?_
  rintro _ s2 ⟨-, h2, hk2⟩
  have hfloor : ∀ b, 0 < G b → 0 < (G + one dp) b := fun b hb => pos_add dp b hb
  -- leaving without having done anything
  have hbad : ∀ s3, Held (G + one dp) [dp] s3 → Keeps (G + one dp) Eq s1 s3 →
      Wp (sysUnlinkBad dp) s3 (fun _ s' => Held G [] s' ∧
        Keeps G (Unlinked (s.named G) (s.resolve p true path)) s s') := by
    intro s3 h3 hk3
    refine (sysUnlinkBad_held h3).imp ?_
    rintro _ s4 ⟨h4, hk4⟩
    rw [add_sub_cancel_right] at h4 hk4
    exact ⟨h4, Keeps.imp ((hk1.trans (hk3.mono hfloor).frees).trans hk4) .inl⟩
  split
  case isTrue => exact hbad s2 h2 hk2
  case isFalse hdots =>
    refine (dirlookup_held h2 List.mem_cons_self name).next ?_
    rintro (_ | ⟨ip, off⟩) s3 ⟨hk3, h3, hfound⟩
    · exact hbad s3 h3 (hk2.eq_comp hk3)
    refine (ilock_held h3 (G + one dp + one ip)).next ?_
    rintro _ s4 ⟨hmem, h4, hk4⟩
    have hne : ip ≠ dp := fun he => hmem (he ▸ List.mem_cons_self)
    refine (unlinkLocked_held h4 hne off).imp ?_
    rintro _ s5 ⟨h5, hk5⟩
    have hG : G + one dp + one ip - one dp - one ip = G := by
      rw [sub_right_comm, add_sub_cancel_right, add_sub_cancel_right]
    rw [hG] at h5 hk5
    have hk23 := hk2.eq_comp hk3
    have hk4' := hk4.mono (F := G + one dp) fun b hb => pos_add ip b hb
    have hk24 := (hk23.eq_comp hk4').mono hfloor
    have hk := (hk1.trans hk24.frees).comp hk5
    refine ⟨h5, hk.sb, hk.file, hk.proc, hk.inum, fun hd => ⟨(hk.disk hd).1, ?_⟩⟩
    obtain ⟨hd1, hr1⟩ := hk1.disk hd
    obtain ⟨hd4, he4⟩ := hk24.disk hd1
    obtain ⟨-, hr5⟩ := hk5.disk hd4
    obtain ⟨hd2, he2⟩ := hk2.disk hd1
    obtain ⟨m, k, hm, ht, hl, rfl, hinum⟩ := hfound hd2
    have hpos := pos_add_one h.nonneg dp
    have hdp : (s4.inode dp).inum = (s1.inode dp).inum := (hk23.eq_comp hk4').inum dp hpos
    have hip : (s4.inode ip).inum = deInum (entry m.bytes k) := by
      rw [hk4.inum ip (pos_add_one h2.nonneg ip), hinum]
    rw [hk2.inum dp hpos, ← he2] at hm
    rw [← he4] at hr5
    have hr := hr5 m (by rw [hdp]; exact hm) ht
    rw [hk24.named, hk1.named, hdp, hip] at hr
    rcases hr with hr | hr
    · exact .inl (hr1.trans hr)
    · refine .inr ⟨_, name, s1.nodes, m, k, hw hd, hr1, hm, ht, hl, ?_, ?_, hr⟩
      · simpa using (not_or.mp hdots).1
      · simpa using (not_or.mp hdots).2

/-! ## `link` -/

/-- The label `bad` of `sys_link`: the link is taken back. -/
theorem sysLinkBad_held (h : Held G [] s) :
    Wp (sysLinkBad ip) s
      (fun _ s' => Held (G - one ip) [] s' ∧
        Keeps (G - one ip) (Relation.Comp (Relinked (s.inode ip).inum (-1))
          (Reaps (s.named (G - one ip)))) s s') := by
  unfold sysLinkBad
  simp only [wp_bind]
  refine (ilock_held h G).imp ?_
  rintro _ s1 ⟨-, h1, hk1⟩
  have hpos := (h1.lock ip List.mem_cons_self).2.2
  refine (addNlink_held h1 List.mem_cons_self G (-1)).imp ?_
  rintro _ s2 ⟨h2, hk2⟩
  refine (iunlockput_held h2 List.mem_cons_self [] (by simp) List.not_mem_nil).imp ?_
  rintro _ s3 ⟨h3, hk3⟩
  rw [hk1.inum ip hpos] at hk2
  exact ⟨h3, ((hk1.eq_comp hk2).mono fun b hb => pos_of_sub hb).comp_frees hk3⟩

/-- Node `i`, which is no directory, gets a link from the directory that `w` names. -/
def Links (w : Option (Nat × List Byte)) (N N' : Nodes) : Prop :=
  ∃ i n d name, N i = some n ∧ n.type ≠ .dir ∧ w = some (d, name) ∧
    Linked d name i (update N i (some { n with nlink := n.nlink + 1 })) N'

/-- What `link` for a new path that names `w` does: perhaps nothing. -/
def LinkDone (K : Set Nat) (w : Option (Nat × List Byte)) (N N' : Nodes) : Prop :=
  Reaps K N N' ∨ Relation.Comp (Reaps K) (Relation.Comp (Links w) (Reaps K)) N N'

theorem linkRaised_held {ip : Fin ninode} (h : Held (G + one ip) [] s) (hG : ∀ b, 0 ≤ G b)
    (hcwd : ∀ c, (s.proc p).cwd = some c → 0 < G c) (new : List Byte) :
    Wp (linkRaised p ip new) s
      (fun _ s' => Held G [] s' ∧
        Keeps G (fun N N' => ∀ n, N (s.inode ip).inum = some n → n.type ≠ .dir →
          LinkDone (s.named G) (s.resolve p true new)
            (update N (s.inode ip).inum (some { n with nlink := n.nlink - 1 })) N') s s') := by
  have hipos := pos_add_one hG ip
  have hfloor : ∀ b, 0 < G b → 0 < (G + one ip) b := fun b hb => pos_add ip b hb
  have hsub : s.named G ⊆ s.named (G + one ip) := by
    rintro _ ⟨b, hb, hi⟩
    exact ⟨b, hfloor b hb, hi⟩
  unfold linkRaised nameiparent
  refine (namex_held h (fun c hc => hfloor c (hcwd c hc)) true new).next ?_
  -- giving up in a state reached with nodes freed
  have hbad : ∀ s1, Held (G + one ip) [] s1 → Frees (G + one ip) s s1 →
      Wp (sysLinkBad ip) s1 (fun _ s' => Held G [] s' ∧
        Keeps G (fun N N' => ∀ n, N (s.inode ip).inum = some n → n.type ≠ .dir →
          LinkDone (s.named G) (s.resolve p true new)
            (update N (s.inode ip).inum (some { n with nlink := n.nlink - 1 })) N') s s') := by
    intro s1 h1 hk1
    refine (sysLinkBad_held h1).imp ?_
    rintro _ s2 ⟨h2, hk2⟩
    rw [add_sub_cancel_right] at h2 hk2
    have hk := (hk1.mono hfloor).comp hk2
    refine ⟨h2, hk.sb, hk.file, hk.proc, hk.inum, fun hd => ⟨(hk.disk hd).1, fun n hn _ => .inl ?_⟩⟩
    obtain ⟨hd1, hr1⟩ := hk1.disk hd
    obtain ⟨-, N, ⟨n', hn', rfl⟩, hr2⟩ := hk2.disk hd1
    rw [hk1.inum ip hipos, hr1.kept ⟨ip, hipos, rfl⟩, hn] at hn'
    cases hn'
    rw [hk1.inum ip hipos, Keeps.named (hk1.mono hfloor)] at hr2
    refine Reaps.trans ?_ hr2
    exact (hr1.mono hsub).update _ _
  rintro (_ | ⟨dp, name⟩) s1 ⟨hk1, h1⟩
  · exact hbad s1 h1 hk1
  obtain ⟨h1, hw⟩ := h1
  simp only [wp_bind]
  refine (ilock_held h1 (G + one ip + one dp)).imp ?_
  rintro _ s2 ⟨-, h2, hk2⟩
  rw [wp_getInode]
  have hfloor' : ∀ b, 0 < (G + one ip) b → 0 < (G + one ip + one dp) b := fun b hb =>
    pos_add dp b hb
  refine (dirlink_held h2 List.mem_cons_self name _).imp ?_
  rintro r s3 ⟨h3, hk3⟩
  cases r with
  | false =>
    simp only [Bool.false_eq_true, if_false] at hk3 ⊢
    refine (iunlockput_held h3 List.mem_cons_self [] (by simp) List.not_mem_nil).next ?_
    rintro _ s4 ⟨h4, hk4⟩
    rw [add_sub_cancel_right] at h4 hk4
    refine hbad s4 h4 (((hk1.trans (hk2.mono hfloor').frees).trans ?_).trans hk4)
    exact Frees.mono hk3 hfloor'
  | true =>
    simp only [if_true] at hk3 ⊢
    simp only [wp_bind]
    refine (iunlockput_held h3 List.mem_cons_self [] (by simp) List.not_mem_nil).imp ?_
    rintro _ s4 ⟨h4, hk4⟩
    rw [add_sub_cancel_right] at h4 hk4
    refine (iput_held h4 hipos).imp ?_
    rintro _ s5 ⟨h5, hk5⟩
    rw [add_sub_cancel_right] at h5 hk5
    have hk45 : Frees G s3 s5 := (hk4.mono hfloor).trans hk5
    have hk23 := (hk2.eq_comp hk3).mono fun b hb => hfloor' b (hfloor b hb)
    have hk := (hk1.mono hfloor).comp (hk23.comp_frees hk45)
    refine ⟨h5, hk.sb, hk.file, hk.proc, hk.inum, fun hd => ⟨(hk.disk hd).1, fun n hn ht => .inr ?_⟩⟩
    obtain ⟨hd1, hr1⟩ := hk1.disk hd
    obtain ⟨hd2, he2⟩ := hk2.disk hd1
    obtain ⟨hd3, hl⟩ := hk3.disk hd2
    obtain ⟨-, hr5⟩ := hk45.disk hd3
    have hip : (s2.inode ip).inum = (s.inode ip).inum := by
      rw [hk2.inum ip (hfloor' ip hipos), hk1.inum ip hipos]
    have hdp : (s2.inode dp).inum = (s1.inode dp).inum := hk2.inum dp (pos_add_one h.nonneg dp)
    have hkept : s1.nodes (s.inode ip).inum = some n := by
      rw [hr1.kept ⟨ip, hipos, rfl⟩, hn]
    rw [hip, hdp, ← he2] at hl
    rw [hk23.named, Keeps.named (hk1.mono hfloor)] at hr5
    refine ⟨_, (hr1.mono hsub).update (s.inode ip).inum _, s3.nodes,
      ⟨_, _, _, name, update_self .., ht, hw hd, ?_⟩, hr5⟩
    rw [update_idem, Int.sub_add_cancel, ← hkept, update_eq_self]
    exact hl

theorem link_held (h : Held G [] s) (hcwd : ∀ c, (s.proc p).cwd = some c → 0 < G c)
    (old new : List Byte) :
    Wp (link p old new) s
      (fun _ s' => Held G [] s' ∧ Keeps G (LinkDone (s.named G) (s.resolve p true new)) s s') := by
  unfold link
  refine (namei_held h hcwd old).next ?_
  rintro (_ | ip) s1 ⟨name, hk1, h1⟩
  · exact ⟨h1, Keeps.imp hk1 .inl⟩
  obtain ⟨h1, -⟩ := h1
  have hfloor : ∀ b, 0 < G b → 0 < (G + one ip) b := fun b hb => pos_add ip b hb
  have hipos := pos_add_one h.nonneg ip
  simp only [wp_bind]
  refine (ilock_held h1 (G + one ip)).imp ?_
  rintro _ s2 ⟨-, h2, hk2⟩
  rw [wp_getInode]
  split
  case isTrue =>
    refine (iunlockput_held h2 List.mem_cons_self [] (by simp) List.not_mem_nil).next ?_
    rintro _ s3 ⟨h3, hk3⟩
    rw [add_sub_cancel_right] at h3 hk3
    exact ⟨h3, Keeps.imp ((hk1.trans (hk2.mono hfloor).frees).trans hk3) .inl⟩
  case isFalse hdir =>
    simp only [wp_bind]
    refine (addNlink_held h2 List.mem_cons_self (G + one ip) 1).imp ?_
    rintro _ s3 ⟨h3, hk3⟩
    refine (iunlock_held h3 (G + one ip) [] (by simp) List.not_mem_nil).imp ?_
    rintro _ s4 ⟨h4, hk4⟩
    have hproc : s4.proc = s.proc := by rw [hk4.proc, hk3.proc, hk2.proc, hk1.proc]
    refine (linkRaised_held h4 h.nonneg (fun c hc => hcwd c (hproc ▸ hc)) new).imp ?_
    rintro _ s5 ⟨h5, hk5⟩
    have hk24 := hk2.eq_comp (hk3.comp hk4)
    have hk14 := hk1.comp (hk24.mono hfloor)
    have hk := hk14.comp hk5
    refine ⟨h5, hk.sb, hk.file, hk.proc, hk.inum, fun hd => ⟨(hk.disk hd).1, ?_⟩⟩
    obtain ⟨hd1, hr1⟩ := hk1.disk hd
    obtain ⟨hd2, he2⟩ := hk2.disk hd1
    obtain ⟨hd3, n, hn, hN3⟩ := hk3.disk hd2
    obtain ⟨hd4, he4⟩ := hk4.disk hd3
    obtain ⟨-, hdone⟩ := hk5.disk hd4
    obtain ⟨n', hn', ht, -⟩ := h2.node List.mem_cons_self hd2
    rw [hn] at hn'
    cases hn'
    have hip : (s4.inode ip).inum = (s2.inode ip).inum := by
      rw [hk4.inum ip hipos, hk3.inum ip hipos]
    rw [← he2] at hn hN3
    rw [← he4, hN3, hip, hk14.named] at hdone
    have hdone := hdone _ (update_self ..) (fun hnt => hdir (by rw [ht]; exact congrArg some hnt))
    rw [update_idem, Int.add_sub_cancel, ← hn, update_eq_self] at hdone
    -- the path of the new name is the one before the link count was raised
    have hres : ∀ r, s4.resolve p true new = some r → s.resolve p true new = some r := by
      intro r hr
      obtain ⟨i, hi, hwalk⟩ := Option.bind_eq_some_iff.mp hr
      rw [← he4, hN3, walk_update_nlink hn] at hwalk
      refine Option.bind_eq_some_iff.mpr ⟨i, ?_, walk_of_reaps hr1 hwalk⟩
      rw [← hi]
      exact (hk14.start hcwd new).symm
    rcases hdone with hr | ⟨N, hr, N', ⟨i, m, d, name, hm, hmt, hwd, hl⟩, hr'⟩
    · exact .inl (hr1.trans hr)
    · exact .inr ⟨N, hr1.trans hr, N', ⟨i, m, d, name, hm, hmt, hres _ hwd, hl⟩, hr'⟩

end Specs

end Xv6Mmap.Fs
