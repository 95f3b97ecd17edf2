import Xv6Mmap.FsRefs

/-!
# The file system calls keep the accounts (`file.c`, `sysfile.c:22-446`, `proc.c:288-510`)

Every system call on files, from its entry to each of its returns. `Done p P` is what such a call of
process `p` leaves behind: the counts are balanced again, no other process has changed, and the
nodes changed by `P`. `fork`, `exit` and `wait` concern two processes or end one, so they are said
with `Accounted`, which adds that a process that is not live refers to nothing.

* `step_served`: from balanced accounts every call leads to balanced accounts, keeps the disk well
  formed and changes the nodes by `Call.effect`.

An early return is where a reference is easily forgotten. Each lemma is for all returns of its
function at once: what is owed at the end does not depend on the branch.
-/

namespace Xv6Mmap.Fs

open Lib
open Function (update update_self update_of_ne update_eq_self)

section Specs

variable {X : Fin ninode → Int} {Y : Fin nfile → Int} {L : List (Fin ninode)} {s : State}
  {p : Fin nproc} {f : Fin nfile} {a : Fin ninode}

/-! ## Files -/

theorem Refs.recount (h : Refs X Y L s) {n : Int} {x : File}
    (hx : x = { s.file f with ref := (s.file f).ref + n }) (hidle : x.ref = 0 → x.kind ≠ .inode) :
    Refs X (fun g => Y g + if g = f then n else 0) L (s.withFile f x) := by
  subst hx
  refine h.withFile (fun _ => rfl) (fun g hg => ?_) ?_ hidle
  · rw [if_neg hg, Int.add_zero]
  · rw [if_pos rfl]
    change (s.file f).ref + n = _
    omega

theorem filealloc_refs (h : Refs X Y L s) (p : Fin nproc) :
    Wp filealloc s
      (fun r s' => match r with
        | none => s' = s
        | some f => Refs X (Y + one f) L s' ∧ Does p Eq s s' ∧ (s.file f).ref = 0 ∧
          s' = s.withFile f { s.file f with ref := 1 })
      fun _ => False := by
  unfold filealloc
  rw [wp_bind, wp_get]
  cases hf : (List.finRange nfile).find? fun f => decide ((s.file f).ref = 0) with
  | none => rfl
  | some f =>
    have href : (s.file f).ref = 0 := by simpa using List.find?_some hf
    simp only [wp_bind, wp_setFile, wp_pure]
    refine ⟨h.recount (n := 1) ?_ (fun h0 => by cases h0), .withFile p f _, href, trivial⟩
    rw [href]
    rfl

theorem filedup_refs (h : Refs X Y L s) (p : Fin nproc) :
    Wp (filedup f) s
      (fun _ s' => Refs X (Y + one f) L s' ∧ Does p Eq s s' ∧ s'.proc = s.proc) := by
  unfold filedup
  rw [wp_bind, wp_getFile]
  split
  case isTrue => trivial
  case isFalse hpos =>
    refine ⟨h.recount (n := 1) rfl fun h0 => ?_, .withFile p f _, rfl⟩
    change (s.file f).ref + 1 = 0 at h0
    omega

/-- `fileclose(f)`: the last reference to a file gives back the one to its inode. -/
theorem fileclose_refs (h : Refs X Y L s) (hX : ∀ a, 0 ≤ X a) (p : Fin nproc) :
    Wp (fileclose f) s
      (fun _ s' => Refs X (Y - one f) L s' ∧ Drops p s s' ∧ s'.proc = s.proc) := by
  have hY : (fun g => Y g + if g = f then -1 else 0) = Y - one f := by
    funext g
    rw [Pi.sub_apply, one]
    split <;> omega
  unfold fileclose
  rw [wp_bind, wp_getFile]
  split
  case isTrue => trivial
  case isFalse hpos =>
    split
    case isTrue hmore =>
      refine ⟨hY ▸ h.recount (n := -1) rfl fun h0 => ?_, (Does.withFile p f _).drops, rfl⟩
      change (s.file f).ref + -1 = 0 at h0
      omega
    case isFalse hlast =>
      have href : (s.file f).ref = 1 := by omega
      rw [wp_bind, wp_setFile]
      have hclosed : ∀ X' : Fin ninode → Int,
          (∀ a, X' a = X a + (File.refers a (s.file f)).toNat) →
          Refs X' (Y - one f) L (s.withFile f { s.file f with ref := 0, kind := .none }) := by
        intro X' hX'
        refine h.withFile (fun a => ?_) (fun g hg => ?_) ?_ nofun
        · rw [hX']
          exact (Int.add_zero _).symm
        · rw [Pi.sub_apply, one_of_ne hg, Int.sub_zero]
        · rw [Pi.sub_apply, one_self, href]
          change (0 : Int) = _
          omega
      split
      case isTrue hk =>
        have h1 := hclosed (X + one (s.file f).ip) fun a => by
          rw [Pi.add_apply, one, File.refers]
          by_cases ha : (s.file f).ip = a
          · simp [hk, ha]
          · simp [hk, ha, Ne.symm ha]
        have hpos := pos_add_one (fun b => Int.add_nonneg (base_nonneg
          (s.withFile f { s.file f with ref := 0, kind := .none }) b) (hX b)) (s.file f).ip
        have hheld := h1.held
        rw [← add_assoc] at hheld
        refine (iput_held hheld hpos).imp ?_
        rintro _ s' ⟨h', hk'⟩
        rw [add_sub_cancel_right] at h'
        refine ⟨h1.of_keeps hk' h', ?_, hk'.proc⟩
        exact (Does.withFile p f _).drops.trans (Frees.drops hk' p)
      case isFalse hk =>
        refine ⟨hclosed X fun a => ?_, (Does.withFile p f _).drops, rfl⟩
        simp [File.refers, hk]

/-- Nobody counts offsets. -/
theorem Refs.setOff (h : Refs X Y L s) (f : Fin nfile) (off : Nat) :
    Refs X Y L (s.withFile f { s.file f with off := off }) := by
  refine h.withFile (fun _ => rfl) (fun _ _ => rfl) ?_ (h.idle f)
  change (s.file f).ref = _
  omega

/-- Processes and, their offsets apart, files are the same. -/
structure SameFiles (s s' : State) : Prop where
  proc : s'.proc = s.proc
  file : ∀ f, s'.file f = { s.file f with off := (s'.file f).off }

theorem SameFiles.of_eq {s' : State} (hp : s'.proc = s.proc) (hf : s'.file = s.file) :
    SameFiles s s' :=
  ⟨hp, fun f => by rw [hf]⟩

theorem SameFiles.setOff (s : State) (f : Fin nfile) (off : Nat) :
    SameFiles s (s.withFile f { s.file f with off := off }) where
  proc := rfl
  file g := by
    by_cases hg : g = f
    · subst hg
      rw [withFile_self]
    · rw [withFile_of_ne _ hg]

theorem SameFiles.trans {s1 s2 : State} (h : SameFiles s s1) (h' : SameFiles s1 s2) :
    SameFiles s s2 :=
  ⟨h'.proc.trans h.proc, fun f => by rw [h'.file f, h.file f]⟩

/-- `f->off += r` where it is made. -/
theorem moveOff_refs (h : Refs X Y L s) (p : Fin nproc) {x : File} (c : Prop) [Decidable c]
    {off : Nat} (hx : { x with off := off } = { s.file f with off := off }) :
    Wp (when c (setFile f { x with off := off })) s
      (fun _ s' => Refs X Y L s' ∧ Does p Eq s s' ∧ SameFiles s s') := by
  rw [wp_when]
  split
  case isFalse => exact ⟨h, .refl p s, .of_eq rfl rfl⟩
  case isTrue =>
    rw [wp_setFile, hx]
    exact ⟨h.setOff f off, .withFile p f _, .setOff s f off⟩

theorem fileread_refs (h : Refs X Y L s) (p : Fin nproc) (n : Nat) (io : DevIo) :
    Wp (fileread f n io) s (fun _ s' => Refs X Y L s' ∧ Does p Eq s s' ∧ SameFiles s s') := by
  unfold fileread
  rw [wp_bind, wp_getFile]
  split
  case isTrue => exact ⟨h, .refl p s, .of_eq rfl rfl⟩
  case isFalse =>
    split
    case h_1 => exact ⟨h, .refl p s, .of_eq rfl rfl⟩
    case h_3 => trivial
    case h_2 hk =>
      simp only [wp_bind]
      refine (ilock_held h.held 0).imp ?_
      rintro _ s1 ⟨hL, h1, hk1⟩
      refine (readi_held h1 List.mem_cons_self 0 _ n io).mono ?_ fun _ _ => trivial
      rintro ⟨r, bytes⟩ s2 ⟨h2, hk2, -⟩
      have hk12 := hk1.eq_comp hk2
      refine (moveOff_refs (h.of_keeps hk12 h2) p _ (by rw [hk12.file])).imp ?_
      rintro _ s3 ⟨h3, hd3, hs3⟩
      refine (iunlock_held h3.held 0 L (fun b hb => List.mem_cons_of_mem _ hb) hL).imp ?_
      rintro _ s4 ⟨h4, hk4⟩
      exact ⟨h3.of_keeps hk4 h4, ((hk12.does p).eq_comp hd3).eq_comp (hk4.does p),
        (SameFiles.of_eq hk12.proc hk12.file).trans (hs3.trans (.of_eq hk4.proc hk4.file))⟩

/-- Something was written, or nothing. -/
abbrev Any : Nodes → Nodes → Prop := fun _ _ => True

theorem filewriteLoop_refs (p : Fin nproc) :
    ∀ {fuel : Nat} {src : List Byte} {s : State}, Refs X Y [] s →
      Wp (filewriteLoop f fuel src) s (fun _ s' => Refs X Y [] s' ∧ Does p Any s s')
  | 0, _, _, _ => trivial
  | fuel + 1, src, s, h => by
    unfold filewriteLoop
    split
    case isTrue => exact ⟨h, (Does.refl p s).imp fun _ => trivial⟩
    case isFalse =>
      simp only [wp_bind, wp_getFile]
      refine (ilock_held h.held 0).imp ?_
      rintro _ s1 ⟨-, h1, hk1⟩
      refine (writei_held h1 List.mem_cons_self 0 _ _).mono ?_ fun _ _ => trivial
      rintro r s2 ⟨h2, hk2, -⟩
      have hk12 := hk1.eq_comp hk2
      refine (moveOff_refs (h.of_keeps hk12 h2) p _ (by rw [hk12.file])).imp ?_
      rintro _ s3 ⟨h3, hd3, -⟩
      refine (iunlock_held h3.held 0 [] (by simp) List.not_mem_nil).imp ?_
      rintro _ s4 ⟨h4, hk4⟩
      have hrefs := h3.of_keeps hk4 h4
      have hdoes : Does p Any s s4 :=
        (hk12.does p).trans (hd3.eq_comp (hk4.does p)) fun _ _ => trivial
      split
      case isTrue => exact ⟨hrefs, hdoes⟩
      case isFalse =>
        split
        case isTrue => trivial
        case isFalse =>
          refine (filewriteLoop_refs p hrefs).imp ?_
          rintro _ s5 ⟨h5, hd5⟩
          exact ⟨h5, hdoes.trans hd5 fun _ _ => trivial⟩

theorem filewrite_refs (h : Refs X Y [] s) (p : Fin nproc) (src : List Byte) (io : DevIo) :
    Wp (filewrite f src io) s (fun _ s' => Refs X Y [] s' ∧ Does p Any s s') := by
  have hrefl : Does p Any s s := (Does.refl p s).imp fun _ => trivial
  unfold filewrite
  rw [wp_bind, wp_getFile]
  split
  case isTrue => exact ⟨h, hrefl⟩
  case isFalse =>
    split
    case h_1 => exact ⟨h, hrefl⟩
    case h_3 => trivial
    case h_2 =>
      refine (filewriteLoop_refs p h).next ?_
      rintro (_ | _) s1 h1
      · exact h1
      · exact h1

/-! ## Descriptors -/

theorem argfd_spec {fd : Word} :
    Wp (argfd p fd) s
      (fun r s' => s' = s ∧ ∀ q, r = some q → (s.proc p).ofile q.1 = some q.2 ∧ q.1.val = fd.toNat)
      fun _ => False := by
  unfold argfd
  rw [wp_bind, wp_getProc]
  split
  case isTrue hfd =>
    cases hof : (s.proc p).ofile ⟨fd.toNat, hfd.2⟩ with
    | none => exact ⟨rfl, nofun⟩
    | some f =>
      refine ⟨rfl, ?_⟩
      rintro _ ⟨⟩
      exact ⟨hof, rfl⟩
  case isFalse => exact ⟨rfl, nofun⟩

theorem setOfile_refs (h : Refs X Y L s) {fd : Fin nofile} {o : Option (Fin nfile)}
    (Y' : Fin nfile → Int)
    (hY : ∀ f, Y f + (decide ((s.proc p).ofile fd = some f)).toNat
      = Y' f + (decide (o = some f)).toNat) :
    Wp (setOfile p fd o) s
      (fun _ s' => Refs X Y' L s' ∧ Does p Eq s s' ∧ s'.file = s.file ∧
        s'.proc = update s.proc p
          { s.proc p with ofile := update (s.proc p).ofile fd o })
      fun _ => False := by
  unfold setOfile
  rw [wp_bind, wp_getProc, wp_setProc]
  exact ⟨h.withOfile rfl rfl hY, .withProc rfl, rfl, rfl⟩

theorem toNat_some_eq (f g : Fin nfile) : ((decide (some f = some g)).toNat : Int) = one f g := by
  rw [one]
  by_cases hfg : g = f
  · simp [hfg]
  · simp [hfg, Ne.symm hfg]

/-- Process `p` keeps the files that it has open. -/
def Gains (p : Fin nproc) (s s' : State) : Prop :=
  ∀ fd f, (s.proc p).ofile fd = some f → (s'.proc p).ofile fd = some f

theorem fdalloc_refs (h : Refs X Y L s) :
    Wp (fdalloc p f) s
      (fun r s' => match r with
        | none => s' = s
        | some fd => Refs X (Y - one f) L s' ∧ Does p Eq s s' ∧ s'.file = s.file ∧
          (s'.proc p).ofile fd = some f ∧ Gains p s s')
      fun _ => False := by
  unfold fdalloc
  rw [wp_bind, wp_getProc]
  cases hf : (List.finRange nofile).find? fun fd => ((s.proc p).ofile fd).isNone with
  | none => rfl
  | some fd =>
    have hnone : (s.proc p).ofile fd = none := by simpa using List.find?_some hf
    refine (setOfile_refs h (Y - one f) fun g => ?_).next ?_
    · rw [hnone, toNat_some_eq, Pi.sub_apply]
      simp
    · rintro _ s' ⟨h', hd', hfile, hproc⟩
      refine ⟨h', hd', hfile, ?_, fun fd' g hg => ?_⟩
      · rw [hproc, update_self]
        exact update_self ..
      · have hne : fd' ≠ fd := by
          rintro rfl
          rw [hnone] at hg
          cases hg
        rw [hproc, update_self]
        exact (update_of_ne hne ..).trans hg

/-- A descriptor is given up; the reference to its file is then the caller's. -/
theorem setOfile_none_refs (h : Refs X Y L s) {fd : Fin nofile}
    (hfd : (s.proc p).ofile fd = some f) :
    Wp (setOfile p fd none) s
      (fun _ s' => Refs X (Y + one f) L s' ∧ Does p Eq s s' ∧ s'.proc = update s.proc p
        { s.proc p with ofile := update (s.proc p).ofile fd none })
      fun _ => False := by
  refine (setOfile_refs h (Y + one f) fun g => ?_).imp ?_
  · rw [hfd, toNat_some_eq, Pi.add_apply]
    simp
  · rintro _ s' ⟨h', hd', -, hproc⟩
    exact ⟨h', hd', hproc⟩

end Specs

/-! ## Calls of one process -/

/-- A call of process `p` is over, and the accounts are balanced. -/
structure Done (p : Fin nproc) (P : Nodes → Nodes → Prop) (s s' : State) : Prop where
  refs : Refs 0 0 [] s'
  does : Does p P s s'

section Calls

variable {s : State} {p : Fin nproc} {P Q : Nodes → Nodes → Prop}

theorem Done.refl (h : Refs 0 0 [] s) (p : Fin nproc) : Done p Eq s s := ⟨h, .refl p s⟩

theorem Done.imp {s' : State} (h : Done p P s s') (hP : P s.nodes s'.nodes → Q s.nodes s'.nodes) :
    Done p Q s s' :=
  ⟨h.refs, h.does.imp hP⟩

theorem sysDup_done (h : Refs 0 0 [] s) (fd : Word) :
    Wp (sysDup p fd) s (fun _ s' => Done p Eq s s') := by
  unfold sysDup
  rw [wp_bind]
  refine argfd_spec.mono ?_ fun _ hf => hf.elim
  rintro (_ | ⟨fd', f⟩) _ ⟨rfl, -⟩
  · exact .refl h p
  refine (fdalloc_refs h).bind ?_ fun _ hf => hf.elim
  rintro (_ | new) s1 h1
  · cases h1
    exact .refl h p
  · obtain ⟨h1, hd1, -⟩ := h1
    refine (filedup_refs h1 p).next ?_
    rintro _ s2 ⟨h2, hd2, -⟩
    rw [sub_add_cancel] at h2
    exact ⟨h2, hd1.eq_comp hd2⟩

theorem sysRead_done (h : Refs 0 0 [] s) (fd : Word) (n : Option Nat) (io : DevIo) :
    Wp (sysRead p fd n io) s (fun _ s' => Done p Eq s s') := by
  unfold sysRead
  rw [wp_bind]
  refine argfd_spec.mono ?_ fun _ hf => hf.elim
  rintro (_ | ⟨fd', f⟩) _ ⟨rfl, -⟩
  · exact .refl h p
  · cases n with
    | none => exact .refl h p
    | some n => exact (fileread_refs h p n io).imp fun _ s' hr => ⟨hr.1, hr.2.1⟩

theorem sysWrite_done (h : Refs 0 0 [] s) (fd : Word) (src : Option (List Byte)) (io : DevIo) :
    Wp (sysWrite p fd src io) s (fun _ s' => Done p Any s s') := by
  have hrefl : Done p Any s s := (Done.refl h p).imp fun _ => trivial
  unfold sysWrite
  rw [wp_bind]
  refine argfd_spec.mono ?_ fun _ hf => hf.elim
  rintro (_ | ⟨fd', f⟩) _ ⟨rfl, -⟩
  · exact hrefl
  · cases src with
    | none => exact hrefl
    | some src => exact (filewrite_refs h p src io).imp fun _ s' hr => ⟨hr.1, hr.2⟩

theorem sysClose_done (h : Refs 0 0 [] s) (fd : Word) :
    Wp (sysClose p fd) s (fun _ s' => Done p (Reaps ∅) s s') := by
  unfold sysClose
  rw [wp_bind]
  refine argfd_spec.mono ?_ fun _ hf => hf.elim
  rintro (_ | ⟨fd', f⟩) _ ⟨rfl, hof⟩
  · exact (Done.refl h p).imp .of_eq
  · simp only [wp_bind]
    refine (setOfile_none_refs h (hof _ rfl).1).mono ?_ fun _ hf => hf.elim
    rintro _ s1 ⟨h1, hd1, -⟩
    refine (fileclose_refs h1 (fun _ => le_rfl) p).imp ?_
    rintro _ s2 ⟨h2, hd2, -⟩
    rw [add_sub_cancel_right] at h2
    exact ⟨h2, hd1.eq_comp hd2⟩

/-! ### Opening -/

/-- The inode that the caller holds is unlocked and given back. -/
theorem iunlockput_done {ip : Fin ninode} (h : Refs (one ip) 0 [ip] s) (p : Fin nproc) :
    Wp (iunlockput ip) s (fun _ s' => Done p (Reaps ∅) s s') := by
  refine (iunlockput_held h.held List.mem_cons_self [] (fun b hb => nomatch hb) nofun).imp ?_
  rintro _ s' ⟨h', hk⟩
  rw [add_sub_cancel_right, ← add_zero s.base] at h'
  exact ⟨h.of_keeps hk h', Frees.drops hk p⟩

/-- Something that drops nodes, and then the end of a call. -/
theorem Done.after {s1 s' : State} (hd : Drops p s s1) (h : Done p (Reaps ∅) s1 s') :
    Done p (Reaps ∅) s s' :=
  ⟨h.refs, hd.trans h.does⟩

theorem openLocked_done {ip : Fin ninode} (h : Refs (one ip) 0 [ip] s) (omode : Word) :
    Wp (openLocked p ip omode) s (fun _ s' => Done p (Reaps ∅) s s') := by
  unfold openLocked
  refine (filealloc_refs h p).bind ?_ fun _ hf => hf.elim
  rintro (_ | f) s1 h1
  · cases h1
    rw [wp_bind]
    exact iunlockput_done h p
  obtain ⟨h1, hd1, hfree, heq⟩ := h1
  have hkind : (s.file f).kind ≠ .inode := h.idle f hfree
  refine (fdalloc_refs h1).bind ?_ fun _ hf => hf.elim
  rintro (_ | fd) s2 h2
  · cases h2
    simp only [wp_bind]
    refine (fileclose_refs h1 (one_nonneg ip) p).imp ?_
    rintro _ s3 ⟨h3, hd3, -⟩
    rw [add_sub_cancel_right] at h3
    exact (iunlockput_done h3 p).imp fun _ s' hr => .after (hd1.drops.trans hd3) hr
  obtain ⟨h2, hd2, hfile, -⟩ := h2
  rw [add_sub_cancel_right] at h2
  simp only [wp_bind]
  refine (iunlock_held h2.held 0 [] (by simp) List.not_mem_nil).imp ?_
  rintro _ s3 ⟨h3, hk3⟩
  have hrefs := h2.of_keeps hk3 h3
  have hfile3 : s3.file f = { s.file f with ref := 1 } := by
    rw [hk3.file, hfile, heq, withFile_self]
  rw [wp_getFile, wp_setFile]
  refine ⟨?_, ((hd1.eq_comp hd2).eq_comp (hk3.does p)).drops.trans (Does.withFile p f _).drops⟩
  -- the reference to the inode is now the file's
  refine hrefs.withFile (fun a => ?_) (fun _ _ => rfl) ?_ fun h0 => ?_
  · rw [hfile3]
    simp only [File.refers, one, hkind, false_and, decide_false, Pi.zero_apply, true_and]
    by_cases ha : a = ip
    · simp [ha]
    · simp [ha, Ne.symm ha]
  · change (s3.file f).ref = _
    omega
  · change (s3.file f).ref = 0 at h0
    rw [hfile3] at h0
    cases h0

theorem base_pos_of_cwd {c : Fin ninode} (hc : (s.proc p).cwd = some c) : 0 < s.base c := by
  have hle := le_tally (fun x => (Proc.stands c x).toNat) s.proc p
  rw [Proc.stands, hc] at hle
  simp only [decide_true, Bool.toNat_true] at hle
  unfold State.base
  omega

theorem Refs.balanced (h : Refs 0 0 [] s) : Held s.base [] s := by
  have hheld := h.held
  rwa [add_zero] at hheld

/-- What the last directory of a path argument is for process `p`, and the name in it. -/
def State.aim (s : State) (p : Fin nproc) (arg : Option (List Byte)) : Option (Nat × List Byte) :=
  (argstr arg).bind (s.resolve p true)

/-- What `create` for a path that names `w` does: perhaps nothing. -/
def Makes (n : Nat) (type : FileType) (w : Option (Nat × List Byte)) (N N' : Nodes) : Prop :=
  Reaps ∅ N N' ∨ ∃ d name i, w = some (d, name) ∧ 0 < i ∧ i < n ∧
    Relation.Comp (Reaps ∅) (Relation.Comp (Creates type d i name) (Reaps ∅)) N N'

theorem Makes.reaps {n : Nat} {type : FileType} {w : Option (Nat × List Byte)} {N N1 N' : Nodes}
    (h : Makes n type w N N1) (hr : Reaps ∅ N1 N') : Makes n type w N N' := by
  rcases h with h | ⟨d, name, i, hw, hpos, hlt, N2, h2, N3, h3, h4⟩
  · exact .inl (h.trans hr)
  · exact .inr ⟨d, name, i, hw, hpos, hlt, N2, h2, N3, h3, h4.trans hr⟩

theorem create_refs (h : Refs 0 0 [] s) (path : List Byte) (type : FileType)
    (major minor : BitVec 16) :
    Wp (create p path type major minor) s
      (fun r s' => Does p (Makes s.sb.ninodes type (s.resolve p true path)) s s' ∧
        s'.proc = s.proc ∧ match r with
        | none => Refs 0 0 [] s'
        | some ip => Refs (one ip) 0 [ip] s') := by
  have hmono : ∀ {N N' : Nodes}, Reaps (s.named s.base) N N' → Reaps ∅ N N' := fun hr =>
    hr.mono (Set.empty_subset _)
  refine (create_held h.balanced (fun c hc => base_pos_of_cwd hc) path type major minor).imp ?_
  rintro (_ | ip) s' ⟨h', hk⟩
  · refine ⟨(Keeps.does hk p).imp fun hr => .inl (hmono hr), hk.proc, h.of_keeps hk ?_⟩
    rwa [add_zero]
  · refine ⟨(hk.does p).imp ?_, hk.proc, h.of_keeps hk h'⟩
    rintro (hr | ⟨d, name, hw, hpos, hlt, N1, h1, N2, h2, h3⟩)
    · exact .inl (hmono hr)
    · exact .inr ⟨d, name, _, hw, hpos, hlt, N1, hmono h1, N2, h2, hmono h3⟩

/-- A path is looked up, and the inode found is locked. -/
theorem namei_refs (h : Refs 0 0 [] s) (path : List Byte) :
    Wp (namei p path) s
      (fun r s' => Drops p s s' ∧ s'.proc = s.proc ∧
        match r with
        | none => Refs 0 0 [] s'
        | some ip => Refs (one ip) 0 [] s') := by
  refine (namei_held h.balanced (fun c hc => base_pos_of_cwd hc) path).imp ?_
  rintro (_ | ip) s' ⟨name, hk, h'⟩
  · refine ⟨hk.drops p, hk.proc, h.of_keeps hk ?_⟩
    rw [add_zero]
    exact h'
  · exact ⟨hk.drops p, hk.proc, h.of_keeps hk h'.1⟩

theorem ilock_refs {X : Fin ninode → Int} {Y : Fin nfile → Int} {ip : Fin ninode}
    (h : Refs X Y [] s) (p : Fin nproc) :
    Wp (ilock ip) s
      (fun _ s' => Refs X Y [ip] s' ∧ Does p Eq s s' ∧ s'.proc = s.proc) := by
  refine (ilock_held h.held 0).imp ?_
  rintro _ s' ⟨-, h', hk⟩
  exact ⟨h.of_keeps hk h', hk.does p, hk.proc⟩

theorem open_done (h : Refs 0 0 [] s) (path : List Byte) (omode : Word) :
    Wp (open_ p path omode) s
      (fun _ s' => Done p (if hasFlag omode oCreate = true then
        Makes s.sb.ninodes .file (s.resolve p true path) else Reaps ∅) s s') := by
  unfold open_
  split
  case isTrue =>
    refine (create_refs h path .file 0#16 0#16).next ?_
    rintro (_ | ip) s1 ⟨hd1, -, h1⟩
    · exact ⟨h1, hd1⟩
    · refine (openLocked_done h1 omode).imp ?_
      rintro _ s2 ⟨h2, hd2⟩
      exact ⟨h2, hd1.trans hd2 Makes.reaps⟩
  case isFalse =>
    refine (namei_refs h path).next ?_
    rintro (_ | ip) s1 ⟨hd1, -, h1⟩
    · exact ⟨h1, hd1⟩
    simp only [wp_bind, wp_getInode]
    refine (ilock_refs h1 p).imp ?_
    rintro _ s2 ⟨h2, hd2, -⟩
    split
    case isTrue =>
      exact (iunlockput_done h2 p).next fun _ s' hr => .after (hd1.trans hd2.drops) hr
    case isFalse =>
      exact (openLocked_done h2 omode).imp fun _ s' hr => .after (hd1.trans hd2.drops) hr

theorem sysOpen_done (h : Refs 0 0 [] s) (path : Option (List Byte)) (omode : Word) :
    Wp (sysOpen p path omode) s
      (fun _ s' => Done p (if hasFlag omode oCreate = true then
        Makes s.sb.ninodes .file (s.aim p path) else Reaps ∅) s s') := by
  unfold sysOpen State.aim
  cases argstr path with
  | none =>
    refine (Done.refl h p).imp fun he => ?_
    split
    · exact .inl (.of_eq he)
    · exact .of_eq he
  | some path => exact open_done h path omode

theorem createAndPut_done (h : Refs 0 0 [] s) (path : List Byte) (type : FileType)
    (major minor : BitVec 16) :
    Wp (createAndPut p path type major minor) s
      (fun _ s' => Done p (Makes s.sb.ninodes type (s.resolve p true path)) s s') := by
  unfold createAndPut
  refine (create_refs h path type major minor).next ?_
  rintro (_ | ip) s1 ⟨hd1, -, h1⟩
  · exact ⟨h1, hd1⟩
  · refine (iunlockput_done h1 p).next ?_
    rintro _ s2 ⟨h2, hd2⟩
    exact ⟨h2, hd1.trans hd2 Makes.reaps⟩

theorem sysMkdir_done (h : Refs 0 0 [] s) (path : Option (List Byte)) :
    Wp (sysMkdir p path) s
      (fun _ s' => Done p (Makes s.sb.ninodes .dir (s.aim p path)) s s') := by
  unfold sysMkdir State.aim
  cases argstr path with
  | none => exact (Done.refl h p).imp fun he => .inl (.of_eq he)
  | some path => exact createAndPut_done h path .dir 0#16 0#16

theorem sysMknod_done (h : Refs 0 0 [] s) (path : Option (List Byte)) (major minor : Word) :
    Wp (sysMknod p path major minor) s
      (fun _ s' => Done p (Makes s.sb.ninodes .dev (s.aim p path)) s s') := by
  unfold sysMknod State.aim
  cases argstr path with
  | none => exact (Done.refl h p).imp fun he => .inl (.of_eq he)
  | some path => exact createAndPut_done h path .dev _ _

/-! ### Links -/

theorem sysLink_done (h : Refs 0 0 [] s) (old new : Option (List Byte)) :
    Wp (sysLink p old new) s (fun _ s' => Done p (LinkDone ∅ (s.aim p new)) s s') := by
  have hrefl : Done p (LinkDone ∅ (s.aim p new)) s s :=
    (Done.refl h p).imp fun he => .inl (.of_eq he)
  unfold sysLink
  split
  case h_2 => exact hrefl
  case h_1 old' new' _ hnew =>
    refine (link_held h.balanced (fun c hc => base_pos_of_cwd hc) old' new').imp ?_
    rintro _ s' ⟨h', hk⟩
    refine ⟨h.of_keeps hk (by rwa [add_zero]), (hk.does p).imp ?_⟩
    rw [State.aim, hnew]
    rintro (hr | ⟨N1, h1, N2, h2, h3⟩)
    · exact .inl (hr.mono (Set.empty_subset _))
    · exact .inr ⟨N1, h1.mono (Set.empty_subset _), N2, h2, h3.mono (Set.empty_subset _)⟩

theorem sysUnlink_done (h : Refs 0 0 [] s) (path : Option (List Byte)) :
    Wp (sysUnlink p path) s (fun _ s' => Done p (Unlinked ∅ (s.aim p path)) s s') := by
  unfold sysUnlink State.aim
  cases argstr path with
  | none => exact (Done.refl h p).imp fun he => .inl (.of_eq he)
  | some path =>
    refine (unlink_held h.balanced (fun c hc => base_pos_of_cwd hc) path).imp ?_
    rintro _ s' ⟨h', hk⟩
    refine ⟨h.of_keeps hk (by rwa [add_zero]), (hk.does p).imp ?_⟩
    rintro (hr | ⟨d, name, N1, m, k, hw, h1, hm, ht, hl, hdot, hdotdot, N2, h2, h3⟩)
    · exact .inl (hr.mono (Set.empty_subset _))
    · exact .inr ⟨d, name, N1, m, k, hw, h1.mono (Set.empty_subset _), hm, ht, hl, hdot, hdotdot,
        N2, h2, h3.mono (Set.empty_subset _)⟩

/-! ### The current directory -/

theorem toNat_stands {x : Proc} {c : Fin ninode} (hc : x.cwd = some c) (a : Fin ninode) :
    ((Proc.stands a x).toNat : Int) = one c a := by
  rw [Proc.stands, hc, one]
  by_cases ha : a = c
  · simp [ha]
  · simp [ha, Ne.symm ha]

theorem toNat_stands_none {x : Proc} (hc : x.cwd = none) (a : Fin ninode) :
    ((Proc.stands a x).toNat : Int) = 0 := by
  rw [Proc.stands, hc]
  rfl

theorem chdir_done (h : Refs 0 0 [] s) (path : List Byte) :
    Wp (chdir p path) s (fun _ s' => Done p (Reaps ∅) s s') := by
  unfold chdir
  refine (namei_refs h path).next ?_
  rintro (_ | ip) s1 ⟨hd1, -, h1⟩
  · exact ⟨h1, hd1⟩
  simp only [wp_bind, wp_getInode]
  refine (ilock_refs h1 p).imp ?_
  rintro _ s2 ⟨h2, hd2, -⟩
  split
  case isTrue =>
    exact (iunlockput_done h2 p).next fun _ s' hr => .after (hd1.trans hd2.drops) hr
  case isFalse =>
    simp only [wp_bind, wp_getProc]
    refine (iunlock_held h2.held 0 [] (by simp) List.not_mem_nil).imp ?_
    rintro _ s3 ⟨h3, hk3⟩
    have hrefs3 := h2.of_keeps hk3 h3
    cases hc : (s3.proc p).cwd with
    | none => trivial
    | some cwd =>
      have hpos : 0 < (s3.base + one ip) cwd := pos_add ip cwd (base_pos_of_cwd hc)
      simp only [wp_bind]
      refine (iput_held hrefs3.held hpos).imp ?_
      rintro _ s4 ⟨h4, hk4⟩
      rw [add_sub_assoc] at h4
      rw [wp_getProc, wp_setProc]
      refine ⟨(hrefs3.of_keeps hk4 h4).withCwd rfl fun a => ?_, ?_⟩
      · rw [hk4.proc, toNat_stands hc, toNat_stands rfl, Pi.sub_apply, Pi.zero_apply]
        omega
      · have hcwd : Does p Eq s4 (s4.withProc p { s4.proc p with cwd := some ip }) := .withProc rfl
        exact (hd1.trans hd2.drops).trans
          ((Drops.trans (hk3.does p).drops (Frees.drops hk4 p)).trans hcwd.drops)

theorem sysChdir_done (h : Refs 0 0 [] s) (path : Option (List Byte)) :
    Wp (sysChdir p path) s (fun _ s' => Done p (Reaps ∅) s s') := by
  unfold sysChdir
  cases argstr path with
  | none => exact (Done.refl h p).imp .of_eq
  | some path => exact chdir_done h path

/-! ### Pipes -/

/-- A file that is open on no inode becomes an end of a pipe. -/
theorem Refs.pipe {X : Fin ninode → Int} {Y : Fin nfile → Int} {L : List (Fin ninode)}
    {f : Fin nfile} (h : Refs X Y L s) (hk : (s.file f).kind ≠ .inode) (r w : Bool) :
    Refs X Y L (s.withFile f { s.file f with kind := .pipe, readable := r, writable := w }) := by
  refine h.withFile (fun a => ?_) (fun _ _ => rfl) ?_ nofun
  · simp [File.refers, hk]
  · change (s.file f).ref = _
    omega

theorem pipealloc_refs (h : Refs 0 0 [] s) (p : Fin nproc) (mem : Bool) :
    Wp (pipealloc mem) s
      (fun r s' => Drops p s s' ∧
        match r with
        | none => Refs 0 0 [] s'
        | some (rf, wf) => Refs 0 (one rf + one wf) [] s') := by
  unfold pipealloc
  refine (filealloc_refs h p).bind ?_ fun _ hf => hf.elim
  rintro (_ | f0) s1 h1
  · cases h1
    exact ⟨(Does.refl p s).drops, h⟩
  obtain ⟨h1, hd1, hfree, rfl⟩ := h1
  rw [zero_add] at h1
  refine (filealloc_refs h1 p).bind ?_ fun _ hf => hf.elim
  rintro (_ | f1) s2 h2
  · cases h2
    refine (fileclose_refs h1 (fun _ => le_rfl) p).next ?_
    rintro _ s3 ⟨h3, hd3, -⟩
    rw [sub_self] at h3
    exact ⟨hd1.drops.trans hd3, h3⟩
  obtain ⟨h2, hd2, hfree1, rfl⟩ := h2
  dsimp only
  split
  case isTrue =>
    simp only [wp_bind]
    refine (fileclose_refs h2 (fun _ => le_rfl) p).imp ?_
    rintro _ s3 ⟨h3, hd3, -⟩
    rw [add_sub_cancel_left] at h3
    refine (fileclose_refs h3 (fun _ => le_rfl) p).imp ?_
    rintro _ s4 ⟨h4, hd4, -⟩
    rw [sub_self] at h4
    exact ⟨((hd1.eq_comp hd2).drops.trans hd3).trans hd4, h4⟩
  case isFalse =>
    -- the second file is not the first, which has a reference
    have hne : f1 ≠ f0 := by
      rintro rfl
      rw [withFile_self] at hfree1
      cases hfree1
    have hkind : (s.file f0).kind ≠ .inode := h.idle f0 hfree
    have hkind1 : ((s.withFile f0 { s.file f0 with ref := 1 }).file f1).kind ≠ .inode :=
      h1.idle f1 hfree1
    simp only [wp_bind, wp_getFile, wp_setFile]
    refine ⟨((hd1.eq_comp hd2).eq_comp (.withFile p f0 _)).drops.trans (Does.withFile p f1 _).drops,
      Refs.pipe (Refs.pipe h2 ?_ true false) ?_ false true⟩
    · rw [withFile_of_ne _ hne.symm, withFile_self]
      exact hkind
    · rw [withFile_of_ne _ hne, withFile_self]
      exact hkind1

theorem sysPipe_done (h : Refs 0 0 [] s) (arg mem : Bool) :
    Wp (sysPipe p arg mem) s (fun _ s' => Done p (Reaps ∅) s s') := by
  -- both files are closed again
  have hclose : ∀ {rf wf : Fin nfile} {s1 : State}, Refs 0 (one rf + one wf) [] s1 → Drops p s s1 →
      Wp (fileclose rf) s1 (fun _ s2 => Wp (fileclose wf) s2
        (fun _ s' => Done p (Reaps ∅) s s')) := by
    intro rf wf s1 h1 hd1
    refine (fileclose_refs h1 (fun _ => le_rfl) p).imp ?_
    rintro _ s2 ⟨h2, hd2, -⟩
    rw [add_sub_cancel_left] at h2
    refine (fileclose_refs h2 (fun _ => le_rfl) p).imp ?_
    rintro _ s3 ⟨h3, hd3, -⟩
    rw [sub_self] at h3
    exact ⟨h3, (hd1.trans hd2).trans hd3⟩
  unfold sysPipe
  split
  case isTrue => exact (Done.refl h p).imp .of_eq
  case isFalse =>
    refine (pipealloc_refs h p mem).next ?_
    rintro (_ | ⟨rf, wf⟩) s1 ⟨hd1, h1⟩
    · exact ⟨h1, hd1⟩
    refine (fdalloc_refs h1).bind ?_ fun _ hf => hf.elim
    rintro (_ | fd0) s2 h2
    · cases h2
      simp only [wp_bind]
      exact hclose h1 hd1
    obtain ⟨h2, hd2, -, hfd0, -⟩ := h2
    rw [add_sub_cancel_left] at h2
    refine (fdalloc_refs h2).bind ?_ fun _ hf => hf.elim
    rintro (_ | fd1) s3 h3
    · cases h3
      simp only [wp_bind]
      refine (setOfile_none_refs h2 hfd0).mono ?_ fun _ hf => hf.elim
      rintro _ s3 ⟨h3, hd3, -⟩
      rw [add_comm] at h3
      exact hclose h3 (hd1.trans (hd2.eq_comp hd3).drops)
    · obtain ⟨h3, hd3, -⟩ := h3
      rw [sub_self] at h3
      exact ⟨h3, hd1.trans (hd2.eq_comp hd3).drops⟩

/-! ### `exec` -/

section Exec

variable {X : Fin ninode → Int} {Y : Fin nfile → Int} {ip : Fin ninode}

theorem readi_refs (h : Refs X Y [ip] s) (p : Fin nproc) (off n : Nat) (io : DevIo) :
    Wp (readi ip off n io) s (fun _ s' => Refs X Y [ip] s' ∧ Does p Eq s s') := by
  refine (readi_held h.held List.mem_cons_self 0 off n io).mono ?_ fun _ _ => trivial
  rintro _ s' ⟨h', hk, -⟩
  exact ⟨h.of_keeps hk h', hk.does p⟩

theorem loaduvm_refs (p : Fin nproc) {offset sz : Nat} {io : DevIo} :
    ∀ {fuel i : Nat} {s : State}, Refs X Y [ip] s →
      Wp (loaduvm ip offset sz io fuel i) s (fun _ s' => Refs X Y [ip] s' ∧ Does p Eq s s')
  | 0, _, _, _ => trivial
  | fuel + 1, i, s, h => by
    unfold loaduvm
    split
    case isFalse => exact ⟨h, .refl p s⟩
    case isTrue =>
      refine (readi_refs h p _ _ io).next ?_
      rintro ⟨r, bs⟩ s1 ⟨h1, hd1⟩
      dsimp only
      split
      case isTrue => exact ⟨h1, hd1⟩
      case isFalse =>
        refine (loaduvm_refs p h1).imp ?_
        rintro _ s2 ⟨h2, hd2⟩
        exact ⟨h2, hd1.eq_comp hd2⟩

theorem loadSegments_refs (p : Fin nproc) {phoff : Nat} {mem : ExecMem} {io : DevIo} :
    ∀ {left i : Nat} {s : State}, Refs X Y [ip] s →
      Wp (loadSegments ip phoff mem io left i) s (fun _ s' => Refs X Y [ip] s' ∧ Does p Eq s s')
  | 0, _, s, h => ⟨h, .refl p s⟩
  | left + 1, i, s, h => by
    unfold loadSegments
    refine (readi_refs h p _ _ io).next ?_
    rintro ⟨r, ph⟩ s1 ⟨h1, hd1⟩
    -- the headers that are left
    have hrest : ∀ {s2}, Refs X Y [ip] s2 → Does p Eq s s2 →
        Wp (loadSegments ip phoff mem io left (i + 1)) s2
          (fun _ s' => Refs X Y [ip] s' ∧ Does p Eq s s') := by
      intro s2 h2 hd2
      refine (loadSegments_refs p h2).imp ?_
      rintro _ s3 ⟨h3, hd3⟩
      exact ⟨h3, hd2.eq_comp hd3⟩
    dsimp only
    split
    case isTrue => exact ⟨h1, hd1⟩
    case isFalse =>
      split
      case isTrue => exact hrest h1 hd1
      case isFalse =>
        split
        case isTrue => exact ⟨h1, hd1⟩
        case isFalse =>
          refine (loaduvm_refs p h1).next ?_
          rintro (_ | _) s2 ⟨h2, hd2⟩
          · exact ⟨h2, hd1.eq_comp hd2⟩
          · exact hrest h2 (hd1.eq_comp hd2)

end Exec

theorem exec_done (h : Refs 0 0 [] s) (path : List Byte) (mem : ExecMem) (io : DevIo) :
    Wp (exec p path mem io) s (fun _ s' => Done p (Reaps ∅) s s') := by
  unfold exec
  refine (namei_refs h path).next ?_
  rintro (_ | ip) s1 ⟨hd1, -, h1⟩
  · exact ⟨h1, hd1⟩
  simp only [wp_bind]
  refine (ilock_refs h1 p).imp ?_
  rintro _ s2 ⟨h2, hd2, -⟩
  refine (readi_refs h2 p _ _ io).imp ?_
  rintro ⟨r, elf⟩ s3 ⟨h3, hd3⟩
  -- the end, whatever was loaded
  have hend : ∀ {s4} (loaded : Bool), Refs (one ip) 0 [ip] s4 → Does p Eq s3 s4 →
      Wp (do
          iunlockput ip
          if loaded && mem.stack then return 0 else return (-1 : Int)) s4
        (fun _ s' => Done p (Reaps ∅) s s') := by
    intro s4 loaded h4 hd4
    refine (iunlockput_done h4 p).next fun _ s5 hr => ?_
    have hdone : Done p (Reaps ∅) s s5 :=
      .after (hd1.trans ((hd2.eq_comp hd3).eq_comp hd4).drops) hr
    split
    · exact hdone
    · exact hdone
  split
  case isTrue => exact hend false h3 (.refl p s3)
  case isFalse =>
    refine (loadSegments_refs p h3).next ?_
    rintro loaded s4 ⟨h4, hd4⟩
    exact hend loaded h4 hd4

theorem sysExec_done (h : Refs 0 0 [] s) (path : Option (List Byte)) (args : Bool) (mem : ExecMem)
    (io : DevIo) :
    Wp (sysExec p path args mem io) s (fun _ s' => Done p (Reaps ∅) s s') := by
  unfold sysExec
  split
  case h_1 path' _ => exact exec_done h path' mem io
  case h_2 => exact (Done.refl h p).imp .of_eq

end Calls

/-! ## Processes -/

/-- What holds between two system calls: the accounts are balanced, and a process that does not run
refers to nothing. -/
structure Accounted (s : State) : Prop where
  refs : Refs 0 0 [] s
  cwd : ∀ q, (s.proc q).live = false → (s.proc q).cwd = none
  ofile : ∀ q, (s.proc q).live = false → ∀ fd, (s.proc q).ofile fd = none

/-- What a call makes of the state, with the change `P` to the nodes. -/
structure Served (P : Nodes → Nodes → Prop) (s s' : State) : Prop where
  accounted : Accounted s'
  sb : s'.sb = s.sb
  disk : Disk s → Disk s' ∧ P s.nodes s'.nodes

section Served

variable {s s' : State} {p : Fin nproc} {P Q : Nodes → Nodes → Prop}

theorem Done.served (h : Done p P s s') (hs : Accounted s) (hlive : (s.proc p).live = true) :
    Served P s s' := by
  -- the process that made the call is still live, the others are as they were
  have hsame : ∀ q, (s'.proc q).live = false → (s.proc q).live = false ∧ s'.proc q = s.proc q := by
    intro q hq
    have hne : q ≠ p := by
      rintro rfl
      rw [Proc.live, h.does.state] at hq
      rw [Proc.live, hq] at hlive
      cases hlive
    rw [h.does.others q hne] at hq ⊢
    exact ⟨hq, rfl⟩
  refine ⟨⟨h.refs, fun q hq => ?_, fun q hq => ?_⟩, h.does.sb, h.does.disk⟩
  · obtain ⟨hold, heq⟩ := hsame q hq
    rw [heq]
    exact hs.cwd q hold
  · obtain ⟨hold, heq⟩ := hsame q hq
    rw [heq]
    exact hs.ofile q hold

theorem Served.imp (h : Served P s s') (hP : P s.nodes s'.nodes → Q s.nodes s'.nodes) :
    Served Q s s' :=
  ⟨h.accounted, h.sb, fun hd => (h.disk hd).imp_right hP⟩

/-! ### `fork` -/

section Fork

variable {X : Fin ninode → Int} {Y : Fin nfile → Int} {L : List (Fin ninode)} {np : Fin nproc}

theorem dupFile_refs (h : Refs X Y L s) {fd : Fin nofile} (hnone : (s.proc np).ofile fd = none) :
    Wp (dupFile p np fd) s
      (fun _ s' => Refs X Y L s' ∧ Does np Eq s s' ∧ (s'.proc np).cwd = (s.proc np).cwd ∧
        ∀ fd', fd' ≠ fd → (s'.proc np).ofile fd' = (s.proc np).ofile fd') := by
  unfold dupFile
  rw [wp_bind, wp_getProc]
  cases (s.proc p).ofile fd with
  | none => exact ⟨h, .refl np s, rfl, fun _ _ => rfl⟩
  | some f =>
    simp only [wp_bind]
    refine (filedup_refs h np).imp ?_
    rintro _ s1 ⟨h1, hd1, hproc1⟩
    refine (setOfile_refs h1 Y fun g => ?_).mono ?_ fun _ hf => hf.elim
    · rw [hproc1, hnone, toNat_some_eq, Pi.add_apply]
      simp
    · rintro _ s2 ⟨h2, hd2, -, hproc2⟩
      rw [hproc1] at hproc2
      refine ⟨h2, hd1.eq_comp hd2, ?_, fun fd' hfd => ?_⟩
      · rw [hproc2, update_self]
      · rw [hproc2, update_self]
        exact update_of_ne hfd ..

theorem dupFiles_refs :
    ∀ {fds : List (Fin nofile)} {s : State}, Refs X Y L s → fds.Nodup →
      (∀ fd ∈ fds, (s.proc np).ofile fd = none) →
      Wp (dupFiles p np fds) s
        (fun _ s' => Refs X Y L s' ∧ Does np Eq s s' ∧ (s'.proc np).cwd = (s.proc np).cwd)
  | [], s, h, _, _ => ⟨h, .refl np s, rfl⟩
  | fd :: fds, s, h, hnd, hnone => by
    obtain ⟨hout, hnd⟩ := List.nodup_cons.mp hnd
    rw [dupFiles, wp_bind]
    refine (dupFile_refs h (hnone fd List.mem_cons_self)).imp ?_
    rintro _ s1 ⟨h1, hd1, hcwd1, hof1⟩
    refine (dupFiles_refs h1 hnd fun fd' hfd => ?_).imp ?_
    · rw [hof1 fd' fun he => hout (he ▸ hfd)]
      exact hnone fd' (List.mem_cons_of_mem _ hfd)
    · rintro _ s2 ⟨h2, hd2, hcwd2⟩
      exact ⟨h2, hd1.eq_comp hd2, hcwd2.trans hcwd1⟩

end Fork

theorem fork_served (h : Accounted s) (hlive : (s.proc p).live = true) (mem : Bool) :
    Wp (fork p mem) s (fun _ s' => Served Eq s s') := by
  have hrefl : Served Eq s s := ⟨h, rfl, fun hd => ⟨hd, rfl⟩⟩
  unfold fork
  rw [wp_bind, wp_get]
  cases hf : (List.finRange nproc).find? fun np => decide ((s.proc np).state = .unused) with
  | none => exact hrefl
  | some np =>
    have hunused : (s.proc np).state = .unused := by simpa using List.find?_some hf
    have hdead : (s.proc np).live = false := by rw [Proc.live, hunused]; rfl
    have hne : p ≠ np := by
      rintro rfl
      rw [hlive] at hdead
      cases hdead
    dsimp only
    split
    case isTrue => exact hrefl
    case isFalse =>
      simp only [wp_bind, wp_getProc]
      refine (dupFiles_refs h.refs (List.nodup_finRange _) fun fd _ => h.ofile np hdead fd).imp ?_
      rintro _ s1 ⟨h1, hd1, hcwd1⟩
      rw [h.cwd np hdead] at hcwd1
      rw [hd1.others p hne]
      cases hc : (s.proc p).cwd with
      | none => trivial
      | some cwd =>
        have hpos : 0 < s1.base cwd := base_pos_of_cwd (p := p) (by rw [hd1.others p hne, hc])
        simp only [wp_bind]
        refine (idup_spec h1.balanced hpos).imp ?_
        rintro c s2 ⟨hcwd, h2, hk2⟩
        rw [wp_getProc, wp_setProc, hcwd]
        have hrefs2 : Refs (one cwd) 0 [] s2 := h1.of_keeps hk2 h2
        have hproc : ∀ q, q ≠ np → s2.proc q = s.proc q := fun q hq => by
          rw [hk2.proc, hd1.others q hq]
        refine ⟨⟨hrefs2.withCwd rfl fun a => ?_, fun q hq => ?_, fun q hq => ?_⟩, ?_, fun hd => ?_⟩
        · rw [hk2.proc, toNat_stands_none hcwd1, toNat_stands rfl, Pi.zero_apply]
          omega
        · by_cases hqn : q = np
          · rw [hqn, withProc_self] at hq
            cases hq
          · rw [withProc_of_ne _ hqn, hproc q hqn] at hq ⊢
            exact h.cwd q hq
        · by_cases hqn : q = np
          · rw [hqn, withProc_self] at hq
            cases hq
          · rw [withProc_of_ne _ hqn, hproc q hqn] at hq ⊢
            exact h.ofile q hq
        · exact hk2.sb.trans hd1.sb
        · obtain ⟨hdisk1, he1⟩ := hd1.disk hd
          obtain ⟨hdisk2, he2⟩ := hk2.disk hdisk1
          exact ⟨⟨hdisk2.own, hdisk2.covers, hdisk2.cached, hdisk2.unique⟩, he1.trans he2⟩

/-! ### `exit` and `wait` -/

theorem closeFile_refs (h : Refs 0 0 [] s) {fd : Fin nofile} :
    Wp (closeFile p fd) s
      (fun _ s' => Refs 0 0 [] s' ∧ Drops p s s' ∧ (s'.proc p).cwd = (s.proc p).cwd ∧
        (s'.proc p).ofile = update (s.proc p).ofile fd none) := by
  unfold closeFile
  rw [wp_bind, wp_getProc]
  cases hof : (s.proc p).ofile fd with
  | none =>
    refine ⟨h, (Does.refl p s).drops, rfl, ?_⟩
    rw [← hof, update_eq_self]
  | some f =>
    simp only [wp_bind]
    refine (fileclose_refs h (fun _ => le_rfl) p).imp ?_
    rintro _ s1 ⟨h1, hd1, hproc1⟩
    refine (setOfile_none_refs h1 (by rw [hproc1]; exact hof)).mono ?_ fun _ hf => hf.elim
    rintro _ s2 ⟨h2, hd2, hproc2⟩
    rw [sub_add_cancel] at h2
    rw [hproc1] at hproc2
    refine ⟨h2, hd1.trans hd2.drops, ?_, ?_⟩
    · rw [hproc2, update_self]
    · rw [hproc2, update_self]

theorem closeFiles_refs :
    ∀ {fds : List (Fin nofile)} {s : State}, Refs 0 0 [] s →
      Wp (closeFiles p fds) s
        (fun _ s' => Refs 0 0 [] s' ∧ Drops p s s' ∧ (s'.proc p).cwd = (s.proc p).cwd ∧
          ∀ fd, (fd ∈ fds ∨ (s.proc p).ofile fd = none) → (s'.proc p).ofile fd = none)
  | [], s, h => ⟨h, (Does.refl p s).drops, rfl, fun fd hfd => hfd.resolve_left List.not_mem_nil⟩
  | fd :: fds, s, h => by
    rw [closeFiles, wp_bind]
    refine (closeFile_refs h).imp ?_
    rintro _ s1 ⟨h1, hd1, hcwd1, hof1⟩
    refine (closeFiles_refs h1).imp ?_
    rintro _ s2 ⟨h2, hd2, hcwd2, hof2⟩
    refine ⟨h2, hd1.trans hd2, hcwd2.trans hcwd1, fun fd' hfd => hof2 fd' ?_⟩
    rw [hof1]
    by_cases he : fd' = fd
    · rw [he, update_self]
      exact .inr rfl
    · rw [update_of_ne he]
      exact hfd.imp_left fun hmem => (List.mem_cons.mp hmem).resolve_left he

theorem exit_served (h : Accounted s) :
    Wp (exit p) s (fun _ s' => Served (Reaps ∅) s s') := by
  unfold exit
  split
  case isTrue => trivial
  case isFalse =>
    simp only [wp_bind, wp_getProc]
    refine (closeFiles_refs h.refs).imp ?_
    rintro _ s1 ⟨h1, hd1, -, hof1⟩
    cases hc : (s1.proc p).cwd with
    | none => trivial
    | some cwd =>
      simp only [wp_bind]
      refine (iput_held h1.balanced (base_pos_of_cwd hc)).imp ?_
      rintro _ s2 ⟨h2, hk2⟩
      rw [wp_getProc, wp_setProc]
      rw [sub_eq_add_neg] at h2
      have hrefs2 := h1.of_keeps hk2 h2
      have hd2 := hd1.trans (Frees.drops hk2 p)
      refine ⟨⟨hrefs2.withCwd rfl fun a => ?_, fun q hq => ?_, fun q hq => ?_⟩, hd2.sb,
        fun hd => ?_⟩
      · rw [hk2.proc, toNat_stands hc, toNat_stands_none rfl, Pi.neg_apply, Pi.zero_apply]
        omega
      · by_cases hqp : q = p
        · rw [hqp, withProc_self]
        · rw [withProc_of_ne _ hqp, hd2.others q hqp] at hq ⊢
          exact h.cwd q hq
      · intro fd
        by_cases hqp : q = p
        · rw [hqp, withProc_self, hk2.proc]
          exact hof1 fd (.inl (List.mem_finRange fd))
        · rw [withProc_of_ne _ hqp, hd2.others q hqp] at hq ⊢
          exact h.ofile q hq fd
      · obtain ⟨hdisk, hr⟩ := hd2.disk hd
        exact ⟨⟨hdisk.own, hdisk.covers, hdisk.cached, hdisk.unique⟩, hr⟩

theorem wait_served (h : Accounted s) (q : Fin nproc) :
    Wp (wait q) s (fun _ s' => Served Eq s s') := by
  unfold wait
  rw [wp_bind, wp_getProc]
  split
  case isFalse => trivial
  case isTrue hz =>
    have hdead : (s.proc q).live = false := by rw [Proc.live, hz]; rfl
    rw [wp_setProc]
    refine ⟨⟨h.refs.withCwd rfl fun _ => rfl, fun r hr => ?_, fun r hr => ?_⟩, rfl, fun hd =>
      ⟨⟨hd.own, hd.covers, hd.cached, hd.unique⟩, rfl⟩⟩
    · by_cases hrq : r = q
      · rw [hrq, withProc_self]
        exact h.cwd q hdead
      · rw [withProc_of_ne _ hrq] at hr ⊢
        exact h.cwd r hr
    · by_cases hrq : r = q
      · rw [hrq, withProc_self]
        exact h.ofile q hdead
      · rw [withProc_of_ne _ hrq] at hr ⊢
        exact h.ofile r hr

/-! ## Every call -/

/-- What a call of process `p` may do to the nodes. -/
def Call.effect (s : State) (p : Fin nproc) : Call → Nodes → Nodes → Prop
  | .open path omode => if hasFlag omode oCreate = true then
      Makes s.sb.ninodes .file (s.aim p path) else Reaps ∅
  | .mkdir path => Makes s.sb.ninodes .dir (s.aim p path)
  | .mknod path _ _ => Makes s.sb.ninodes .dev (s.aim p path)
  | .link _ new => LinkDone ∅ (s.aim p new)
  | .unlink path => Unlinked ∅ (s.aim p path)
  | .write _ _ _ => Any
  | _ => Reaps ∅

theorem call_served (h : Accounted s) (hlive : (s.proc p).live = true) (c : Call) :
    Wp (call p c) s (fun _ s' => Served (c.effect s p) s s') := by
  have hdone : ∀ {P : Nodes → Nodes → Prop} {s'}, Done p P s s' → Served P s s' :=
    fun hd => hd.served h hlive
  cases c with
  | «open» path omode =>
    rw [call, wp_bind]
    exact (sysOpen_done h.refs path omode).imp fun _ _ hd => hdone hd
  | close fd =>
    rw [call, wp_bind]
    exact (sysClose_done h.refs fd).imp fun _ _ hd => hdone hd
  | dup fd =>
    rw [call, wp_bind]
    exact (sysDup_done h.refs fd).imp fun _ _ hd => (hdone hd).imp .of_eq
  | pipe arg mem =>
    rw [call, wp_bind]
    exact (sysPipe_done h.refs arg mem).imp fun _ _ hd => hdone hd
  | read fd n io =>
    rw [call, wp_bind]
    exact (sysRead_done h.refs fd n io).imp fun _ _ hd => (hdone hd).imp .of_eq
  | write fd src io =>
    rw [call, wp_bind]
    exact (sysWrite_done h.refs fd src io).imp fun _ _ hd => hdone hd
  | link old new =>
    rw [call, wp_bind]
    exact (sysLink_done h.refs old new).imp fun _ _ hd => hdone hd
  | unlink path =>
    rw [call, wp_bind]
    exact (sysUnlink_done h.refs path).imp fun _ _ hd => hdone hd
  | mkdir path =>
    rw [call, wp_bind]
    exact (sysMkdir_done h.refs path).imp fun _ _ hd => hdone hd
  | mknod path major minor =>
    rw [call, wp_bind]
    exact (sysMknod_done h.refs path major minor).imp fun _ _ hd => hdone hd
  | chdir path =>
    rw [call, wp_bind]
    exact (sysChdir_done h.refs path).imp fun _ _ hd => hdone hd
  | exec path args mem io =>
    rw [call, wp_bind]
    exact (sysExec_done h.refs path args mem io).imp fun _ _ hd => hdone hd
  | fork mem =>
    rw [call, wp_bind]
    exact (fork_served h hlive mem).imp fun _ _ hd => hd.imp .of_eq
  | exit => exact exit_served h
  | wait q => exact (wait_served h q).imp fun _ _ hd => hd.imp .of_eq

theorem step_served {a : Fin nproc × Call} (h : Accounted s) (hs : step s a = .ok s') :
    Served (a.2.effect s a.1) s s' := by
  unfold step at hs
  split at hs
  case isFalse => cases hs
  case isTrue hlive =>
    split at hs
    · cases hs
    · rename_i hc
      cases hs
      exact (call_served h hlive a.2).ok hc

end Served

end Xv6Mmap.Fs
