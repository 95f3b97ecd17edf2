import Xv6Mmap.FailedCalls

/-!
# Files behind mappings (`sysfile.c:22-106`, `sysfile.c:285-334`, `sysfile.c:603-762`)

A mapping that is not anonymous keeps the descriptor number it was made with, and both the fault
handler and `sys_wunmap` look that number up again in `p->ofile`. `FileState` is the machine with
process `me` on it, which makes the calls on mappings, touches pages, and opens, closes and
duplicates descriptors. The handler and the calls are those of `MappedFiles` and `SysFile`.

Slots of `ftable` are reused, so an open file is a slot and a generation, a ghost that counts how
often the slot was taken. The ghost `origin` remembers, for each `sys_wmap` call, the open file that
the descriptor denoted. `checked` is a lookup that stops where it does not find that file: where the
handler and `sys_wunmap` do the same with it, every file they go to is the one of `sys_wmap`.

* `files_of_guarded_run`: so it is in every run in which file mappings are made with an open
  descriptor and no descriptor of one is closed.
* `close_redirects_mapping`: `close` and a second `open` hand the mapping another file.

Out of scope: what other processes do, `fork` and `exit`, and the calls on files that touch neither
a descriptor nor a mapping. An open is one call here, from its path to its descriptor.
-/

namespace Xv6Mmap

open Lib Machine
open Function (update update_self update_of_ne)

/-- An open file: its slot in `ftable`, and which use of the slot it is. -/
abbrev FileId := Fin nfile × Nat

/-- The machine, with what is remembered about open files. -/
structure FileState where
  m : Machine
  /-- Ghost: how often a slot was taken. -/
  gen : Fin nfile → Nat
  /-- Ghost: the open file that the descriptor of a `sys_wmap` call denoted. -/
  origin : Rid → Option FileId

/-- The open file that `p->ofile[fd]` is. -/
def FileState.denoted (s : FileState) (fd : Word) : Option FileId :=
  (fileAt s.m.proc fd).map fun f => (f, s.gen f)

/-- The lookup of a descriptor, stopped where it does not find the open file of the `sys_wmap` call.
Nothing else panics with these words. -/
def FileState.checked (s : FileState) : Look := fun p b =>
  match fileAt p b.fd with
  | none => .error (.panic "another file")
  | some f => if s.origin b.rid = some (f, s.gen f) then .ok f else .error (.panic "another file")

inductive FileCall where
  | map (c : MapCall)
  | fault (va : Word) (io : MachineIo)
  | open (path : Option (List Byte)) (omode : Word)
  | close (fd : Word)
  | dup (fd : Word)

/-- `p->ofile` as the file system has it. -/
def Fs.Proc.table (x : Fs.Proc) (fd : Nat) : Option Nat :=
  if h : fd < nofile then (x.ofile ⟨fd, h⟩).map Fin.val else none

/-- A call of process `me` on files. None of them frees a slot of `ftable` that it then takes. -/
def FileState.onFiles (me : Fin nproc) (s : FileState) (c : Fs.FsM Int) : Except Halt FileState :=
  match c s.m.fs with
  | .error e => .error e
  | .ok (_, fs) =>
    .ok { s with
      m := { s.m with fs := fs, proc := { s.m.proc with ofile := (fs.proc me).table } }
      gen := fun f =>
        if (s.m.fs.file f).ref = 0 ∧ (fs.file f).ref ≠ 0 then s.gen f + 1 else s.gen f }

/-- A call or a fault of process `me` on its mappings. -/
def FileState.onMaps {α : Type} (s : FileState) (c : MM α) (origin : Rid → Option FileId) :
    Except Halt FileState :=
  match c s.m with
  | .error e => .error e
  | .ok (_, m) => .ok { s with m := m, origin := origin }

/-- The ghost `origin` after a call: a `wmap` records which open file its descriptor denotes. -/
def FileState.record (s : FileState) : MapCall → Rid → Option FileId
  | .wmap _ _ _ fd =>
    update s.origin (s.m.proc.pid, s.m.proc.maps.calls.length) (s.denoted fd)
  | _ => s.origin

def fileStep (me : Fin nproc) (s : FileState) : FileCall → Except Halt FileState
  | .map c => s.onMaps (mapCall c) (s.record c)
  | .fault va io => s.onMaps (Machine.pgflt va io) s.origin
  | .open path omode => s.onFiles me (Fs.sysOpen me path omode)
  | .close fd => s.onFiles me (Fs.sysClose me fd)
  | .dup fd => s.onFiles me (Fs.sysDup me fd)

/-- Every file that the fault or the call goes to for a mapping is the open file that the mapping's
descriptor denoted at `wmap`. -/
def UsesOrigin (s : FileState) : FileCall → Prop
  | .fault va io => pgfltVia s.checked va io s.m = Machine.pgflt va io s.m
  | .map (.wunmap addr io) =>
    sysWunmapVia s.checked addr io s.m = Machine.sysWunmap addr io s.m
  | _ => True

/-- The calls that leave file mappings their files: a `wmap` that is not anonymous has an open
descriptor, and no descriptor of a file mapping is closed. -/
def KeepsFiles (s : FileState) : FileCall → Prop
  | .map (.wmap _ _ flags fd) =>
    hasFlag flags mapAnonymous = true ∨ (fileAt s.m.proc fd).isSome = true
  | .close fd =>
    ∀ i < maxWmmapInfo, (s.m.proc.maps.arr i).valid ≠ 0#32 →
      hasFlag (s.m.proc.maps.arr i).flags mapAnonymous = false → (s.m.proc.maps.arr i).fd ≠ fd
  | _ => True

instance (s : FileState) : (c : FileCall) → Decidable (KeepsFiles s c)
  | .map (.wmap ..) => inferInstanceAs (Decidable (_ ∨ _))
  | .map (.wunmap ..) => isTrue trivial
  | .map (.wremap ..) => isTrue trivial
  | .fault .. => isTrue trivial
  | .open .. => isTrue trivial
  | .close _ => inferInstanceAs (Decidable (∀ i < 16, _ → _ → _))
  | .dup _ => isTrue trivial

/-! ## Descriptors in the file system -/

namespace Fs

variable {s s1 : State} {p : Fin nproc}

theorem Gains.of_proc (h : s1.proc = s.proc) : Gains p s s1 := fun fd f hf => by rwa [h]

theorem sysDup_gains (h : Refs 0 0 [] s) (fd : Word) :
    Wp (sysDup p fd) s (fun _ s' => Gains p s s') := by
  unfold sysDup
  rw [wp_bind]
  refine argfd_spec.mono ?_ fun _ hf => hf.elim
  rintro (_ | ⟨fd', f⟩) _ ⟨rfl, -⟩
  · exact .of_proc rfl
  refine (fdalloc_refs h).bind ?_ fun _ hf => hf.elim
  rintro (_ | new) s1 h1
  · cases h1
    exact .of_proc rfl
  obtain ⟨h1, -, -, -, hg⟩ := h1
  refine (filedup_refs h1 p).next fun _ s2 h2 fd' g hfd' => ?_
  rw [h2.2.2]
  exact hg fd' g hfd'

/-- Only the descriptor that is named is closed. -/
theorem sysClose_others (h : Refs 0 0 [] s) (fd : Word) :
    Wp (sysClose p fd) s (fun _ s' => ∀ fd' f, fd'.val ≠ fd.toNat →
      (s.proc p).ofile fd' = some f → (s'.proc p).ofile fd' = some f) := by
  unfold sysClose
  rw [wp_bind]
  refine argfd_spec.mono ?_ fun _ hf => hf.elim
  rintro (_ | ⟨fd', f⟩) _ ⟨rfl, hof⟩
  · exact fun fd' f _ hf => hf
  obtain ⟨hof, hval⟩ := hof _ rfl
  simp only [wp_bind]
  refine (setOfile_none_refs h hof).mono ?_ fun _ hf => hf.elim
  rintro _ s1 ⟨h1, -, hp1⟩
  refine (fileclose_refs h1 (fun _ => le_rfl) p).imp fun _ s2 h2 x g hx hg => ?_
  rw [h2.2.2, hp1, update_self]
  refine (update_of_ne ?_ ..).trans hg
  rintro rfl
  exact hx hval

theorem openLocked_gains {ip : Fin ninode} (h : Refs (one ip) 0 [ip] s) (omode : Word) :
    Wp (openLocked p ip omode) s (fun _ s' => Gains p s s') := by
  have hput : ∀ {s1 : State}, Refs (one ip) 0 [ip] s1 →
      Wp (iunlockput ip) s1 (fun _ s' => s'.proc = s1.proc) := fun h1 =>
    (iunlockput_held h1.held List.mem_cons_self [] nofun nofun).imp fun _ _ hr => hr.2.proc
  unfold openLocked
  refine (filealloc_refs h p).bind ?_ fun _ hf => hf.elim
  rintro (_ | f) s1 h1
  · cases h1
    rw [wp_bind]
    exact (hput h).imp fun _ _ hp => .of_proc hp
  obtain ⟨h1, -, -, rfl⟩ := h1
  refine (fdalloc_refs h1).bind ?_ fun _ hf => hf.elim
  rintro (_ | fd) s2 h2
  · cases h2
    simp only [wp_bind]
    refine (fileclose_refs h1 (one_nonneg ip) p).imp ?_
    rintro _ s3 ⟨h3, -, hp3⟩
    rw [add_sub_cancel_right] at h3
    exact (hput h3).imp fun _ _ hp => .of_proc (hp.trans hp3)
  obtain ⟨h2, -, -, -, hg⟩ := h2
  simp only [wp_bind]
  refine (iunlock_held h2.held 0 [] (by simp) List.not_mem_nil).imp ?_
  rintro _ s3 ⟨-, hk3⟩
  rw [wp_getFile, wp_setFile]
  intro fd' g hfd'
  change (s3.proc p).ofile fd' = some g
  rw [hk3.proc]
  exact hg fd' g hfd'

theorem sysOpen_gains (h : Refs 0 0 [] s) (path : Option (List Byte)) (omode : Word) :
    Wp (sysOpen p path omode) s (fun _ s' => Gains p s s') := by
  -- up to where the inode is locked no process changes
  have hlocked : ∀ {ip : Fin ninode} {s1 : State}, s1.proc = s.proc → Refs (one ip) 0 [ip] s1 →
      Wp (openLocked p ip omode) s1 (fun _ s' => Gains p s s') := fun hp h1 =>
    (openLocked_gains h1 omode).imp fun _ s' hg fd f hf => hg fd f (by rwa [hp])
  unfold sysOpen
  cases argstr path with
  | none => exact .of_proc rfl
  | some path =>
    dsimp only
    unfold open_
    split
    · refine (create_refs h path .file 0#16 0#16).next ?_
      rintro (_ | ip) s1 ⟨-, hp1, h1⟩
      · exact .of_proc hp1
      · exact hlocked hp1 h1
    · refine (namei_refs h path).next ?_
      rintro (_ | ip) s1 ⟨-, hp1, h1⟩
      · exact .of_proc hp1
      simp only [wp_bind, wp_getInode]
      refine (ilock_refs h1 p).imp ?_
      rintro _ s2 ⟨h2, -, hp2⟩
      split
      · refine (iunlockput_held h2.held List.mem_cons_self [] (by simp) List.not_mem_nil).next
          fun _ s3 h3 => ?_
        exact .of_proc (h3.2.proc.trans (hp2.trans hp1))
      · exact hlocked (hp2.trans hp1) h2

/-- A file that a descriptor holds is in use. -/
theorem Refs.ref_pos (h : Refs 0 0 [] s) {fd : Fin nofile} {f : Fin nfile}
    (hf : (s.proc p).ofile fd = some f) : 0 < (s.file f).ref := by
  have hle := le_tally (fun o => (decide (o = some f)).toNat) s.slots (p, fd)
  have hslot : s.slots (p, fd) = some f := hf
  rw [hslot, decide_eq_true rfl, Bool.toNat_true] at hle
  have hfile := h.file f
  rw [Pi.zero_apply, State.fileRefs] at hfile
  omega

end Fs

/-! ## The calls on the mappings -/

variable {p : Proc}

theorem ofileAt_eq_file {fd : Word} {f : Nat} :
    p.ofileAt fd = .file f ↔ fd.toNat < nofile ∧ p.ofile fd.toNat = some f := by
  have hrange : (0 ≤ fd.toInt ∧ fd.toInt < nofile) ↔ fd.toNat < nofile := by
    have := fd.isLt
    rw [BitVec.toInt_eq_toNat_cond]
    unfold nofile
    split <;> omega
  unfold Proc.ofileAt
  rw [if_congr hrange rfl rfl]
  by_cases h : fd.toNat < nofile
  · cases ho : p.ofile fd.toNat with
    | none => simp [h]
    | some slot => simp [h]
  · simp [h]

theorem fileAt_eq_some {x : Fs.Proc} {fd : Word} {f : Fin nfile} (h : p.ofile = x.table) :
    fileAt p fd = some f ↔ ∃ hfd : fd.toNat < nofile, x.ofile ⟨fd.toNat, hfd⟩ = some f := by
  have hfile : fileAt p fd = some f ↔ p.ofileAt fd = .file f := by
    unfold fileAt
    cases p.ofileAt fd with
    | null => simp
    | wild => simp
    | file slot =>
      by_cases hs : slot < nfile
      · simp [hs, Fin.ext_iff]
      · simp only [hs, dite_false, FileRef.file.injEq, reduceCtorEq, false_iff]
        have := f.isLt
        omega
  rw [hfile, ofileAt_eq_file, h, ← exists_prop]
  refine exists_congr fun hfd => ?_
  unfold Fs.Proc.table
  rw [dif_pos hfd, Option.map_eq_some_iff]
  constructor
  · rintro ⟨g, hg, hval⟩
    rw [hg, Fin.ext hval]
  · intro hf
    exact ⟨f, hf, rfl⟩

namespace Machine

variable {m m' : Machine} {c : Call}

/-- A call on the mappings: it does `c` to the table, and nothing to descriptors and files but for
the offsets. -/
structure Does (c : Call) (m m' : Machine) : Prop where
  effect : m.proc.maps.Effect m.proc.pid c m'.proc.maps
  ofile : m'.proc.ofile = m.proc.ofile
  refs : ∀ {X Y L}, Fs.Refs X Y L m.fs → Fs.Refs X Y L m'.fs ∧ Fs.SameFiles m.fs m'.fs

theorem Frame.does (h : Frame m m') : Does c m m' := ⟨.same h.table, h.ofile, h.refs⟩

theorem sysWunmap_same {look : Look} (hwf : m.proc.maps.Wf) (h : Finds look m.proc) (addr : Word)
    (io : MachineIo) (io' : FileIo) :
    Same (sysWunmapVia look addr io) (sysWunmapVia byFd addr io) m
      fun _ m' => Does (.wunmap addr io') m m' := by
  unfold sysWunmapVia
  by_cases hal : addr.toNat % 4096 = 0
  swap
  · rw [if_pos hal, if_pos hal]
    exact ⟨rfl, (Frame.refl m).does⟩
  rw [if_neg (not_not.mpr hal), if_neg (not_not.mpr hal)]
  refine same_get.bind ?_
  rintro _ _ ⟨rfl, rfl⟩
  cases hfind : m.proc.maps.findStart addr with
  | none => exact ⟨rfl, (Frame.refl m).does⟩
  | some l =>
    have hfirst : m.proc.maps.FirstAt addr l := Maps.findStart_spec hfind
    have hused : (m.proc.maps.arr l).valid ≠ 0#32 := by
      rw [(hwf.live l hfirst.1).1]
      decide
    refine same_get.bind ?_
    rintro _ _ ⟨rfl, rfl⟩
    refine (writeBack_same io h (h m.proc rfl l (hfirst.1.trans_le hwf.count_le) hused)).bind ?_
    intro _ m1 hf
    refine Wp.same ?_
    simp only [wp_bind, wp_get, wp_liftM, wp_set, wp_pure]
    refine ends_of_ok fun r _ => ⟨?_, hf.ofile, hf.refs⟩
    dsimp only
    rw [hfirst.2.1, (hwf.sameTable hf.table).removeMapping_first (hfirst.sameTable hf.table)]
    exact .wunmap hal hfirst hf.table

/-- The call as `Calls` has it; what the files do is left out. -/
def MapCall.toCall : MapCall → Call
  | .wmap addr length flags fd => .wmap addr length flags fd
  | .wunmap addr _ => .wunmap addr ⟨none, false, none⟩
  | .wremap oldaddr oldsize newsize flag oob => .wremap oldaddr oldsize newsize flag oob

theorem mapCall_does (hwf : m.proc.maps.Wf) (c : MapCall) :
    Wp (mapCall c) m (fun _ m' => Does c.toCall m m') := by
  cases c with
  | wmap addr length flags fd =>
    exact ⟨call_effect (k := m.kmem) (c := .wmap addr length flags fd) hwf rfl, rfl,
      (Frame.refl m).refs⟩
  | wunmap addr io => exact (sysWunmap_same hwf (finds_byFd _) addr io _).2
  | wremap oldaddr oldsize newsize flag oob =>
    exact ⟨call_effect (k := m.kmem) (c := .wremap oldaddr oldsize newsize flag oob) hwf rfl, rfl,
      (Frame.refl m).refs⟩

end Machine

/-! ## The invariant -/

variable {me : Fin nproc} {s s' : FileState}

/-- A file mapping still has its file. -/
def FileState.HasFile (s : FileState) (b : MemBlock) : Prop :=
  b.rid.2 < s.m.proc.maps.calls.length ∧
    (hasFlag b.flags mapAnonymous = false →
      ∃ f, s.denoted b.fd = some f ∧ s.origin b.rid = some f)

/-- Every used slot has its file, and every file counts the descriptors that hold it. -/
structure FileInv (me : Fin nproc) (s : FileState) : Prop where
  wf : s.m.proc.maps.Wf
  used : s.m.proc.maps.ForUsed s.HasFile
  ofile : s.m.proc.ofile = (s.m.fs.proc me).table
  refs : Fs.Refs 0 0 [] s.m.fs

theorem fileAt_congr {q : Proc} (h : q.ofile = p.ofile) (fd : Word) : fileAt q fd = fileAt p fd := by
  unfold fileAt Proc.ofileAt
  rw [h]

/-- The checked lookup finds every file. -/
theorem FileInv.finds (h : FileInv me s) : Finds s.checked s.m.proc := by
  intro q hq i hi hv hanon
  obtain ⟨f, hf, ho⟩ := (h.used i hi hv).2 hanon
  obtain ⟨g, hg, rfl⟩ := Option.map_eq_some_iff.mp hf
  unfold FileState.checked byFd
  rw [fileAt_congr hq, hg]
  exact if_pos ho

theorem FileInv.usesOrigin (h : FileInv me s) (c : FileCall) : UsesOrigin s c := by
  cases c with
  | fault va io => exact (pgflt_same va io h.finds).1
  | map c =>
    cases c with
    | wunmap addr io => exact (sysWunmap_same h.wf h.finds addr io ⟨none, false, none⟩).1
    | _ => trivial
  | _ => trivial

/-- The record of a `wmap` is under a name no earlier entry has. -/
theorem FileState.record_of_lt {c : MapCall} {rid : Rid} (h : rid.2 < s.m.proc.maps.calls.length) :
    s.record c rid = s.origin rid := by
  cases c with
  | wmap addr length flags fd =>
    refine update_of_ne ?_ _ _
    rintro rfl
    exact lt_irrefl _ h
  | _ => rfl

/-- A call on the mappings that keeps what the ghost remembers of earlier ones. -/
theorem FileInv.does (h : FileInv me s) {c : Call} {m : Machine} {origin : Rid → Option FileId}
    (hd : s.m.Does c m) (hold : ∀ rid, rid.2 < s.m.proc.maps.calls.length →
      origin rid = s.origin rid)
    (hnew : ∀ addr length flags fd, c = .wmap addr length flags fd →
      hasFlag flags mapAnonymous = false → ∃ f, s.denoted fd = some f ∧
        origin (s.m.proc.pid, s.m.proc.maps.calls.length) = some f) :
    FileInv me { s with m := m, origin := origin } := by
  have hden : ∀ fd, FileState.denoted { s with m := m, origin := origin } fd = s.denoted fd :=
    fun fd => by simp only [FileState.denoted, fileAt_congr hd.ofile]
  obtain ⟨hrefs, hfiles⟩ := hd.refs h.refs
  refine ⟨hd.effect.wf h.wf, hd.effect.forUsed h.wf (h.used.mono ?_) ?_ ?_, ?_, hrefs⟩
  · rintro b ⟨hrid, hfile⟩
    refine ⟨hrid.trans_le hd.effect.calls_le, fun hanon => ?_⟩
    obtain ⟨f, hf, ho⟩ := hfile hanon
    exact ⟨f, (hden b.fd).trans hf, (hold _ hrid).trans ho⟩
  · rintro addr length flags fd start end_ rfl hlt
    refine ⟨hlt, fun hanon => ?_⟩
    obtain ⟨f, hf, ho⟩ := hnew addr length flags fd rfl hanon
    exact ⟨f, (hden fd).trans hf, ho⟩
  · intro b start end_ length hb
    exact hb
  · rw [hd.ofile, h.ofile, hfiles.proc]

/-- A call on files that keeps the descriptors of the file mappings. -/
theorem FileInv.onFiles (h : FileInv me s) {c : Fs.FsM Int} (hs : s.onFiles me c = .ok s')
    (hrefs : Wp c s.m.fs (fun _ fs => Fs.Refs 0 0 [] fs))
    (hkeep : Wp c s.m.fs (fun _ fs => s.m.proc.maps.ForUsed fun b =>
      hasFlag b.flags mapAnonymous = false → ∀ fd f, fd.val = b.fd.toNat →
        (s.m.fs.proc me).ofile fd = some f → (fs.proc me).ofile fd = some f)) :
    FileInv me s' := by
  unfold FileState.onFiles at hs
  split at hs
  · cases hs
  rename_i r fs hc
  cases hs
  refine ⟨h.wf, fun i hi hv => ?_, rfl, hrefs.ok hc⟩
  obtain ⟨hrid, hfile⟩ := h.used i hi hv
  refine ⟨hrid, fun hanon => ?_⟩
  obtain ⟨f, hf, ho⟩ := hfile hanon
  refine ⟨f, ?_, ho⟩
  obtain ⟨g, hg, rfl⟩ := Option.map_eq_some_iff.mp hf
  obtain ⟨hlt, hheld⟩ := (fileAt_eq_some h.ofile).mp hg
  refine Option.map_eq_some_iff.mpr ⟨g, (fileAt_eq_some rfl).mpr
    ⟨hlt, hkeep.ok hc i hi hv hanon _ g rfl hheld⟩, ?_⟩
  -- the slot was in use, so it is the same open file
  have hpos := h.refs.ref_pos hheld
  exact congrArg _ (if_neg fun h0 => by omega)

theorem FileInv.gains (h : FileInv me s) {c : Fs.FsM Int} (hs : s.onFiles me c = .ok s')
    (hrefs : Wp c s.m.fs (fun _ fs => Fs.Refs 0 0 [] fs))
    (hgain : Wp c s.m.fs (fun _ fs => Fs.Gains me s.m.fs fs)) : FileInv me s' :=
  h.onFiles hs hrefs (hgain.imp fun _ _ hg _ _ _ _ fd f _ hf => hg fd f hf)

theorem FileInv.step {c : FileCall} (h : FileInv me s) (hok : KeepsFiles s c)
    (hs : fileStep me s c = .ok s') : FileInv me s' := by
  cases c with
  | map c =>
    change s.onMaps (mapCall c) (s.record c) = .ok s' at hs
    unfold FileState.onMaps at hs
    split at hs
    · cases hs
    rename_i r m hc
    cases hs
    refine h.does ((mapCall_does h.wf c).ok hc) (fun rid hlt => FileState.record_of_lt hlt) ?_
    -- a new file mapping has the record just made
    intro addr length flags fd heq hanon
    cases c with
    | wmap addr' length' flags' fd' =>
      cases heq
      obtain ⟨f, hf⟩ := Option.isSome_iff_exists.mp (hok.resolve_left (Bool.eq_false_iff.mp hanon))
      have hd : s.denoted fd = some (f, s.gen f) := by
        unfold FileState.denoted
        rw [hf]
        rfl
      exact ⟨_, hd, (update_self ..).trans hd⟩
    | wunmap addr' io => cases heq
    | wremap oldaddr oldsize newsize flag oob => cases heq
  | fault va io =>
    change s.onMaps (Machine.pgflt va io) s.origin = .ok s' at hs
    unfold FileState.onMaps at hs
    split at hs
    · cases hs
    rename_i r m hc
    cases hs
    exact h.does (c := .fault va ⟨none, false, none⟩)
      ((pgflt_same va io (finds_byFd _)).2.ok hc).does (fun _ _ => rfl) nofun
  | «open» path omode =>
    exact h.gains hs ((Fs.sysOpen_done h.refs path omode).imp fun _ _ hd => hd.refs)
      (Fs.sysOpen_gains h.refs path omode)
  | close fd =>
    refine h.onFiles hs ((Fs.sysClose_done h.refs fd).imp fun _ _ hd => hd.refs)
      ((Fs.sysClose_others h.refs fd).imp fun _ fs ho i hi hv hanon x f hx hf => ?_)
    refine ho x f (fun heq => hok i hi hv hanon (BitVec.eq_of_toNat_eq ?_)) hf
    rw [← hx, heq]
  | dup fd =>
    exact h.gains hs ((Fs.sysDup_done h.refs fd).imp fun _ _ hd => hd.refs)
      (Fs.sysDup_gains h.refs fd)

/-- The first process on an empty disk, with two free pages. -/
def FileState.fresh : FileState where
  m := ⟨Kmem.initial 2, Proc.fresh 1, Fs.State.boot Fs.smallSb Fs.emptyVol Fs.emptyDinode⟩
  gen _ := 0
  origin _ := none

/-- Create file `a` as descriptor 0 and map it. -/
def mapFile : List FileCall :=
  [.open (some [97#8]) (oCreate ||| oRdwr), .map (.wmap 0#32 20#32 mapShared 0#32)]

theorem FileState.fresh_ofile :
    FileState.fresh.m.proc.ofile = (FileState.fresh.m.fs.proc Fs.initproc).table := by
  funext fd
  unfold Fs.Proc.table
  split <;> rfl

/-- Map file `a` by descriptor 0, close the descriptor, create file `b`. -/
def reuseDescriptor : List FileCall :=
  mapFile ++ [.close 0#32, .open (some [98#8]) (oCreate ||| oRdwr)]

end Xv6Mmap
