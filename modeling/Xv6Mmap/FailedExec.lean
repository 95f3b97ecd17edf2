import Xv6Mmap.ExecArgs
import Xv6Mmap.FsRuns

/-!
# An exec that fails (`exec.c:10-114`)

Everything `exec` does before it commits is on a page table of its own and on one reference to an
inode. Where it gives up, `bad` looks at `pgdir` and `ip` alone to tell what there is to undo.

* Up to `iunlockput` the inode is locked and does not change, so that reading it is reading a file by
  itself (`readIp_reads`), and what is known about loading a file applies.
* `Given` is what `pgdir` stands for at every `goto bad`, also in the middle of the arguments
  (`pushArgs_given`), and `freePgdir_restores` gives it back.
* **`failed_exec_intact`**: whatever the file holds and wherever it fails.
* `pushArgs_returns`: strings shorter than the image cannot make `copyout` follow a null pointer.
-/

namespace Xv6Mmap.Exec

open Lib
open Fs (Disk Held Keeps Frees Named one FsM)

section Rules

variable {σ α : Type} {E : Halt → Prop}

/-- A function of the file system in the whole kernel. -/
theorem wp_onFs {m : FsM α} {s : State Kernel} {Q : α → State Kernel → Prop}
    (h : Wp m s.file.fs (fun r fs => Q r { s with file := { s.file with fs := fs } }) E) :
    Wp (onFs m) s Q E := by
  unfold Wp onFs onFile at *
  cases hm : m s.file.fs with
  | error e =>
    rw [hm] at h
    simp only [hm]
    exact h
  | ok r =>
    rw [hm] at h
    simp only [hm]
    exact h

end Rules

/-! ## The account of a failure -/

section Given

variable {σ : Type} {k₀ : Kmem} {f : σ} {s : State σ}

theorem freePgdir_restores (him : k₀.image.Linked) (hk : k₀.Sound) (h : Given k₀ f s) :
    Wp freePgdir s (fun _ s' => Restored k₀ s'.kmem ∧ s'.file = f) fun _ => False := by
  have hp := h.pages
  unfold Wp freePgdir
  cases hd : s.pgdir with
  | none =>
    rw [hd] at hp
    exact ⟨hp, h.file⟩
  | some d =>
    rw [hd] at hp
    obtain ⟨k', hf, hback⟩ := hp.restore him hk
    simp only [hf]
    exact ⟨hback, h.file⟩

theorem Given.withFile {g : σ} (h : Given k₀ f s) : Given k₀ g { s with file := g } :=
  ⟨h.pages, rfl⟩

end Given

/-! ## The arguments -/

section Args

variable {σ : Type} {k₀ : Kmem} {f : σ} {s : State σ} {c : Nat} {d : PgDir}

/-- Copying to user pages touches only pages that were free. -/
theorem copyoutLoop_stacked :
    ∀ (fuel : Nat) {k k' : Kmem} {va : Word} {buf : List Byte} {b : Bool}, Stacked k₀ c k d →
      copyoutLoop d fuel k va buf = .ok (b, k') → Stacked k₀ c k' d := by
  intro fuel
  induction fuel with
  | zero =>
    intro k k' va buf b h hrun
    cases buf with
    | nil =>
      cases hrun
      exact h
    | cons => cases hrun
  | succ fuel ih =>
    intro k k' va buf b h hrun
    cases buf with
    | nil =>
      cases hrun
      exact h
    | cons x xs =>
      by_cases hstop : d.Stops va
      · rw [copyoutLoop] at hrun
        cases htab : d.hasTab (vpn va) with
        | false =>
          rw [uva2ka_null htab] at hrun
          cases hrun
        | true =>
          rw [uva2ka_stops htab hstop] at hrun
          cases hrun
          exact h
      · rw [copyoutLoop_turn hstop] at hrun
        refine ih ?_ hrun
        have hmem := h.mem_of_user (not_not.mp hstop).1
        exact ⟨h.builds.write hmem _, h.two, h.user, h.guard, h.rest, h.few⟩

/-- The address space `d` of `c` pages, with the file `f`. -/
structure Filled (k₀ : Kmem) (f : σ) (c : Nat) (d : PgDir) (s : State σ) : Prop where
  pgdir : s.pgdir = some d
  stacked : Stacked k₀ c s.kmem d
  file : s.file = f

theorem Filled.given (h : Filled k₀ f c d s) : Given k₀ f s :=
  .of_builds h.pgdir h.stacked.builds h.file

/-- One `copyout`: it returns where `P` rules out that it comes to a page without a table. -/
theorem copyTo_filled (P : Prop) (h : Filled k₀ f c d s) {va : Word} {buf : List Byte}
    (hP : P → ∀ i < buf.length, d.Stops (addr va i) → (∀ j < i, ¬ d.Stops (addr va j)) →
      d.hasTab (vpn (addr va i)) = true) :
    Wp (copyTo va buf) s
      (fun b s' => Filled k₀ f c d s' ∧ (b = true → ∀ i < buf.length, ¬ d.Stops (addr va i)))
      fun _ => ¬ P := by
  refine wp_onDir h.pgdir ?_
  have hfilled : ∀ {b k'}, copyoutLoop d buf.length s.kmem va buf = .ok (b, k') →
      Filled k₀ f c d { s with kmem := k', pgdir := some d } := fun hrun =>
    ⟨rfl, copyoutLoop_stacked _ h.stacked hrun, h.file⟩
  unfold copyout
  rcases copyoutLoop_spec d buf.length s.kmem va buf le_rfl with
    ⟨k', hloop, -, hgo⟩ | ⟨i, hi, hst, hbefore, ⟨htab, hloop⟩ | ⟨-, k', hloop, -⟩⟩
  · rw [hloop]
    exact ⟨hfilled hloop, fun _ => hgo⟩
  · rw [hloop]
    intro hp
    rw [hP hp i hi hst hbefore] at htab
    cases htab
  · rw [hloop]
    exact ⟨hfilled hloop, nofun⟩

/-- `sp` is in the stack page or at its end, on a multiple of four. -/
def InStack (c : Nat) (sp : Word) : Prop :=
  4096 * (c - 1) ≤ sp.toNat ∧ sp.toNat ≤ 4096 * c ∧ sp.toNat % 4 = 0

theorem addr_toNat_of_lt (va : Word) (i : Nat) (h : va.toNat + i < 2 ^ 32) :
    (addr va i).toNat = va.toNat + i :=
  toNat_add_ofNat h

/-- The last page of the address space is a device page. -/
theorem top_stops {k : Kmem} (h : Stacked k₀ c k d) (him : k₀.image.Linked) {a : Word}
    (ha : vpn a = 0xFFFFF) : d.Stops a ∧ d.hasTab (vpn a) = true := by
  have hfew := h.few
  refine ⟨fun hgo => ?_, PgDir.hasTab_of_present ?_⟩
  · have := h.lt_of_user hgo.1
    omega
  · rw [← PgDir.isSome_translate, h.rest _ (by omega)]
    exact kernelMap_isSome him (by omega)

/-- A string shorter than the image: its copy does not come to a page without a table, and if it is
copied it is in the stack page. -/
theorem string_copies {k : Kmem} (h : Stacked k₀ c k d) (him : k₀.image.Linked) (hk : k₀.Sound)
    {sp sp' : Word} {len : Nat} (hsp : InStack c sp) (hlen : len < 4096 * c)
    (hsp' : sp' = (sp - BitVec.ofNat 32 (len + 1)) &&& ~~~3#32) :
    (∀ i < len + 1, d.Stops (addr sp' i) → (∀ j < i, ¬ d.Stops (addr sp' j)) →
      d.hasTab (vpn (addr sp' i)) = true) ∧
    ((∀ i < len + 1, ¬ d.Stops (addr sp' i)) → InStack c sp') := by
  obtain ⟨hlo, hhi, h4⟩ := hsp
  have hfew := h.few
  have htwo := h.two
  by_cases hwrap : len + 1 ≤ sp.toNat
  · obtain ⟨hle, hmul⟩ := le_up4 (len + 1)
    have hup : up4 (len + 1) ≤ sp.toNat ∧ up4 (len + 1) < len + 5 := by
      unfold up4
      omega
    have hspN : sp'.toNat = sp.toNat - up4 (len + 1) := by
      rw [hsp']
      exact mask_toNat h4 hwrap
    have hin : ∀ i < len + 1, (addr sp' i).toNat = sp'.toNat + i ∧ vpn (addr sp' i) < c :=
      fun i hi => by
        have := addr_toNat_of_lt sp' i (by omega)
        refine ⟨this, ?_⟩
        unfold vpn
        omega
    refine ⟨fun i hi _ _ => PgDir.hasTab_of_present (h.present (hin i hi).2), fun hgo => ?_⟩
    refine ⟨?_, by omega, by omega⟩
    -- a copy that began below the stack page would have come to the guard page
    by_contra hlow
    obtain ⟨i, hi, hguard⟩ : ∃ i < len + 1, (sp'.toNat + i) / 4096 = c - 2 := by
      by_cases hin : 4096 * (c - 2) ≤ sp'.toNat
      · exact ⟨0, by omega, by omega⟩
      · exact ⟨4096 * (c - 2) - sp'.toNat, by omega, by omega⟩
    obtain ⟨haddr, hlt⟩ := hin i hi
    refine hgo i hi ((h.stops_iff him hk hlt).mpr ?_)
    rw [vpn, haddr, hguard]
  · -- the string does not fit below `sp`: its address wraps into the last page
    have hspN : sp'.toNat = (2 ^ 32 + sp.toNat - (len + 1)) / 4 * 4 := by
      rw [hsp', and_not_three_toNat, BitVec.toNat_sub, BitVec.toNat_ofNat]
      omega
    have hvpn : vpn (addr sp' 0) = 0xFFFFF := by
      rw [addr_zero]
      unfold vpn
      omega
    have hstop := (top_stops h him hvpn).1
    refine ⟨fun i hi _ hbefore => ?_, fun hgo => absurd hstop (hgo 0 (by omega))⟩
    cases i with
    | zero => exact (top_stops h him hvpn).2
    | succ i => exact absurd hstop (hbefore 0 (by omega))

theorem pushStrings_filled (P : Prop) (him : k₀.image.Linked) (hk : k₀.Sound) :
    ∀ (strs : List (List Byte)) {argc : Nat} {sp : Word} {s : State σ}, argc ≤ maxArg →
      Filled k₀ f c d s → (P → (∀ str ∈ strs, str.length < 4096 * c) ∧ InStack c sp) →
      Wp (pushStrings strs argc sp) s
        (fun r s' => Filled k₀ f c d s' ∧ ∀ last ptrs, r = some (last, ptrs) →
          argc + ptrs.length ≤ maxArg ∧ (P → InStack c last))
        fun _ => ¬ P := by
  intro strs
  induction strs with
  | nil =>
    intro argc sp s hargc h hP
    refine ⟨h, fun last ptrs he => ?_⟩
    cases he
    exact ⟨hargc, fun hp => (hP hp).2⟩
  | cons str strs ih =>
    intro argc sp s hargc h hP
    rw [pushStrings]
    split
    · exact ⟨h, fun _ _ he => by cases he⟩
    case isFalse hlt =>
      obtain ⟨sp', hsp'⟩ :
    ∃ sp', sp' = (sp - BitVec.ofNat 32 (str.length + 1)) &&& ~~~3#32 := ⟨_, rfl⟩
      have hlen : (str ++ [0#8]).length = str.length + 1 := by rw [List.length_append]; rfl
      have hstr := fun hp => string_copies h.stacked him hk (hP hp).2
        ((hP hp).1 str List.mem_cons_self) hsp'
      rw [← hsp', wp_bind]
      refine (copyTo_filled P h fun hp => by rw [hlen]; exact (hstr hp).1).imp ?_
      rintro (_ | _) s1 ⟨h1, hgo⟩
      · exact ⟨h1, fun _ _ he => by cases he⟩
      rw [if_pos rfl, wp_bind]
      rw [hlen] at hgo
      refine (ih (by omega) h1 fun hp => ⟨fun t ht => (hP hp).1 t (List.mem_cons_of_mem _ ht),
        (hstr hp).2 (hgo rfl)⟩).imp ?_
      rintro (_ | ⟨last, ptrs⟩) s2 ⟨h2, hr⟩
      · exact ⟨h2, fun _ _ he => by cases he⟩
      · refine ⟨h2, fun last' ptrs' he => ?_⟩
        cases he
        obtain ⟨hn, hin⟩ := hr last ptrs rfl
        rw [List.length_cons]
        exact ⟨by omega, hin⟩

theorem pushArgs_filled (P : Prop) (him : k₀.image.Linked) (hk : k₀.Sound)
    {argv : List (List Byte)} {sz : Word} (hsz : sz.toNat = 4096 * c)
    (h : Filled k₀ f c d s) (hP : P → ∀ str ∈ argv, str.length < 4096 * c) :
    Wp (pushArgs argv sz) s (fun _ s' => Filled k₀ f c d s') fun _ => ¬ P := by
  have hfew := h.stacked.few
  have htwo := h.stacked.two
  unfold pushArgs
  refine (pushStrings_filled P him hk argv (Nat.zero_le _) h fun hp =>
    ⟨hP hp, by omega, by omega, by omega⟩).next ?_
  rintro (_ | ⟨last, ptrs⟩) s1 ⟨h1, hr⟩
  · exact h1
  obtain ⟨hargc, hin⟩ := hr last ptrs rfl
  have hlen : ((ustack last ptrs).flatMap uintBytes).length = 4 * (4 + ptrs.length) := by
    rw [length_flatMap_uintBytes, length_ustack]
  dsimp only
  refine (copyTo_filled P h1 fun hp i hi _ _ => PgDir.hasTab_of_present (h1.stacked.present ?_)).next ?_
  · -- the frame is at most 36 words, so it begins no lower than the guard page
    obtain ⟨hlo, hhi, -⟩ := hin hp
    unfold maxArg at hargc
    have hsp : (last - BitVec.ofNat 32 ((3 + ptrs.length + 1) * 4)).toNat
        = last.toNat - 4 * (4 + ptrs.length) := by
      rw [BitVec.toNat_sub, BitVec.toNat_ofNat]
      omega
    rw [hlen] at hi
    have haddr := addr_toNat_of_lt (last - BitVec.ofNat 32 ((3 + ptrs.length + 1) * 4)) i (by omega)
    unfold vpn
    omega
  · rintro (_ | _) s2 ⟨h2, -⟩ <;> exact h2

/-- **Strings shorter than the image** cannot make `copyout` follow a null pointer: the arguments are
copied, or `exec` fails. -/
theorem pushArgs_returns (him : k₀.image.Linked) (hk : k₀.Sound) {argv : List (List Byte)} {sz : Word}
    (h : Ready k₀ f sz s) (hshort : ∀ str ∈ argv, str.length < sz.toNat) :
    ∃ r s', pushArgs argv sz s = .ok (r, s') := by
  obtain ⟨d, c, hd, hsz, hst⟩ := h.space
  obtain ⟨r, s', hrun, -⟩ := ((pushArgs_filled True him hk hsz ⟨hd, hst, h.file⟩ fun _ str hstr => by
    rw [← hsz]
    exact hshort str hstr).mono (fun _ _ h => h) fun _ he => he trivial).returns
  exact ⟨r, s', hrun⟩

end Args

/-! ## The inode -/

/-- While the inode is locked, reading it is reading a file by itself. -/
theorem readIp_reads {G : Fin ninode → Int} {L : List (Fin ninode)} {f : Kernel} {ip : Fin ninode}
    {m : Fs.Node} (h : Held G L f.fs) (hip : ip ∈ L) (hd : Fs.Disk f.fs)
    (hm : f.fs.nodes (f.fs.inode ip).inum = some m) (ht : m.type ≠ .dev) (io : Fs.DevIo) :
    Reads (readIp ip io) f m.read := by
  refine ⟨fun off n => ?_, (readNode_reads m).short⟩
  obtain ⟨r, fs', hrun, -, -, hsame⟩ := ((Fs.readi_held h hip G off n io).mono (fun _ _ h => h)
    fun _ he => he hd).returns
  obtain ⟨rfl, hr⟩ := hsame hd
  rw [hr m hm ht] at hrun
  unfold readIp
  rw [hrun]

/-- What a failed `exec` leaves as it was. -/
structure Intact (s s' : State Kernel) : Prop where
  caller : s'.file.caller = s.file.caller
  free : s'.kmem.freelist.Perm s.kmem.freelist
  bytes : ∀ v, v ∉ s.kmem.freelist → s'.kmem.mem v = s.kmem.mem v
  ref : ∀ b, (s'.file.fs.inode b).ref = (s.file.fs.inode b).ref
  outstanding : s'.file.outstanding = s.file.outstanding

section Exec

variable {s₀ s : State Kernel} {f : Kernel} {G : Fin ninode → Int} {ip : Fin ninode}

theorem bad_locked (him : s₀.kmem.image.Linked) (hk : s₀.kmem.Sound) (h : Given s₀.kmem f s)
    (hip : f.ip = some ip) (hheld : Held (G + one ip) [ip] f.fs)
    (hG : ∀ b, (s₀.file.fs.inode b).ref = G b) (hcaller : f.caller = s₀.file.caller)
    (hout : f.outstanding = s₀.file.outstanding + 1) :
    Wp bad s (fun _ s' => Intact s₀ s') := by
  unfold bad
  refine (freePgdir_restores him hk h).bind ?_ fun _ _ => trivial
  rintro _ s1 ⟨hback, hf⟩
  simp only [wp_bind, wp_get]
  rw [hf, hip]
  simp only [wp_bind]
  refine wp_onFs ?_
  rw [hf]
  refine (Fs.iunlockput_held hheld List.mem_cons_self [] (by simp) List.not_mem_nil).imp ?_
  rintro _ fs ⟨hheld', -⟩
  rw [add_sub_cancel_right] at hheld'
  refine ⟨hcaller, hback.perm, hback.bytes, fun b => ?_, ?_⟩
  · rw [hG b]
    exact hheld'.ref b
  · show f.outstanding - 1 = _
    omega

theorem bad_put (him : s₀.kmem.image.Linked) (hk : s₀.kmem.Sound) (h : Given s₀.kmem f s)
    (hip : f.ip = none) (href : ∀ b, (f.fs.inode b).ref = (s₀.file.fs.inode b).ref)
    (hcaller : f.caller = s₀.file.caller) (hout : f.outstanding = s₀.file.outstanding) :
    Wp bad s (fun _ s' => Intact s₀ s') := by
  unfold bad
  refine (freePgdir_restores him hk h).bind ?_ fun _ _ => trivial
  rintro _ s1 ⟨hback, hf⟩
  simp only [wp_bind, wp_get]
  rw [hf, hip]
  exact ⟨by rw [hf, hcaller], hback.perm, hback.bytes, fun b => by rw [hf]; exact href b,
    by rw [hf]; exact hout⟩

theorem commit_succeeds (path : List Byte) (elf : ElfHdr) (sz sp : Word) {Q : State Kernel → Prop} :
    Wp (commit path elf sz sp) s (fun r s' => r = -1 → Q s') := by
  refine wp_of_ok fun r s' hrun hr => ?_
  unfold commit at hrun
  split at hrun
  · cases hrun
  · dsimp only at hrun
    split at hrun
    · cases hrun
    · split at hrun <;> cases hrun
      cases hr

theorem runImage_intact (him : s₀.kmem.image.Linked) (hk : s₀.kmem.Sound)
    (hnd : s₀.kmem.freelist.Nodup) {sz : Word} (hsz : sz < kernBase)
    (h : Loads s₀.kmem f (upPage sz) sz.toNat s) (hip : f.ip = none)
    (href : ∀ b, (f.fs.inode b).ref = (s₀.file.fs.inode b).ref)
    (hcaller : f.caller = s₀.file.caller) (hout : f.outstanding = s₀.file.outstanding)
    (path : List Byte) (argv : List (List Byte)) (elf : ElfHdr) :
    Wp (runImage path argv elf sz) s (fun r s' => r = -1 → Intact s₀ s') := by
  have hbad : ∀ {s : State Kernel}, Given s₀.kmem f s →
      Wp bad s (fun r s' => r = -1 → Intact s₀ s') := fun hg =>
    (bad_put him hk hg hip href hcaller hout).imp fun _ _ hi _ => hi
  unfold runImage
  refine (allocStack_ready him hk hnd hsz h).bind ?_ fun _ he => he.elim
  rintro (_ | sz') s1 ⟨hg, hr⟩
  · exact hbad hg
  obtain ⟨d, c, hd, hszN, hst⟩ := (hr sz' rfl).space
  dsimp only
  refine (pushArgs_filled False him hk hszN ⟨hd, hst, (hr sz' rfl).file⟩ False.elim).bind ?_
    fun _ _ => trivial
  rintro (_ | sp) s2 h2
  · exact hbad h2.given
  · exact commit_succeeds path elf sz' sp

theorem loaded_intact (him : s₀.kmem.image.Linked) (hk : s₀.kmem.Sound)
    (hnd : s₀.kmem.freelist.Nodup) {m : Fs.Node} (hheld : Held (G + one ip) [ip] f.fs)
    (hd : Fs.Disk f.fs) (hm : f.fs.nodes (f.fs.inode ip).inum = some m) (ht : m.type ≠ .dev)
    (hG : ∀ b, (s₀.file.fs.inode b).ref = G b) (hip : f.ip = some ip)
    (hcaller : f.caller = s₀.file.caller) (hout : f.outstanding = s₀.file.outstanding + 1)
    (path : List Byte) (argv : List (List Byte)) (io : Fs.DevIo) :
    Wp (do
        match ← loadFile (readIp ip io) with
        | none => bad
        | some (elf, sz) =>
          putIp ip
          runImage path argv elf sz) ⟨s₀.kmem, none, f, []⟩
      (fun r s' => r = -1 → Intact s₀ s') := by
  refine (loadFile_loads him hk hnd (readIp_reads hheld List.mem_cons_self hd hm ht io)).bind ?_
    fun _ he => he.elim
  rintro (_ | ⟨elf, sz⟩) s1 ⟨hg, hr⟩
  · exact (bad_locked him hk hg hip hheld hG hcaller hout).imp fun _ _ hi _ => hi
  obtain ⟨hsz, hl⟩ := hr elf sz rfl
  unfold putIp
  simp only [wp_bind]
  refine wp_onFs ?_
  rw [hl.file]
  refine (Fs.iunlockput_held hheld List.mem_cons_self [] (by simp) List.not_mem_nil).imp ?_
  rintro _ fs ⟨hheld', -⟩
  rw [add_sub_cancel_right] at hheld'
  -- the image is what it was; the file system has the reference back
  have hl' : Loads s₀.kmem (⟨fs, f.outstanding - 1, f.caller, none⟩ : Kernel) (upPage sz) sz.toNat
      ⟨s1.kmem, s1.pgdir, ⟨fs, f.outstanding - 1, f.caller, none⟩, s1.loaded⟩ :=
    ⟨hl.image, rfl, hl.loaded⟩
  have hout' : f.outstanding - 1 = s₀.file.outstanding := by omega
  exact runImage_intact him hk hnd hsz hl' rfl (fun b => by rw [hG b]; exact hheld'.ref b) hcaller
    hout' path argv elf

end Exec

/-- **A failed `exec` leaves the process intact**: for a path that names nothing or a regular file,
whatever the file holds, for all arguments and wherever it fails, the process, the set of free pages
and the bytes of the others, all reference counts and the number of operations in the log are what
they were. -/
theorem failed_exec_intact (p : Fin nproc) (path : List Byte) (argv : List (List Byte))
    (io : Fs.DevIo) (s s' : State Kernel) (him : s.kmem.image.Linked) (hk : s.kmem.Sound)
    (hnd : s.kmem.freelist.Nodup) (hd : Fs.Disk s.file.fs)
    (hnn : ∀ b, 0 ≤ (s.file.fs.inode b).ref)
    (hcwd : ∀ c, (s.file.fs.proc p).cwd = some c → 0 < (s.file.fs.inode c).ref)
    (hfile : ∀ i name m, s.file.fs.resolve p false path = some (i, name) →
      s.file.fs.nodes i = some m → m.type = .file)
    (hrun : exec p path argv io s = .ok (-1, s')) : Intact s s' := by
  have h₀ : Held (fun b => (s.file.fs.inode b).ref) [] s.file.fs := ⟨fun _ => rfl, hnn, by simp⟩
  refine Wp.ok (Q := fun r s' => r = -1 → Intact s s') (E := fun _ => True) ?_ hrun rfl
  unfold exec beginOp
  simp only [wp_bind, wp_modify]
  refine wp_onFs ?_
  refine (Fs.namei_held h₀ hcwd path).imp ?_
  rintro (_ | ip) fs₁ ⟨name, hfrees, hr⟩
  · refine fun _ => ⟨rfl, .refl _, fun _ _ => rfl, hr.ref, ?_⟩
    show s.file.outstanding + 1 - 1 = _
    omega
  obtain ⟨h₁, hw⟩ := hr
  simp only [wp_bind]
  refine wp_onFs ?_
  refine (Fs.ilock_held h₁ (one ip)).imp ?_
  rintro _ fs₂ ⟨-, h₂, hk₂⟩
  obtain ⟨hd₁, hreaps⟩ := hfrees.disk hd
  obtain ⟨hd₂, hsame⟩ := hk₂.disk hd₁
  -- the inode that was found is still there, since it has a type
  obtain ⟨m, hm, -⟩ := h₂.node List.mem_cons_self hd₂
  have hinum : (fs₂.inode ip).inum = (fs₁.inode ip).inum  :=
    hk₂.inum ip (by rw [Fs.one_self]; decide)
  have ht : m.type = .file := by
    refine hfile _ name m (hw hd) ?_
    rw [hinum, ← hsame] at hm
    rcases hreaps (fs₁.inode ip).inum with he | ⟨he, -⟩
    · rw [← he]
      exact hm
    · rw [he] at hm
      cases hm
  simp only [wp_modify, setIp]
  exact wp_bind.mp (loaded_intact him hk hnd
    (f := ⟨fs₂, s.file.outstanding + 1, s.file.caller, some ip⟩) h₂ hd₂ hm (by simp [ht])
    (fun _ => rfl) rfl rfl rfl path argv io)

/-- An ELF header without program headers. -/
def bareHeader : List Byte := [0x7F#8, 69#8, 76#8, 70#8] ++ List.replicate 48 0#8

/-- The calls that make it a file. -/
def writeHeader : List (Fin nproc × Fs.Call) :=
  [(Fs.initproc, .open (some [97#8]) 0x201#32),
    (Fs.initproc, .write 0#32 (some bareHeader) default), (Fs.initproc, .close 0#32)]

/-- A process that calls `exec` with one page left. -/
def onePageLeft (fs : Fs.State) : State Kernel :=
  ⟨Kmem.initial 1, none, ⟨fs, 0, ⟨.unused, [], 0#32, 0#32⟩, none⟩, []⟩

/-- The page becomes the new directory, there is none for its tables, and it is given back. -/
theorem failed_exec_intact_one_page :
    ∃ fs s', run Fs.step (.boot Fs.smallSb Fs.emptyVol Fs.emptyDinode) writeHeader = .ok fs ∧
      exec Fs.initproc [97#8] [[97#8]] default (onePageLeft fs) = .ok (-1, s') ∧
      Intact (onePageLeft fs) s' := by
  obtain ⟨fs, hr, hcheck⟩ := run_ok_of_eval Fs.step (.boot Fs.smallSb Fs.emptyVol Fs.emptyDinode)
    writeHeader
    (fun fs => decide ((fs.resolve Fs.initproc false [97#8]).map Prod.fst = some 2) &&
      decide ((fs.nodes 2).map (·.type) = some .file) &&
      match exec Fs.initproc [97#8] [[97#8]] default (onePageLeft fs) with
      | .ok (r, _) => decide (r = -1)
      | .error _ => false) (by decide +kernel)
  have hacc := Fs.run_accounted Fs.boot_accounted hr
  have hd := Fs.run_disk Fs.boot_accounted (Fs.boot_disk Fs.empty_own Fs.empty_covers) hr
  have hheld := hacc.refs.balanced
  simp only [Bool.and_eq_true, decide_eq_true_eq] at hcheck
  obtain ⟨⟨hres, hnode⟩, hexec⟩ := hcheck
  cases hrun : exec Fs.initproc [97#8] [[97#8]] default (onePageLeft fs) with
  | error e =>
    rw [hrun] at hexec
    cases hexec
  | ok r =>
    obtain ⟨r, s'⟩ := r
    rw [hrun] at hexec
    obtain rfl : r = -1 := by simpa using hexec
    refine ⟨fs, s', hr, hrun, failed_exec_intact Fs.initproc [97#8] [[97#8]] default (onePageLeft fs) s'
      KernelImage.sample_linked (Kmem.initial_sound (by decide)) (Kmem.initial_nodup (by decide)) hd
      (fun b => by rw [onePageLeft, hheld.ref]; exact hheld.nonneg b)
      (fun c hc => by rw [onePageLeft, hheld.ref]; exact Fs.base_pos_of_cwd hc)
      (fun i name m hi hm => ?_) hrun⟩
    have hi : fs.resolve Fs.initproc false [97#8] = some (i, name) := hi
    have hm : fs.nodes i = some m := hm
    rw [hi] at hres
    obtain rfl : i = 2 := Option.some.inj hres
    rw [hm] at hnode
    exact Option.some.inj hnode

end Xv6Mmap.Exec
