import Xv6Mmap.FsLinks

/-!
# Who refers to files and inodes (`file.c`, `sysfile.c:22-446`, `proc.c:288-510`)

`Refs X Y L` relates the counts `ref` to what is there to be counted: a file is referred to by the
descriptors that hold it, an inode by the open files on it and by the processes whose current
directory it is. In the middle of a call they may differ, by `X` for inodes and by `Y` for files:
what the call itself holds, or owes. At the end of every call both are zero.

Each function is given with the change it makes to `X` and `Y`, and with what becomes of the disk
(`Does`). The calls are in `FsCalls`, runs of them in `FsRuns`.
-/

namespace Xv6Mmap.Fs

open Lib
open Function (update update_self update_of_ne)

/-! ## Counting -/

/-- The file is open on the inode of slot `a`. -/
def File.refers (a : Fin ninode) (x : File) : Bool := decide (x.kind = .inode ∧ x.ip = a)

/-- The inode of slot `a` is the current directory. -/
def Proc.stands (a : Fin ninode) (x : Proc) : Bool := decide (x.cwd = some a)

/-- The descriptors of all processes. -/
def State.slots (s : State) (q : Fin nproc × Fin nofile) : Option (Fin nfile) :=
  (s.proc q.1).ofile q.2

/-- The number of descriptors that hold file `f`. -/
def State.fileRefs (s : State) (f : Fin nfile) : Int :=
  tally (fun o => (decide (o = some f)).toNat) s.slots

/-- The number of files open on the inode of each slot, and of processes in it. -/
def State.base (s : State) (a : Fin ninode) : Int :=
  tally (fun x => (File.refers a x).toNat) s.file + tally (fun x => (Proc.stands a x).toNat) s.proc

/-- The counts are what there is to count, plus `X` and `Y`. -/
structure Refs (X : Fin ninode → Int) (Y : Fin nfile → Int) (L : List (Fin ninode)) (s : State) :
    Prop where
  held : Held (s.base + X) L s
  file : ∀ f, (s.file f).ref = s.fileRefs f + Y f
  idle : ∀ f, (s.file f).ref = 0 → (s.file f).kind ≠ .inode

/-- What a call by process `p` leaves alone, and what becomes of the disk. -/
structure Does (p : Fin nproc) (P : Nodes → Nodes → Prop) (s s' : State) : Prop where
  sb : s'.sb = s.sb
  others : ∀ q, q ≠ p → s'.proc q = s.proc q
  state : (s'.proc p).state = (s.proc p).state
  disk : Disk s → Disk s' ∧ P s.nodes s'.nodes

/-- The state with file `f` replaced. -/
def State.withFile (s : State) (f : Fin nfile) (x : File) : State :=
  { s with file := update s.file f x }

/-- The state with process `p` replaced. -/
def State.withProc (s : State) (p : Fin nproc) (x : Proc) : State :=
  { s with proc := update s.proc p x }

section Rules

variable {s : State} {E : Halt → Prop}

variable {f : Fin nfile}

@[simp] theorem wp_getFile {Q : File → State → Prop} :
    Wp (getFile f) s Q E ↔ Q (s.file f) s :=
  Iff.rfl

@[simp] theorem wp_setFile {x : File} {Q : Unit → State → Prop} :
    Wp (setFile f x) s Q E ↔ Q ⟨⟩ (s.withFile f x) :=
  Iff.rfl

@[simp] theorem wp_getProc {p : Fin nproc} {Q : Proc → State → Prop} :
    Wp (getProc p) s Q E ↔ Q (s.proc p) s :=
  Iff.rfl

variable {x : Proc}

@[simp] theorem wp_setProc {p : Fin nproc} {Q : Unit → State → Prop} :
    Wp (setProc p x) s Q E ↔ Q ⟨⟩ (s.withProc p x) :=
  Iff.rfl

@[simp] theorem withFile_self (f : Fin nfile) (x : File) : (s.withFile f x).file f = x :=
  update_self ..

theorem withFile_of_ne {g : Fin nfile} (x : File) (h : g ≠ f) :
    (s.withFile f x).file g = s.file g :=
  update_of_ne h ..

@[simp] theorem withProc_self (p : Fin nproc) (x : Proc) : (s.withProc p x).proc p = x :=
  update_self ..

theorem withProc_of_ne {p q : Fin nproc} (x : Proc) (h : q ≠ p) :
    (s.withProc p x).proc q = s.proc q :=
  update_of_ne h ..

/-- A file is replaced: the counts of the inodes it was and is open on. -/
theorem base_withFile (f : Fin nfile) (x : File) (a : Fin ninode) :
    (s.withFile f x).base a
      = s.base a - (File.refers a (s.file f)).toNat + (File.refers a x).toNat := by
  have h := tally_update (fun x => (File.refers a x).toNat) s.file f x
  simp only [State.base, State.withFile]
  omega

/-- A process is replaced: the counts of its current directories. -/
theorem base_withProc (p : Fin nproc) (x : Proc) (a : Fin ninode) :
    (s.withProc p x).base a
      = s.base a - (Proc.stands a (s.proc p)).toNat + (Proc.stands a x).toNat := by
  have h := tally_update (fun x => (Proc.stands a x).toNat) s.proc p x
  simp only [State.base, State.withProc]
  omega

theorem slots_withProc_of_eq {p : Fin nproc} (h : x.ofile = (s.proc p).ofile) :
    (s.withProc p x).slots = s.slots := by
  funext ⟨q, fd⟩
  by_cases hq : q = p
  · subst hq
    simp only [State.slots, withProc_self, h]
  · simp only [State.slots, withProc_of_ne x hq]

theorem slots_withProc {p : Fin nproc} {fd : Fin nofile} {o : Option (Fin nfile)}
    (h : x.ofile = update (s.proc p).ofile fd o) :
    (s.withProc p x).slots = update s.slots (p, fd) o := by
  funext ⟨q, fd'⟩
  by_cases hq : q = p
  · subst hq
    simp only [State.slots, withProc_self, h]
    by_cases hfd : fd' = fd
    · subst hfd
      rw [update_self, update_self]
    · rw [update_of_ne hfd, update_of_ne (by simpa using hfd)]
      rfl
  · simp only [State.slots, withProc_of_ne x hq]
    rw [update_of_ne (by simp [hq])]
    rfl

end Rules

/-! ## The book-keeping -/

section Books

variable {X X' : Fin ninode → Int} {Y Y' : Fin nfile → Int} {L L' : List (Fin ninode)}
  {s s₁ s₂ : State} {p : Fin nproc} {P Q : Nodes → Nodes → Prop}

theorem base_nonneg (s : State) (a : Fin ninode) : 0 ≤ s.base a := by
  unfold State.base
  omega

variable {F : Fin ninode → Int}

theorem Refs.of_keeps (h : Refs X Y L s) (hk : Keeps F P s s₁) (hh : Held (s.base + X') L' s₁) :
    Refs X' Y L' s₁ := by
  have hbase : s₁.base = s.base := by
    funext a
    simp only [State.base, hk.file, hk.proc]
  have hrefs : s₁.fileRefs = s.fileRefs := by
    have hslots : s₁.slots = s.slots := by
      funext q
      simp only [State.slots, hk.proc]
    funext f
    rw [State.fileRefs, hslots, State.fileRefs]
  exact ⟨by rwa [hbase], fun f => by rw [hk.file, hrefs]; exact h.file f, fun f => by
    rw [hk.file]
    exact h.idle f⟩

theorem Keeps.does (h : Keeps F P s s₁) (p : Fin nproc) : Does p P s s₁ :=
  ⟨h.sb, fun _ _ => by rw [h.proc], by rw [h.proc], h.disk⟩

theorem Does.refl (p : Fin nproc) (s : State) : Does p Eq s s :=
  ⟨rfl, fun _ _ => rfl, rfl, fun h => ⟨h, rfl⟩⟩

theorem Does.imp (h : Does p P s s₁) (hP : P s.nodes s₁.nodes → Q s.nodes s₁.nodes) :
    Does p Q s s₁ :=
  ⟨h.sb, h.others, h.state, fun hd => (h.disk hd).imp_right hP⟩

theorem Does.trans {R : Nodes → Nodes → Prop} (h : Does p P s s₁) (h' : Does p Q s₁ s₂)
    (hR : P s.nodes s₁.nodes → Q s₁.nodes s₂.nodes → R s.nodes s₂.nodes) : Does p R s s₂ where
  sb := h'.sb.trans h.sb
  others q hq := (h'.others q hq).trans (h.others q hq)
  state := h'.state.trans h.state
  disk hd := by
    obtain ⟨hd1, hp⟩ := h.disk hd
    obtain ⟨hd2, hq⟩ := h'.disk hd1
    exact ⟨hd2, hR hp hq⟩

theorem Does.eq_comp (h : Does p Eq s s₁) (h' : Does p P s₁ s₂) : Does p P s s₂ :=
  h.trans h' fun he hp => he ▸ hp

/-- Nodes without links may be freed. -/
abbrev Drops (p : Fin nproc) (s s' : State) : Prop := Does p (Reaps ∅) s s'

theorem Does.drops (h : Does p Eq s s₁) : Drops p s s₁ := h.imp .of_eq

theorem Frees.drops (h : Frees F s s₁) (p : Fin nproc) : Drops p s s₁ :=
  (Keeps.does h p).imp fun hr => hr.mono (Set.empty_subset _)

theorem Drops.trans (h : Drops p s s₁) (h' : Drops p s₁ s₂) : Drops p s s₂ :=
  Does.trans h h' Reaps.trans

theorem Does.withFile (p : Fin nproc) (f : Fin nfile) (x : File) : Does p Eq s (s.withFile f x) :=
  ⟨rfl, fun _ _ => rfl, rfl, fun h => ⟨⟨h.own, h.covers, h.cached, h.unique⟩, rfl⟩⟩

variable {x : Proc}

theorem Does.withProc (h : x.state = (s.proc p).state) :
    Does p Eq s (s.withProc p x) :=
  ⟨rfl, fun _ hq => withProc_of_ne x hq, by rw [withProc_self, h],
    fun h => ⟨⟨h.own, h.covers, h.cached, h.unique⟩, rfl⟩⟩

/-- A file is replaced by one that is open on the same inodes, up to `X`. -/
theorem Refs.withFile (h : Refs X Y L s) {f : Fin nfile} {x : File}
    (hX : ∀ a, X a + (File.refers a (s.file f)).toNat = X' a + (File.refers a x).toNat)
    (hY : ∀ g, g ≠ f → Y' g = Y g) (hx : x.ref = (s.file f).ref + Y' f - Y f)
    (hidle : x.ref = 0 → x.kind ≠ .inode) : Refs X' Y' L (s.withFile f x) where
  held := by
    have hG : (s.withFile f x).base + X' = s.base + X := by
      funext a
      rw [Pi.add_apply, Pi.add_apply, base_withFile]
      have := hX a
      omega
    rw [hG]
    exact h.held.congr rfl
  file g := by
    show ((s.withFile f x).file g).ref = s.fileRefs g + Y' g
    by_cases hg : g = f
    · subst hg
      rw [withFile_self, hx, h.file]
      omega
    · rw [withFile_of_ne x hg, hY g hg]
      exact h.file g
  idle g := by
    by_cases hg : g = f
    · subst hg
      rw [withFile_self]
      exact hidle
    · rw [withFile_of_ne x hg]
      exact h.idle g

theorem Refs.withCwd (h : Refs X Y L s) (hof : x.ofile = (s.proc p).ofile)
    (hX : ∀ a, X a + (Proc.stands a (s.proc p)).toNat = X' a + (Proc.stands a x).toNat) :
    Refs X' Y L (s.withProc p x) where
  held := by
    have hG : (s.withProc p x).base + X' = s.base + X := by
      funext a
      rw [Pi.add_apply, Pi.add_apply, base_withProc]
      have := hX a
      omega
    rw [hG]
    exact h.held.congr rfl
  file f := by
    show (s.file f).ref = _
    rw [State.fileRefs, slots_withProc_of_eq hof]
    exact h.file f
  idle := h.idle

theorem Refs.withOfile (h : Refs X Y L s) {fd : Fin nofile} {o : Option (Fin nfile)}
    (hof : x.ofile = update (s.proc p).ofile fd o) (hcwd : x.cwd = (s.proc p).cwd)
    (hY : ∀ f, Y f + (decide ((s.proc p).ofile fd = some f)).toNat
      = Y' f + (decide (o = some f)).toNat) :
    Refs X Y' L (s.withProc p x) where
  held := by
    have hG : (s.withProc p x).base + X = s.base + X := by
      funext a
      rw [Pi.add_apply, Pi.add_apply, base_withProc]
      simp only [Proc.stands, hcwd]
      omega
    rw [hG]
    exact h.held.congr rfl
  file f := by
    show (s.file f).ref = _
    have ht := tally_update (fun o => (decide (o = some f)).toNat) s.slots (p, fd) o
    have hYf : Y f + (decide (s.slots (p, fd) = some f)).toNat
        = Y' f + (decide (o = some f)).toNat := hY f
    rw [h.file f, State.fileRefs, State.fileRefs, slots_withProc hof]
    omega
  idle := h.idle

end Books

end Xv6Mmap.Fs
