import Xv6Mmap.FsCalls
import Xv6Mmap.FsFiles

/-!
# Runs of the file system calls

The system from `userinit` on: any processes make any calls, one after another.

* `references_accounted`: no reference to a file or an inode is lost or forgotten.
* `blocks_owned`: no block is lost or has two owners, and the cache is up to date. The bitmap must
  have the blocks below the first data block marked (`unmarked_block_given_out`).

Both follow from `step_served`. A call that would panic, or wait for what only another process can
do, is not part of a run.
-/

namespace Xv6Mmap.Fs

open Lib
open Function (update update_of_ne)

/-! ## From boot on -/

theorem nproc_pos : 0 < nproc := by decide

/-- The first process, `initproc`: `allocproc` takes the first slot. -/
def initproc : Fin nproc := ⟨0, nproc_pos⟩

/-- The state of `initproc` after `userinit`: in the root directory, with no open file. -/
def Proc.init : Proc := { Proc.unused with state := .runnable, cwd := some 0 }

/-- What `namei("/")` leaves in the first slot of the cache: the root directory, not read yet. -/
def Inode.root : Inode := { Inode.unused with inum := rootino, ref := 1 }

/-- The system after `userinit` (`proc.c:157-197`), with a disk. -/
def State.boot (sb : Superblock) (vol : Vol) (dinode : Nat → Dinode) : State where
  sb := sb
  vol := vol
  dinode := dinode
  inode := update (fun _ => .unused) 0 .root
  file := fun _ => .unused
  proc := update (fun _ => .unused) initproc .init

section Boot

variable {sb : Superblock} {vol : Vol} {dinode : Nat → Dinode}

theorem boot_inode_of_ne {a : Fin ninode} (ha : a ≠ 0) :
    (State.boot sb vol dinode).inode a = .unused := by
  unfold State.boot
  dsimp only
  rw [update_of_ne ha]

theorem boot_proc_of_ne {q : Fin nproc} (hq : q ≠ initproc) :
    (State.boot sb vol dinode).proc q = .unused := by
  unfold State.boot
  dsimp only
  rw [update_of_ne hq]

theorem boot_base (a : Fin ninode) : (State.boot sb vol dinode).base a = one 0 a := by
  have hfiles : tally (fun x => (File.refers a x).toNat) (State.boot sb vol dinode).file = 0 :=
    tally_eq_zero.mpr fun _ => rfl
  have hnone : tally (fun x => (Proc.stands a x).toNat) (fun _ : Fin nproc => Proc.unused) = 0 :=
    tally_eq_zero.mpr fun _ => rfl
  have hprocs : tally (fun x => (Proc.stands a x).toNat) (State.boot sb vol dinode).proc
      + (Proc.stands a .unused).toNat
      = tally (fun x => (Proc.stands a x).toNat) (fun _ : Fin nproc => Proc.unused)
        + (Proc.stands a .init).toNat :=
    tally_update _ _ initproc _
  have hself : ((Proc.stands a .init).toNat : Int) = one 0 a := toNat_stands rfl a
  have hidle : (Proc.stands a .unused).toNat = 0 := rfl
  unfold State.base
  rw [hfiles]
  omega

theorem boot_slots (q : Fin nproc × Fin nofile) : (State.boot sb vol dinode).slots q = none := by
  unfold State.slots
  by_cases hq : q.1 = initproc
  · rw [hq]
    rfl
  · rw [boot_proc_of_ne hq]
    rfl

theorem boot_accounted : Accounted (State.boot sb vol dinode) where
  refs := {
    held := {
      ref := fun b => by
        rw [Pi.add_apply, boot_base, Pi.zero_apply, Int.add_zero, one]
        by_cases hb : b = 0
        · rw [hb]
          rfl
        · rw [boot_inode_of_ne hb, if_neg hb]
          rfl
      nonneg := fun b => by
        rw [Pi.add_apply, boot_base, Pi.zero_apply, Int.add_zero]
        exact one_nonneg 0 b
      lock := fun b hb => nomatch hb }
    file := fun f => by
      have hrefs : (State.boot sb vol dinode).fileRefs f = 0 := by
        unfold State.fileRefs
        rw [tally_eq_zero.mpr fun q => by rw [boot_slots]; rfl]
        rfl
      rw [hrefs]
      rfl
    idle := fun f _ => nofun }
  cwd := fun q hq => by
    by_cases h0 : q = initproc
    · rw [h0] at hq
      cases hq
    · rw [boot_proc_of_ne h0]
      rfl
  ofile := fun q _ fd => boot_slots (q, fd)

theorem boot_disk (hown : Own sb vol dinode)
    (hcov : ∀ i, (dinode i).type ≠ none → Covers dinode vol.data i (dinode i).size) :
    Disk (State.boot sb vol dinode) := by
  have hone : ∀ a, 0 < ((State.boot sb vol dinode).inode a).ref → a = 0 := by
    intro a ha
    by_contra h0
    rw [boot_inode_of_ne h0] at ha
    exact absurd ha (by decide)
  refine ⟨hown, hcov, fun a ha hv => ?_, fun a b ha hb _ => (hone a ha).trans (hone b hb).symm⟩
  rw [hone a ha] at hv
  cases hv

end Boot

/-! ## An empty disk -/

theorem small_lt : 1000 < 2 ^ 32 := by decide

theorem small_nblocks_lt : 941 < 1000 := by decide

/-- The superblock of a disk of 1000 blocks, as `mkfs` makes it. -/
def smallSb : Superblock := ⟨1000, 941, 200, small_lt, small_nblocks_lt⟩

/-- A disk on which block 59 is taken, for the entries `.` and `..` of the root directory. -/
def emptyVol : Vol where
  bit b := decide (b < 60)
  data b k := if b = 59 then (dirent rootino dot ++ dirent rootino dotdot).getD k 0#8 else 0#8

/-- The inode of an empty root directory. -/
def Dinode.emptyRoot : Dinode :=
  { Dinode.zero with
    type := some .dir, nlink := 1, size := bsize, addrs := update (fun _ => 0) 0 59 }

/-- Only the root directory is in use. -/
def emptyDinode : Nat → Dinode := update (fun _ => .zero) rootino .emptyRoot

theorem emptyDinode_of_ne {i : Nat} (hi : i ≠ rootino) : emptyDinode i = .zero := by
  unfold emptyDinode
  rw [update_of_ne hi]

theorem emptyRoot_ptr (data : Nat → Sector) (k : Option Nat) :
    Dinode.emptyRoot.ptr data k = if k = some 0 then 59 else 0 := by
  unfold Dinode.ptr Dinode.emptyRoot
  cases k with
  | none => rfl
  | some bn =>
    by_cases h0 : bn = 0
    · rw [h0]
      rfl
    · have hind : update (fun _ => 0) 0 59 ndirect = 0 := rfl
      have hne : (some bn : Option Nat) ≠ some 0 := fun h => h0 (Option.some.inj h)
      simp [h0, hind]

theorem empty_ptrs (k : Nat × Option Nat) :
    ptrs emptyDinode emptyVol.data k = if k = (rootino, some 0) then 59 else 0 := by
  obtain ⟨i, k⟩ := k
  by_cases hi : i = rootino
  · subst hi
    rw [ptrs_of_used (d := .emptyRoot) rfl nofun, emptyRoot_ptr]
    simp
  · rw [if_neg fun h => hi (congrArg Prod.fst h), ptrs, emptyDinode_of_ne hi]
    rfl

theorem empty_own : Own smallSb emptyVol emptyDinode where
  range := fun k hk => by
    rw [empty_ptrs] at hk ⊢
    split at hk
    · rename_i h
      rw [if_pos h]
      decide
    · exact absurd rfl hk
  inj := fun k l hk hkl => by
    have hroot : ∀ m, ptrs emptyDinode emptyVol.data m ≠ 0 → m = (rootino, some 0) := by
      intro m hm
      by_contra hne
      rw [empty_ptrs, if_neg hne] at hm
      exact hm rfl
    exact (hroot k hk).trans (hroot l (hkl ▸ hk)).symm
  bits := fun b hlo _ => by
    have hlo : 59 ≤ b := hlo
    change decide (b < 60) = true ↔ _
    rw [decide_eq_true_iff]
    constructor
    · intro hb
      exact ⟨(rootino, some 0), by rw [empty_ptrs, if_pos rfl]; omega⟩
    · rintro ⟨k, hk⟩
      rw [empty_ptrs] at hk
      split at hk <;> omega
  below := fun b hb => by
    have hb : b < 59 := hb
    exact decide_eq_true (by omega)

theorem empty_covers (i : Nat) (hi : (emptyDinode i).type ≠ none) :
    Covers emptyDinode emptyVol.data i (emptyDinode i).size := by
  have hroot : i = rootino := by
    by_contra h
    rw [emptyDinode_of_ne h] at hi
    exact hi rfl
  intro bn
  have hsize : (emptyDinode i).size = bsize := by
    rw [hroot]
    rfl
  rw [empty_ptrs, hsize, hroot]
  by_cases h0 : bn = 0
  · rw [h0]
    exact iff_of_true (by decide) (by decide)
  · have hle : bsize ≤ bn * bsize := Nat.le_mul_of_pos_left _ (Nat.pos_of_ne_zero h0)
    simp only [Prod.mk.injEq, Option.some.injEq, h0, and_false, if_false]
    omega

theorem run_accounted {s s' : State} {as : List (Fin nproc × Call)} (h : Accounted s)
    (hr : run step s as = .ok s') : Accounted s' :=
  run_invariant_of_step Accounted (fun _ _ _ hs hstep => (step_served hs hstep).accounted) h hr

theorem run_disk {s s' : State} {as : List (Fin nproc × Call)} (h : Accounted s) (hd : Disk s)
    (hr : run step s as = .ok s') : Disk s' :=
  (run_invariant_of_step (fun s => Accounted s ∧ Disk s) (fun _ _ _ hs hstep =>
    ⟨(step_served hs.1 hstep).accounted, ((step_served hs.1 hstep).disk hs.2).1⟩) ⟨h, hd⟩ hr).2

/-! ## Who refers to files and inodes -/

/-- **Every reference is accounted for**: after every system call of a run, whether it succeeded or
not, a file has one reference for each descriptor that holds it, and an inode in the cache one for
each file open on it and each process that is in it. -/
theorem references_accounted (sb : Superblock) (vol : Vol) (dinode : Nat → Dinode)
    (as : List (Fin nproc × Call)) (s : State)
    (hr : run step (State.boot sb vol dinode) as = .ok s) :
    (∀ f, (s.file f).ref = ((Finset.univ.filter fun q : Fin nproc × Fin nofile =>
        (s.proc q.1).ofile q.2 = some f).card : Int)) ∧
      ∀ a, (s.inode a).ref
        = ((Finset.univ.filter fun f : Fin nfile =>
            0 < (s.file f).ref ∧ (s.file f).kind = .inode ∧ (s.file f).ip = a).card : Int)
          + ((Finset.univ.filter fun q : Fin nproc =>
            (s.proc q).live = true ∧ (s.proc q).cwd = some a).card : Int) := by
  have h := run_accounted boot_accounted hr
  have hfile : ∀ f, (s.file f).ref = ((Finset.univ.filter fun q : Fin nproc × Fin nofile =>
      (s.proc q.1).ofile q.2 = some f).card : Int) := by
    intro f
    rw [h.refs.file f, Pi.zero_apply, Int.add_zero, State.fileRefs,
      tally_eq_card (fun o => decide (o = some f))]
    refine congrArg _ (congrArg _ (Finset.filter_congr fun q _ => ?_))
    exact decide_eq_true_iff
  refine ⟨hfile, fun a => ?_⟩
  rw [h.refs.balanced.ref a, State.base, tally_eq_card, tally_eq_card]
  congr 3
  · refine Finset.filter_congr fun f _ => ?_
    rw [File.refers, decide_eq_true_eq]
    refine ⟨fun hf => ⟨?_, hf⟩, fun hf => hf.2⟩
    -- a file in use has a reference
    have hne : (s.file f).ref ≠ 0 := fun h0 => h.refs.idle f h0 hf.1
    have hnonneg : 0 ≤ (s.file f).ref := by
      rw [hfile]
      exact Int.natCast_nonneg _
    omega
  · refine Finset.filter_congr fun q _ => ?_
    rw [Proc.stands, decide_eq_true_eq]
    refine ⟨fun hq => ⟨?_, hq⟩, fun hq => hq.2⟩
    by_contra hlive
    rw [h.cwd q (by simpa using hlive)] at hq
    cases hq

theorem references_accounted_shared :
    ∃ s, run step (State.boot smallSb emptyVol emptyDinode)
        [(initproc, .open (some [slash]) 0#32), (initproc, .dup 0#32), (initproc, .fork true)]
        = .ok s ∧
      (∀ f, (s.file f).ref = ((Finset.univ.filter fun q : Fin nproc × Fin nofile =>
        (s.proc q.1).ofile q.2 = some f).card : Int)) ∧
      ∀ a, (s.inode a).ref
        = ((Finset.univ.filter fun f : Fin nfile =>
            0 < (s.file f).ref ∧ (s.file f).kind = .inode ∧ (s.file f).ip = a).card : Int)
          + ((Finset.univ.filter fun q : Fin nproc =>
            (s.proc q).live = true ∧ (s.proc q).cwd = some a).card : Int) := by
  obtain ⟨s, hr, _⟩ := run_ok_of_eval step (State.boot smallSb emptyVol emptyDinode)
    [(initproc, .open (some [slash]) 0#32), (initproc, .dup 0#32), (initproc, .fork true)]
    (fun s => decide ((s.file file0).ref = 4)) (by decide +kernel)
  exact ⟨s, hr, references_accounted _ _ _ _ s hr⟩

/-! ## The blocks -/

/-- **Every block has one owner**: from a disk on which the block pointers and the bitmap agree, and
every inode has the blocks of its size, every run leads to such a disk, and the inodes in the cache
are those on disk. `Own` asks for the blocks below the first data block to be marked as well. -/
theorem blocks_owned (sb : Superblock) (vol : Vol) (dinode : Nat → Dinode)
    (hown : Own sb vol dinode)
    (hcov : ∀ i, (dinode i).type ≠ none → Covers dinode vol.data i (dinode i).size)
    (as : List (Fin nproc × Call)) (s : State)
    (hr : run step (State.boot sb vol dinode) as = .ok s) :
    Own s.sb s.vol s.dinode ∧
      (∀ i, (s.dinode i).type ≠ none → Covers s.dinode s.vol.data i (s.dinode i).size) ∧
      ∀ a, 0 < (s.inode a).ref → (s.inode a).valid = true →
        (s.inode a).copy = s.dinode (s.inode a).inum := by
  have h := run_disk boot_accounted (boot_disk hown hcov) hr
  exact ⟨h.own, h.covers, fun a ha hv => (h.cached a ha hv).1⟩

theorem blocks_owned_write :
    ∃ s, run step (State.boot smallSb emptyVol emptyDinode)
        [(initproc, .open (some [97#8]) 0x201#32),
          (initproc, .write 0#32 (some (List.replicate 20 1#8)) ⟨0, []⟩),
          (initproc, .unlink (some [97#8])), (initproc, .close 0#32)] = .ok s ∧
      Own s.sb s.vol s.dinode ∧
      (∀ i, (s.dinode i).type ≠ none → Covers s.dinode s.vol.data i (s.dinode i).size) ∧
      ∀ a, 0 < (s.inode a).ref → (s.inode a).valid = true →
        (s.inode a).copy = s.dinode (s.inode a).inum := by
  obtain ⟨s, hr, _⟩ := run_ok_of_eval step (State.boot smallSb emptyVol emptyDinode)
    [(initproc, .open (some [97#8]) 0x201#32),
      (initproc, .write 0#32 (some (List.replicate 20 1#8)) ⟨0, []⟩),
      (initproc, .unlink (some [97#8])), (initproc, .close 0#32)]
    (fun s => decide ((s.dinode 2).type = none)) (by decide +kernel)
  exact ⟨s, hr, blocks_owned _ _ _ empty_own empty_covers _ s hr⟩

/-- The empty disk with a bitmap that misses block 5, a block of the log. -/
def unmarkedVol : Vol := { emptyVol with bit := update emptyVol.bit 5 false }

/-- The pointers and the data blocks of this disk agree, and every inode has the blocks of its size.
`balloc` scans from block 0 on, so the first block of a new file is block 5. -/
theorem unmarked_block_given_out :
    (∀ k, ptrs emptyDinode unmarkedVol.data k ≠ 0 →
      smallSb.first ≤ ptrs emptyDinode unmarkedVol.data k ∧
        ptrs emptyDinode unmarkedVol.data k < smallSb.size) ∧
      (∀ k l, ptrs emptyDinode unmarkedVol.data k ≠ 0 →
        ptrs emptyDinode unmarkedVol.data k = ptrs emptyDinode unmarkedVol.data l → k = l) ∧
      (∀ b, smallSb.first ≤ b → b < smallSb.size →
        (unmarkedVol.bit b = true ↔ ∃ k, ptrs emptyDinode unmarkedVol.data k = b)) ∧
      (∀ i, (emptyDinode i).type ≠ none →
        Covers emptyDinode unmarkedVol.data i (emptyDinode i).size) ∧
      ∃ s, run step (State.boot smallSb unmarkedVol emptyDinode)
          [(initproc, .open (some [97#8]) 0x201#32),
            (initproc, .write 0#32 (some [1#8]) ⟨0, []⟩)] = .ok s ∧
        ptrs s.dinode s.vol.data (2, some 0) = 5 ∧ 5 < s.sb.first := by
  refine ⟨empty_own.range, empty_own.inj, fun b hlo hhi => ?_, empty_covers, ?_⟩
  · have hb : b ≠ 5 := by
      rintro rfl
      exact absurd hlo (by decide)
    rw [show unmarkedVol.bit b = emptyVol.bit b from update_of_ne hb ..]
    exact empty_own.bits b hlo hhi
  · obtain ⟨s, hr, hq⟩ := run_ok_of_eval step (State.boot smallSb unmarkedVol emptyDinode)
      [(initproc, .open (some [97#8]) 0x201#32), (initproc, .write 0#32 (some [1#8]) ⟨0, []⟩)]
      (fun s => decide (ptrs s.dinode s.vol.data (2, some 0) = 5 ∧ 5 < s.sb.first))
      (by decide +kernel)
    exact ⟨s, hr, of_decide_eq_true hq⟩

end Xv6Mmap.Fs
