import Mathlib.Logic.Function.Basic
import Xv6Mmap.Lib.Crash
import Xv6Mmap.Mmu

/-!
# The redo log (`log.c`)

A block is its 128 words; the header block has `n` in word `0` and `block[i]` in word `i + 1`, and
`write_head` leaves the words it does not write as they were. A log operation is the list of its
`bwrite`s. `bread` of a log or header block yields what is on disk, since every write to those goes
through to the disk at once; `bread` of a home block in `write_log` yields the buffer cache, where
`log_write` pinned it.

**`commit_crash_atomic`**: wherever a crash stops `commit`, and however often the recovery is
interrupted, the blocks outside the log end up all old or all new, and the header is cleared.

The proof follows the disk through three phases: `Before` (header empty, home blocks old),
`Committed` (header and log blocks written, home blocks old or new), `After` (header empty, home
blocks new). Every write keeps a phase or moves to the next, and recovery ends in the first or the
last.
-/

namespace Xv6Mmap

open Lib
open Function (update update_self update_of_ne)

/-- A disk block, by word. -/
abbrev Block := Nat → Word

/-- The disk, by block number. -/
abbrev Disk := Nat → Block

/-- `LOGSIZE`: the length of the `block` array of a header. -/
def logsize : Nat := 30

/-- `struct logheader`. -/
structure LogHeader where
  n : Nat
  block : Nat → Word

/-- Where the log is: block `start` is the header, and `size` blocks are reserved in all. -/
structure Log where
  start : Nat
  size : Nat

/-- `install_trans()`: copy each log block to its home. -/
def installTrans (log : Log) (lh : LogHeader) : List (Disk → Disk) :=
  (List.range lh.n).map fun tail d =>
    update d (lh.block tail).toNat (d (log.start + tail + 1))

/-- `read_head()`; the loop of an `int` `n` below zero does nothing. -/
def readHead (log : Log) (d : Disk) : LogHeader where
  n := (d log.start 0).toInt.toNat
  block i := d log.start (i + 1)

/-- The header block `write_head` writes over `b`. -/
def encodeHead (lh : LogHeader) (b : Block) : Block := fun w =>
  if w = 0 then BitVec.ofNat 32 lh.n else if w ≤ lh.n then lh.block (w - 1) else b w

/-- `write_head()`. -/
def writeHead (log : Log) (lh : LogHeader) : List (Disk → Disk) :=
  [fun d => update d log.start (encodeHead lh (d log.start))]

/-- `recover_from_log()`, on the disk it reads the header from. -/
def recoverFromLog (log : Log) (d : Disk) : List (Disk → Disk) :=
  installTrans log (readHead log d) ++ writeHead log { readHead log d with n := 0 }

/-- `write_log()`: copy the cached blocks to the log. -/
def writeLog (log : Log) (lh : LogHeader) (cache : Disk) : List (Disk → Disk) :=
  (List.range lh.n).map fun tail d =>
    update d (log.start + tail + 1) (cache (lh.block tail).toNat)

/-- `commit()`. -/
def commit (log : Log) (lh : LogHeader) (cache : Disk) : List (Disk → Disk) :=
  if 0 < lh.n then
    writeLog log lh cache ++ writeHead log lh ++ installTrans log lh ++
      writeHead log { lh with n := 0 }
  else []

/-! ## The phases of a commit -/

/-- The block is outside the log. -/
def Log.Outside (log : Log) (b : Nat) : Prop := b < log.start ∨ log.start + log.size ≤ b

/-- The block numbers of the header fit its array and the log, and are all outside the log. -/
structure LogHeader.Fits (lh : LogHeader) (log : Log) : Prop where
  n_le : lh.n ≤ logsize
  n_lt : lh.n < log.size
  outside : ∀ t < lh.n, log.Outside (lh.block t).toNat

/-- The contents after the transaction: the cached blocks in the header, the rest as before. -/
def LogHeader.result (lh : LogHeader) (cache d₀ : Disk) (b : Nat) : Block :=
  if ∃ t < lh.n, (lh.block t).toNat = b then cache b else d₀ b

section Phases

variable (log : Log) (lh : LogHeader) (cache d₀ : Disk)

/-- The header is empty and every block outside the log is as in `d₁`. -/
structure Settled (d₁ d : Disk) : Prop where
  header : d log.start 0 = 0#32
  home : ∀ b, log.Outside b → d b = d₁ b

/-- Header and log hold the transaction, and each home block is old or new. -/
structure Committed (d : Disk) : Prop where
  n_eq : d log.start 0 = BitVec.ofNat 32 lh.n
  block_eq : ∀ t < lh.n, d log.start (t + 1) = lh.block t
  copy : ∀ t < lh.n, d (log.start + t + 1) = cache (lh.block t).toNat
  home : ∀ b, log.Outside b → d b = d₀ b ∨ d b = lh.result cache d₀ b

/-- The disk at a crash point: nothing done, committed, or all done. -/
def Phase (d : Disk) : Prop :=
  Settled log d₀ d ∨ Committed log lh cache d₀ d ∨ Settled log (lh.result cache d₀) d

end Phases

variable {log : Log} {lh : LogHeader} {cache d₀ d d' : Disk}

variable {t : Nat}

theorem LogHeader.result_block (ht : t < lh.n) :
    lh.result cache d₀ (lh.block t).toNat = cache (lh.block t).toNat :=
  if_pos ⟨t, ht, rfl⟩

theorem LogHeader.Fits.ne_start (h : lh.Fits log) (ht : t < lh.n) :
    (lh.block t).toNat ≠ log.start := by
  have := h.outside t ht
  have := h.n_lt
  unfold Log.Outside at *
  omega

theorem LogHeader.Fits.ne_copy (h : lh.Fits log) {s : Nat} (ht : t < lh.n) (hs : s < lh.n) :
    (lh.block t).toNat ≠ log.start + s + 1 := by
  have := h.outside t ht
  have := h.n_lt
  unfold Log.Outside at *
  omega

variable {d1 : Disk}

theorem readHead_n_of_settled (h : Settled log d1 d) : (readHead log d).n = 0 := by
  unfold readHead
  rw [h.header]
  rfl

theorem readHead_n_of_committed (hfit : lh.Fits log) (h : Committed log lh cache d₀ d) :
    (readHead log d).n = lh.n := by
  have hn := hfit.n_le
  unfold logsize at hn
  unfold readHead
  rw [h.n_eq, BitVec.toInt_eq_toNat_cond, BitVec.toNat_ofNat]
  dsimp only
  split <;> omega

/-! ## One write at a time -/

/-- Copying a log block into the log region leaves the rest. -/
theorem Settled.writeLog_step (hfit : lh.Fits log) (h : Settled log d1 d) (ht : t < lh.n)
    (b : Block) : Settled log d1 (update d (log.start + t + 1) b) where
  header := by
    rw [update_of_ne (by omega)]
    exact h.header
  home x hx := by
    have := hfit.n_lt
    rw [update_of_ne (by unfold Log.Outside at hx; omega)]
    exact h.home x hx

/-- Installing one block keeps the disk committed and makes that block new. -/
theorem Committed.install_step (hfit : lh.Fits log) (h : Committed log lh cache d₀ d)
    (ht : t < lh.n) :
    Committed log lh cache d₀
      (update d (lh.block t).toNat (d (log.start + t + 1))) where
  n_eq := by
    rw [update_of_ne (hfit.ne_start ht).symm]
    exact h.n_eq
  block_eq s hs := by
    rw [update_of_ne (hfit.ne_start ht).symm]
    exact h.block_eq s hs
  copy s hs := by
    rw [update_of_ne (hfit.ne_copy ht hs).symm]
    exact h.copy s hs
  home b hb := by
    by_cases hbt : b = (lh.block t).toNat
    · right
      rw [hbt, update_self, h.copy t ht, LogHeader.result_block ht]
    · rw [update_of_ne hbt]
      exact h.home b hb

/-- Clearing the header of a disk whose home blocks are those of `d₁`. -/
theorem settled_of_clear (hpos : 0 < log.size) (hhome : ∀ b, log.Outside b → d b = d1 b)
    (hn : lh.n = 0) : Settled log d1 (exec (writeHead log lh) d) where
  header := by
    change update d log.start (encodeHead lh (d log.start)) log.start 0 = _
    rw [update_self, encodeHead, if_pos rfl, hn]
  home b hb := by
    change update d log.start (encodeHead lh (d log.start)) b = _
    rw [update_of_ne (by unfold Log.Outside at hb; omega)]
    exact hhome b hb

theorem committed_of_writeHead (hfit : lh.Fits log) (h : Settled log d₀ d)
    (hcopy : ∀ t < lh.n, d (log.start + t + 1) = cache (lh.block t).toNat) :
    Committed log lh cache d₀ (exec (writeHead log lh) d) where
  n_eq := by
    change update d log.start (encodeHead lh (d log.start)) log.start 0 = _
    rw [update_self, encodeHead, if_pos rfl]
  block_eq t ht := by
    change update d log.start (encodeHead lh (d log.start)) log.start (t + 1) = _
    rw [update_self, encodeHead, if_neg (by omega), if_pos (by omega), Nat.add_sub_cancel]
  copy t ht := by
    change update d log.start (encodeHead lh (d log.start)) (log.start + t + 1) = _
    rw [update_of_ne (by omega)]
    exact hcopy t ht
  home b hb := by
    left
    change update d log.start (encodeHead lh (d log.start)) b = _
    have := hfit.n_lt
    rw [update_of_ne (by unfold Log.Outside at hb; omega)]
    exact h.home b hb

/-! ## The loops -/

/-- Committed, with the first `t` home blocks new. -/
def Installed (log : Log) (lh : LogHeader) (cache d₀ : Disk) (t : Nat) (d : Disk) : Prop :=
  Committed log lh cache d₀ d ∧ ∀ s < t, d (lh.block s).toNat = cache (lh.block s).toNat

theorem Installed.turn (hfit : lh.Fits log) (ht : t < lh.n) (h : Installed log lh cache d₀ t d) :
    Installed log lh cache d₀ (t + 1)
      (update d (lh.block t).toNat (d (log.start + t + 1))) := by
  refine ⟨h.1.install_step hfit ht, fun s hs => ?_⟩
  by_cases heq : (lh.block s).toNat = (lh.block t).toNat
  · rw [heq, update_self, h.1.copy t ht]
  · rw [update_of_ne heq]
    refine h.2 s (Nat.lt_of_le_of_ne (by omega) ?_)
    rintro rfl
    exact heq rfl

theorem Committed.installed (h : Committed log lh cache d₀ d) : Installed log lh cache d₀ 0 d :=
  ⟨h, fun _ hs => absurd hs (Nat.not_lt_zero _)⟩

theorem Committed.of_crash_install (hfit : lh.Fits log) (h : Committed log lh cache d₀ d)
    (hc : CrashesTo (installTrans log lh) d d') : Committed log lh cache d₀ d' := by
  obtain ⟨t, -, hd', -⟩ := crash_loop (I := Installed log lh cache d₀)
    (fun t ht d => Installed.turn hfit ht) h.installed hc
  exact hd'

theorem Committed.install (hfit : lh.Fits log) (h : Committed log lh cache d₀ d) :
    Installed log lh cache d₀ lh.n (exec (installTrans log lh) d) :=
  exec_loop (fun _ ht _ => Installed.turn hfit ht) h.installed lh.n le_rfl

theorem Committed.home_installed (hfit : lh.Fits log) (h : Committed log lh cache d₀ d) {b : Nat}
    (hb : log.Outside b) : exec (installTrans log lh) d b = lh.result cache d₀ b := by
  obtain ⟨hcom, hnew⟩ := h.install hfit
  rcases hcom.home b hb with hold | hres
  · by_cases hin : ∃ t < lh.n, (lh.block t).toNat = b
    · obtain ⟨t, ht, rfl⟩ := hin
      rw [LogHeader.result_block ht]
      exact hnew t ht
    · rw [LogHeader.result, if_neg hin]
      exact hold
  · exact hres

theorem installTrans_congr {lh' : LogHeader} (hn : lh'.n = lh.n)
    (hblock : ∀ t < lh.n, lh'.block t = lh.block t) :
    installTrans log lh' = installTrans log lh := by
  unfold installTrans
  rw [hn]
  refine List.map_congr_left fun t ht => ?_
  rw [hblock t (List.mem_range.mp ht)]

/-- Recovery of a committed disk installs the transaction of the header it reads. -/
theorem installTrans_of_committed (hfit : lh.Fits log) (h : Committed log lh cache d₀ d) :
    installTrans log (readHead log d) = installTrans log lh :=
  installTrans_congr (readHead_n_of_committed hfit h) h.block_eq

theorem installTrans_of_settled (h : Settled log d1 d) :
    installTrans log (readHead log d) = [] := by
  unfold installTrans
  rw [readHead_n_of_settled h]
  rfl

/-! ## Recovery -/

/-- Recovery of a settled disk changes nothing outside the log, complete or not. -/
theorem Settled.recover (hpos : 0 < log.size) (h : Settled log d1 d) :
    Settled log d1 (exec (recoverFromLog log d) d) ∧
      ∀ d', CrashesTo (recoverFromLog log d) d d' → Settled log d1 d' := by
  unfold recoverFromLog
  rw [installTrans_of_settled h, List.nil_append]
  have hdone : Settled log d1 (exec (writeHead log { readHead log d with n := 0 }) d) :=
    settled_of_clear hpos h.home rfl
  refine ⟨hdone, fun d' hc => ?_⟩
  rcases hc.single with rfl | rfl
  · exact h
  · exact hdone

/-- Recovery of a committed disk finishes the transaction, and an interrupted one leaves the disk
committed or finished. -/
theorem Committed.recover (hfit : lh.Fits log) (h : Committed log lh cache d₀ d) :
    Settled log (lh.result cache d₀) (exec (recoverFromLog log d) d) ∧
      ∀ d', CrashesTo (recoverFromLog log d) d d' →
        Committed log lh cache d₀ d' ∨ Settled log (lh.result cache d₀) d' := by
  unfold recoverFromLog
  rw [installTrans_of_committed hfit h, exec_append]
  have hdone : Settled log (lh.result cache d₀)
      (exec (writeHead log { readHead log d with n := 0 }) (exec (installTrans log lh) d)) :=
    settled_of_clear (Nat.zero_lt_of_lt hfit.n_lt) (fun b hb => h.home_installed hfit hb) rfl
  refine ⟨hdone, fun d' hc => ?_⟩
  rcases hc.append with hc | hc
  · exact .inl (h.of_crash_install hfit hc)
  · rcases hc.single with rfl | rfl
    · exact .inl (h.install hfit).1
    · exact .inr hdone

/-- Interrupted recoveries stay within the phases, and a complete one ends settled. -/
theorem Phase.recovers (hfit : lh.Fits log) (h : Phase log lh cache d₀ d)
    (hr : Recovers (recoverFromLog log) d d') :
    Settled log d₀ d' ∨ Settled log (lh.result cache d₀) d' := by
  have hpos : 0 < log.size := Nat.zero_lt_of_lt hfit.n_lt
  refine recovers_rule (I := Phase log lh cache d₀)
    (Q := fun d => Settled log d₀ d ∨ Settled log (lh.result cache d₀) d) ?_ ?_ h hr
  · rintro d d1 (hs | hc | hs) hcrash
    · exact .inl ((hs.recover hpos).2 d1 hcrash)
    · exact .inr ((hc.recover hfit).2 d1 hcrash)
    · exact .inr (.inr ((hs.recover hpos).2 d1 hcrash))
  · rintro d (hs | hc | hs)
    · exact .inl (hs.recover hpos).1
    · exact .inr (hc.recover hfit).1
    · exact .inr (hs.recover hpos).1

/-! ## The commit -/

/-- Settled, with the first `t` blocks copied to the log. -/
def Logged (log : Log) (lh : LogHeader) (cache d₀ : Disk) (t : Nat) (d : Disk) : Prop :=
  Settled log d₀ d ∧ ∀ s < t, d (log.start + s + 1) = cache (lh.block s).toNat

theorem Logged.turn (hfit : lh.Fits log) (ht : t < lh.n) (h : Logged log lh cache d₀ t d) :
    Logged log lh cache d₀ (t + 1)
      (update d (log.start + t + 1) (cache (lh.block t).toNat)) := by
  refine ⟨h.1.writeLog_step hfit ht _, fun s hs => ?_⟩
  rcases Nat.lt_succ_iff_lt_or_eq.mp hs with hlt | rfl
  · rw [update_of_ne (by omega)]
    exact h.2 s hlt
  · rw [update_self]

/-- Wherever a crash stops `commit`, the disk is in one of the phases. -/
theorem phase_of_crash_commit (hfit : lh.Fits log) (h0 : d₀ log.start 0 = 0#32)
    (hc : CrashesTo (commit log lh cache) d₀ d) : Phase log lh cache d₀ d := by
  have hstart : Logged log lh cache d₀ 0 d₀ :=
    ⟨⟨h0, fun _ _ => rfl⟩, fun _ hs => absurd hs (Nat.not_lt_zero _)⟩
  unfold commit at hc
  split at hc
  · -- what each part leaves when it completes
    have hlogged : Logged log lh cache d₀ lh.n (exec (writeLog log lh cache) d₀) :=
      exec_loop (fun _ ht _ => Logged.turn hfit ht) hstart lh.n le_rfl
    have hcom := committed_of_writeHead hfit hlogged.1 hlogged.2
    rcases hc.append with hc | hc
    · rcases hc.append with hc | hc
      · rcases hc.append with hc | hc
        · obtain ⟨t, -, hd, -⟩ := crash_loop (I := Logged log lh cache d₀)
            (fun _ ht _ => Logged.turn hfit ht) hstart hc
          exact .inl hd
        · rcases hc.single with rfl | rfl
          · exact .inl hlogged.1
          · exact .inr (.inl hcom)
      · rw [exec_append] at hc
        exact .inr (.inl (hcom.of_crash_install hfit hc))
    · rw [exec_append, exec_append] at hc
      rcases hc.single with rfl | rfl
      · exact .inr (.inl (hcom.install hfit).1)
      · exact .inr (.inr (settled_of_clear (Nat.zero_lt_of_lt hfit.n_lt)
          (fun b hb => hcom.home_installed hfit hb) rfl))
  · obtain ⟨n, rfl⟩ := hc
    exact .inl (by simpa [exec] using hstart.1)

/-- **A commit is atomic.** Wherever a crash stops `commit`, and however often the recovery after
it is interrupted, the blocks outside the log are in the end all as before or all as cached, and
the header on disk is empty. -/
theorem commit_crash_atomic (log : Log) (lh : LogHeader) (cache d₀ d₁ d₂ : Disk)
    (hfit : lh.Fits log) (h0 : d₀ log.start 0 = 0#32)
    (hc : CrashesTo (commit log lh cache) d₀ d₁) (hr : Recovers (recoverFromLog log) d₁ d₂) :
    d₂ log.start 0 = 0#32 ∧
      ((∀ b, log.Outside b → d₂ b = d₀ b) ∨
        ∀ b, log.Outside b → d₂ b = lh.result cache d₀ b) := by
  rcases (phase_of_crash_commit hfit h0 hc).recovers hfit hr with h | h
  · exact ⟨h.header, .inl h.home⟩
  · exact ⟨h.header, .inr h.home⟩

/-- Two blocks, a crash right after the header is written, and a recovery that crashes after its
first block before it completes. -/
theorem commit_crash_atomic_two :
    ∃ d₁ d₂ d₃ : Disk,
      CrashesTo (commit ⟨2, 30⟩ ⟨2, fun i => BitVec.ofNat 32 (40 + i)⟩ fun _ _ => 7#32)
        (fun _ _ => 0#32) d₁ ∧
      CrashesTo (recoverFromLog ⟨2, 30⟩ d₁) d₁ d₂ ∧ d₂ 40 0 = 7#32 ∧ d₂ 41 0 = 0#32 ∧
      Recovers (recoverFromLog ⟨2, 30⟩) d₁ d₃ ∧ d₃ 2 0 = 0#32 := by
  refine ⟨_, _, _, ⟨3, rfl⟩, ⟨1, rfl⟩, by decide +kernel, by decide +kernel,
    .crash ⟨1, rfl⟩ (.done _), ?_⟩
  refine (commit_crash_atomic ⟨2, 30⟩ ⟨2, fun i => BitVec.ofNat 32 (40 + i)⟩ (fun _ _ => 7#32)
    (fun _ _ => 0#32) _ _ ⟨by decide, by decide, ?_⟩ rfl ⟨3, rfl⟩
    (.crash ⟨1, rfl⟩ (.done _))).1
  intro t ht
  right
  rw [BitVec.toNat_ofNat]
  dsimp only at ht ⊢
  omega

end Xv6Mmap
