import Xv6Mmap.Kalloc
import Xv6Mmap.Lib.Run
import Xv6Mmap.Lib.Tally
import Xv6Mmap.Log

/-!
# Group commit (`log.c:124-233`)

The in-memory side of the log, as a system of processes that run `begin_op`, `log_write` and
`end_op` in any order. `LogState` is `struct log` and, for each process, where it is in its
operation. An action is what one process does between two points at which others can interfere:

* `beginOp`: one turn of the loop of `begin_op`, under `log.lock`. A turn that sleeps changes
  nothing, and is tried again after any wakeup.
* `logWrite`, `record`: `log_write` tests `n` and `outstanding` before it takes the lock, and
  records the block under the lock. Other processes can record blocks in between.
* `endOp`, `commit`, `endCommit`: `end_op` up to its `release`, the call of `commit()` that it makes
  without the lock, and the rest. What `commit()` writes to the disk is `commit` of `Log.lean`; here
  it sets `n` to zero.

An action out of turn, such as a `log_write` outside an operation, is not a step (`Halt.blocked`).
Writing past the end of `log.lh.block` is `Halt.badDeref`.

* `group_commit`: the invariants of the protocol in every state reached.
* `record_lt_logsize`: operations that keep to `MAXOPBLOCKS` do not overrun that array.
* `logFits_of_guarded_run`: the log region is one block smaller than the array, so `MAXOPBLOCKS` is
  one too many (`three_full_operations_panic`); with a block less the region is large enough.

Both rest on `Reserved`: the blocks recorded, and those that the operations in progress may still
add, stay within what `begin_op` has admitted.
-/

namespace Xv6Mmap

open Lib
open Function (update update_self update_of_ne update_eq_self_iff)

/-- `MAXOPBLOCKS`. -/
def maxOpBlocks : Nat := 10

/-- The log of the image `mkfs` makes: `logstart` is `2`, and `nlog`, header included, `LOGSIZE`. -/
def Log.mkfs : Log := ⟨2, logsize⟩

/-- Where a process is in a file system call. -/
inductive OpPc where
  | outside
  /-- Between `begin_op` and `end_op`. -/
  | inOp
  /-- In `log_write(b)`, before it takes the lock. -/
  | logging (b : Word)
  /-- In `end_op`, about to call `commit()`. -/
  | commits
  /-- In `end_op`, back from `commit()`. -/
  | committed
  deriving DecidableEq, Repr

/-- The process is between its `begin_op` and its `end_op`. -/
def OpPc.inProgress : OpPc → Bool
  | .inOp | .logging _ => true
  | _ => false

/-- The process has set `committing` and not cleared it. -/
def OpPc.inCommit : OpPc → Bool
  | .commits | .committed => true
  | _ => false

/-- A process, and as a ghost the blocks that its operation has logged. -/
structure OpProc where
  pc : OpPc
  wrote : Finset Word
  deriving DecidableEq

/-- `struct log`, the processes, and as a ghost the blocks recorded since the last `commit()`. -/
structure LogState (ι : Type) where
  log : Log
  outstanding : Int
  committing : Bool
  lh : LogHeader
  proc : ι → OpProc
  written : Finset Word

/-- After `initlog`. -/
def LogState.init (ι : Type) (log : Log) : LogState ι where
  log := log
  outstanding := 0
  committing := false
  lh := ⟨0, fun _ => 0#32⟩
  proc _ := ⟨.outside, ∅⟩
  written := ∅

/-- Where the loop of `log_write` stops: at the block if it is recorded, else behind the last. -/
def LogHeader.slot (lh : LogHeader) (b : Word) : Nat :=
  ((List.range lh.n).find? fun i => lh.block i == b).getD lh.n

/-- `log.lh.block[i] = b->blockno; if (i == log.lh.n) log.lh.n++`. -/
def LogHeader.record (lh : LogHeader) (b : Word) : LogHeader where
  n := if lh.slot b = lh.n then lh.n + 1 else lh.n
  block := update lh.block (lh.slot b) b

inductive LogAction (ι : Type) where
  | beginOp (i : ι)
  | logWrite (i : ι) (b : Word)
  | record (i : ι)
  | endOp (i : ι)
  | commit (i : ι)
  | endCommit (i : ι)

namespace LogState

variable {ι : Type} [DecidableEq ι]

/-- The process moves on inside its operation. -/
def goto (s : LogState ι) (i : ι) (pc : OpPc) : LogState ι :=
  { s with proc := update s.proc i { s.proc i with pc := pc } }

@[simp] theorem goto_outstanding (s : LogState ι) (i : ι) (pc : OpPc) :
    (s.goto i pc).outstanding = s.outstanding := rfl

@[simp] theorem goto_proc (s : LogState ι) (i : ι) (pc : OpPc) :
    (s.goto i pc).proc = update s.proc i { s.proc i with pc := pc } := rfl

/-- A turn of the loop of `begin_op()`. -/
def beginOp (s : LogState ι) (i : ι) : LogState ι :=
  if s.committing then s
  else if s.lh.n + (s.outstanding + 1) * maxOpBlocks > logsize then s
  else
    { s with
      outstanding := s.outstanding + 1
      proc := update s.proc i ⟨.inOp, ∅⟩ }

/-- `log_write(b)` up to its `acquire`. -/
def logWrite (s : LogState ι) (i : ι) (b : Word) : Except Halt (LogState ι) :=
  if s.lh.n ≥ logsize ∨ (s.lh.n : Int) ≥ s.log.size - 1 then .error (.panic "too big a transaction")
  else if s.outstanding < 1 then .error (.panic "log_write outside of trans")
  else .ok (s.goto i (.logging b))

/-- `log_write(b)` from its `acquire` on. -/
def record (s : LogState ι) (i : ι) (b : Word) : Except Halt (LogState ι) :=
  if s.lh.slot b < logsize then
    .ok { s with
      lh := s.lh.record b
      proc := update s.proc i ⟨.inOp, insert b (s.proc i).wrote⟩
      written := insert b s.written }
  else .error .badDeref

/-- `end_op()` up to its first `release`. -/
def endOp (s : LogState ι) (i : ι) : Except Halt (LogState ι) :=
  let s := { s with outstanding := s.outstanding - 1 }
  if s.committing then .error (.panic "log.committing")
  else if s.outstanding = 0 then .ok ({ s with committing := true }.goto i .commits)
  else .ok (s.goto i .outside)

/-- `commit()`. -/
def commit (s : LogState ι) (i : ι) : LogState ι :=
  { s with lh := { s.lh with n := 0 }, written := ∅ }.goto i .committed

/-- `end_op()` from its second `acquire` on. -/
def endCommit (s : LogState ι) (i : ι) : LogState ι :=
  { s with committing := false }.goto i .outside

/-- An action of one process, where that process is. -/
def step (s : LogState ι) : LogAction ι → Except Halt (LogState ι)
  | .beginOp i => if (s.proc i).pc = .outside then .ok (s.beginOp i) else .error .blocked
  | .logWrite i b => if (s.proc i).pc = .inOp then s.logWrite i b else .error .blocked
  | .record i =>
    match (s.proc i).pc with
    | .logging b => s.record i b
    | _ => .error .blocked
  | .endOp i => if (s.proc i).pc = .inOp then s.endOp i else .error .blocked
  | .commit i => if (s.proc i).pc = .commits then .ok (s.commit i) else .error .blocked
  | .endCommit i => if (s.proc i).pc = .committed then .ok (s.endCommit i) else .error .blocked

end LogState

/-! ## The recorded blocks -/

/-- `log.lh.block[0..n)`. -/
def LogHeader.blocks (lh : LogHeader) : List Word := (List.range lh.n).map lh.block

@[simp] theorem LogHeader.length_blocks (lh : LogHeader) : lh.blocks.length = lh.n := by
  simp [LogHeader.blocks]

variable {lh : LogHeader} {b : Word}

theorem LogHeader.slot_of_mem (h : b ∈ lh.blocks) :
    lh.slot b < lh.n ∧ lh.block (lh.slot b) = b := by
  obtain ⟨k, hk, hb⟩ := List.mem_map.mp h
  unfold LogHeader.slot
  cases hf : (List.range lh.n).find? fun i => lh.block i == b with
  | none => exact absurd (beq_iff_eq.mpr hb) (List.find?_eq_none.mp hf k hk)
  | some i =>
    have hi := List.find?_some hf
    exact ⟨List.mem_range.mp (List.mem_of_find?_eq_some hf), by simpa using hi⟩

theorem LogHeader.slot_of_notMem (h : b ∉ lh.blocks) :
    lh.slot b = lh.n := by
  have hf : (List.range lh.n).find? (fun i => lh.block i == b) = none := by
    refine List.find?_eq_none.mpr fun k hk hb => h ?_
    exact List.mem_map.mpr ⟨k, hk, beq_iff_eq.mp hb⟩
  unfold LogHeader.slot
  rw [hf]
  rfl

/-- Log absorption: a block that is recorded is not recorded again. -/
theorem LogHeader.record_of_mem (h : b ∈ lh.blocks) :
    lh.record b = lh := by
  obtain ⟨hlt, hb⟩ := LogHeader.slot_of_mem h
  unfold LogHeader.record
  rw [if_neg (by omega)]
  congr 1
  exact update_eq_self_iff.mpr hb.symm

theorem LogHeader.blocks_record_of_notMem (h : b ∉ lh.blocks) :
    (lh.record b).blocks = lh.blocks ++ [b] := by
  have hslot := LogHeader.slot_of_notMem h
  unfold LogHeader.record LogHeader.blocks
  simp only [hslot, if_true, List.range_succ, List.map_append, List.map_cons, List.map_nil,
    update_self, List.append_cancel_right_eq]
  refine List.map_congr_left fun k hk => ?_
  exact update_of_ne (Nat.ne_of_lt (List.mem_range.mp hk)) ..

/-- The header records exactly the blocks of a set, each once. -/
structure LogHeader.Records (lh : LogHeader) (w : Finset Word) : Prop where
  nodup : lh.blocks.Nodup
  mem_iff : ∀ b, b ∈ lh.blocks ↔ b ∈ w

variable {w : Finset Word}

theorem LogHeader.Records.n_eq (h : lh.Records w) :
    lh.n = w.card := by
  have hw : lh.blocks.toFinset = w := by
    ext b
    rw [List.mem_toFinset, h.mem_iff]
  rw [← hw, List.toFinset_card_of_nodup h.nodup, LogHeader.length_blocks]

theorem LogHeader.Records.slot_eq (h : lh.Records w) (hb : b ∉ w) : lh.slot b = w.card := by
  rw [LogHeader.slot_of_notMem (mt (h.mem_iff b).mp hb), h.n_eq]

theorem LogHeader.Records.record (h : lh.Records w) (b : Word) :
    (lh.record b).Records (insert b w) := by
  by_cases hb : b ∈ w
  · rw [LogHeader.record_of_mem ((h.mem_iff b).mpr hb), Finset.insert_eq_of_mem hb]
    exact h
  have hnew := mt (h.mem_iff b).mp hb
  constructor
  · rw [LogHeader.blocks_record_of_notMem hnew]
    exact List.nodup_append.mpr
      ⟨h.nodup, List.nodup_singleton b, by rintro _ hx _ hy rfl; exact hnew (by simp_all)⟩
  · intro c
    rw [LogHeader.blocks_record_of_notMem hnew, List.mem_append, List.mem_singleton,
      Finset.mem_insert, h.mem_iff]
    exact or_comm

theorem LogHeader.records_empty (block : Nat → Word) : (⟨0, block⟩ : LogHeader).Records ∅ :=
  ⟨List.nodup_nil, by simp [LogHeader.blocks]⟩

/-! ## The protocol -/

namespace LogState

section Steps

variable {ι : Type} [DecidableEq ι] {s s' : LogState ι}

theorem beginOp_cases (s : LogState ι) (i : ι) :
    s.beginOp i = s ∨
      s.committing = false ∧ s.lh.n + (s.outstanding + 1) * maxOpBlocks ≤ logsize ∧
        s.beginOp i = { s with
          outstanding := s.outstanding + 1
          proc := update s.proc i ⟨.inOp, ∅⟩ } := by
  unfold beginOp
  split
  · exact .inl rfl
  · split
    · exact .inl rfl
    · exact .inr ⟨by simp_all, by omega, rfl⟩

variable {a : LogAction ι}

/-- What one action does, with the place it is taken in. -/
theorem step_cases (hs : s.step a = .ok s') :
    (∃ i, a = .beginOp i ∧ (s.proc i).pc = .outside ∧ s' = s.beginOp i) ∨
    (∃ i b, a = .logWrite i b ∧ (s.proc i).pc = .inOp ∧ s' = s.goto i (.logging b)) ∨
    (∃ i b, a = .record i ∧ (s.proc i).pc = .logging b ∧ s.lh.slot b < logsize ∧
      s' = { s with
        lh := s.lh.record b
        proc := update s.proc i ⟨.inOp, insert b (s.proc i).wrote⟩
        written := insert b s.written }) ∨
    (∃ i, a = .endOp i ∧ (s.proc i).pc = .inOp ∧ s.committing = false ∧
      (s.outstanding = 1 ∧
        s' = { s with outstanding := s.outstanding - 1, committing := true }.goto i .commits ∨
      s.outstanding ≠ 1 ∧
        s' = { s with outstanding := s.outstanding - 1 }.goto i .outside)) ∨
    (∃ i, a = .commit i ∧ (s.proc i).pc = .commits ∧ s' = s.commit i) ∨
    (∃ i, a = .endCommit i ∧ (s.proc i).pc = .committed ∧ s' = s.endCommit i) := by
  cases a with
  | beginOp i =>
    obtain ⟨hp, hs⟩ := ok_of_guard hs
    exact .inl ⟨i, rfl, hp, (Except.ok.inj hs).symm⟩
  | logWrite i b =>
    simp only [step, logWrite] at hs
    split at hs
    · split at hs
      · cases hs
      · split at hs
        · cases hs
        · exact .inr (.inl ⟨i, b, rfl, ‹_›, (Except.ok.inj hs).symm⟩)
    · cases hs
  | record i =>
    simp only [step] at hs
    split at hs
    · rename_i b hpc
      simp only [record] at hs
      split at hs
      · exact .inr (.inr (.inl ⟨i, b, rfl, hpc, ‹_›, (Except.ok.inj hs).symm⟩))
      · cases hs
    · cases hs
  | endOp i =>
    simp only [step, endOp] at hs
    split at hs
    · split at hs
      · cases hs
      · rename_i hpc hc
        have hc : s.committing = false := by simpa using hc
        split at hs
        · refine .inr (.inr (.inr (.inl ⟨i, rfl, hpc, hc, .inl ⟨by omega, ?_⟩⟩)))
          exact (Except.ok.inj hs).symm
        · refine .inr (.inr (.inr (.inl ⟨i, rfl, hpc, hc, .inr ⟨by omega, ?_⟩⟩)))
          exact (Except.ok.inj hs).symm
    · cases hs
  | commit i =>
    obtain ⟨hp, hs⟩ := ok_of_guard hs
    exact .inr (.inr (.inr (.inr (.inl ⟨i, rfl, hp, (Except.ok.inj hs).symm⟩))))
  | endCommit i =>
    obtain ⟨hp, hs⟩ := ok_of_guard hs
    exact .inr (.inr (.inr (.inr (.inr ⟨i, rfl, hp, (Except.ok.inj hs).symm⟩))))

theorem step_log (hs : s.step a = .ok s') : s'.log = s.log := by
  obtain ⟨i, -, -, rfl⟩ | ⟨i, b, -, -, rfl⟩ | ⟨i, b, -, -, -, rfl⟩ |
    ⟨i, -, -, -, ⟨-, rfl⟩ | ⟨-, rfl⟩⟩ | ⟨i, -, -, rfl⟩ | ⟨i, -, -, rfl⟩ := step_cases hs
  · obtain heq | ⟨-, -, heq⟩ := s.beginOp_cases i <;> rw [heq]
  all_goals rfl

/-- How an action can fail, with the place it is taken in. -/
theorem step_error {e : Halt} (he : s.step a = .error e) :
    e = .blocked ∨
    (∃ i b, a = .logWrite i b ∧ (s.proc i).pc = .inOp ∧
      (s.lh.n ≥ logsize ∨ (s.lh.n : Int) ≥ s.log.size - 1) ∧ e = .panic "too big a transaction") ∨
    (∃ i b, a = .logWrite i b ∧ (s.proc i).pc = .inOp ∧ s.outstanding < 1 ∧
      e = .panic "log_write outside of trans") ∨
    (∃ i b, a = .record i ∧ (s.proc i).pc = .logging b ∧ logsize ≤ s.lh.slot b ∧ e = .badDeref) ∨
    (∃ i, a = .endOp i ∧ (s.proc i).pc = .inOp ∧ s.committing = true ∧
      e = .panic "log.committing") := by
  cases a with
  | beginOp i | commit i | endCommit i =>
    simp only [step] at he
    split at he
    · cases he
    · exact .inl (Except.error.inj he).symm
  | logWrite i b =>
    simp only [step, logWrite] at he
    split at he
    · split at he
      · exact .inr (.inl ⟨i, b, rfl, ‹_›, ‹_›, (Except.error.inj he).symm⟩)
      · split at he
        · exact .inr (.inr (.inl ⟨i, b, rfl, ‹_›, ‹_›, (Except.error.inj he).symm⟩))
        · cases he
    · exact .inl (Except.error.inj he).symm
  | record i =>
    simp only [step] at he
    split at he
    · rename_i b hpc
      simp only [record] at he
      split at he
      · cases he
      · exact .inr (.inr (.inr (.inl ⟨i, b, rfl, hpc, by omega, (Except.error.inj he).symm⟩)))
    · exact .inl (Except.error.inj he).symm
  | endOp i =>
    simp only [step, endOp] at he
    split at he
    · split at he
      · exact .inr (.inr (.inr (.inr ⟨i, rfl, ‹_›, ‹_›, (Except.error.inj he).symm⟩)))
      · split at he <;> cases he
    · exact .inl (Except.error.inj he).symm

end Steps

variable {ι : Type} [Fintype ι] [DecidableEq ι] {s s' : LogState ι}

/-- How many operations a process has in progress. -/
def ops (p : OpProc) : Nat := p.pc.inProgress.toNat

/-- What holds of the log in every state. -/
structure Inv (s : LogState ι) : Prop where
  outstanding : s.outstanding = tally ops s.proc
  committing : s.committing = true → s.outstanding = 0
  /-- One process at a time is in `commit()`, and `committing` is set as long as it is. -/
  committer : ∀ i, (s.proc i).pc.inCommit = true →
    s.committing = true ∧ ∀ j, (s.proc j).pc.inCommit = true → j = i
  records : s.lh.Records s.written

omit [DecidableEq ι] in
theorem inv_init (log : Log) : Inv (LogState.init ι log) where
  outstanding := by
    have : tally ops (LogState.init ι log).proc = 0 := tally_eq_zero.mpr fun _ => rfl
    rw [this]
    rfl
  committing := nofun
  committer := nofun
  records := LogHeader.records_empty _

variable {i : ι}

omit [DecidableEq ι] in
theorem Inv.one_le (h : s.Inv) (hi : (s.proc i).pc.inProgress = true) :
    1 ≤ s.outstanding := by
  have hle := le_tally ops s.proc i
  rw [h.outstanding]
  simp only [ops, hi, Bool.toNat_true] at hle
  exact_mod_cast hle

omit [DecidableEq ι] in
theorem Inv.not_committing (h : s.Inv) (hi : (s.proc i).pc.inProgress = true) :
    s.committing = false := by
  have := h.one_le hi
  cases hc : s.committing with
  | false => rfl
  | true => exact absurd (h.committing hc) (by omega)

omit [DecidableEq ι] in
/-- No process is in `commit()` while an operation is in progress. -/
theorem Inv.not_inCommit (h : s.Inv) (hc : s.committing = false) (j : ι) :
    (s.proc j).pc.inCommit = false := by
  by_contra hj
  have := (h.committer j (by simpa using hj)).1
  simp [hc] at this

/-- A process that enters or leaves an operation, all else fixed. -/
theorem ops_update (i : ι) (p : OpProc) :
    (tally ops (update s.proc i p) : Int) + ops (s.proc i) = tally ops s.proc + ops p :=
  mod_cast tally_update ops s.proc i p

theorem ops_update_of_eq {p : OpProc} (h : p.pc.inProgress = (s.proc i).pc.inProgress) :
    tally ops (update s.proc i p) = tally ops s.proc :=
  tally_update_of_eq (by rw [ops, ops, h])

/-- A process that does not enter `commit()` leaves the committer as it is. -/
theorem Inv.committer_update (h : s.Inv) {p : OpProc} (hp : p.pc.inCommit = false) {k : ι}
    (hk : (update s.proc i p k).pc.inCommit = true) :
    s.committing = true ∧
      ∀ j, (update s.proc i p j).pc.inCommit = true → j = k := by
  have hold : ∀ j, (update s.proc i p j).pc.inCommit = true →
      (s.proc j).pc.inCommit = true := by
    intro j hj
    by_cases hji : j = i
    · subst hji
      rw [update_self, hp] at hj
      cases hj
    · rwa [update_of_ne hji] at hj
  obtain ⟨hc, honly⟩ := h.committer k (hold k hk)
  exact ⟨hc, fun j hj => honly j (hold j hj)⟩

theorem Inv.beginOp (h : s.Inv) (hpc : (s.proc i).pc = .outside) : (s.beginOp i).Inv := by
  obtain heq | ⟨hc, -, heq⟩ := s.beginOp_cases i
  · rw [heq]
    exact h
  have hops := ops_update (s := s) i ⟨.inOp, ∅⟩
  have hold : ops (s.proc i) = 0 := by rw [ops, hpc]; rfl
  have hnew : ops ⟨.inOp, ∅⟩ = 1 := rfl
  have hout := h.outstanding
  have hcount : s.outstanding + 1 = tally ops (update s.proc i ⟨.inOp, ∅⟩) := by omega
  rw [heq]
  refine ⟨hcount, ?_, fun k hk => h.committer_update rfl hk, h.records⟩
  intro hc'
  rw [hc] at hc'
  cases hc'

theorem Inv.logWrite (h : s.Inv) (hpc : (s.proc i).pc = .inOp) (b : Word) :
    (s.goto i (.logging b)).Inv where
  outstanding := by
    rw [goto_outstanding, h.outstanding]
    exact congrArg _ (ops_update_of_eq (by rw [hpc]; rfl)).symm
  committing := h.committing
  committer _ hk := h.committer_update rfl hk
  records := h.records

theorem Inv.record (h : s.Inv) {b : Word} (hpc : (s.proc i).pc = .logging b) (w : Finset Word) :
    Inv { s with
      lh := s.lh.record b, proc := update s.proc i ⟨.inOp, w⟩
      written := insert b s.written } where
  outstanding := by
    show s.outstanding = _
    rw [h.outstanding]
    exact congrArg _ (ops_update_of_eq (by rw [hpc]; rfl)).symm
  committing := h.committing
  committer _ hk := h.committer_update rfl hk
  records := h.records.record b

theorem Inv.endOp (h : s.Inv) (hpc : (s.proc i).pc = .inOp) (hc : s.committing = false) (c : Bool)
    {pc : OpPc} (hpc' : pc.inProgress = false)
    (hcommit : c = true ∧ s.outstanding = 1 ∨ c = false ∧ pc.inCommit = false) :
    Inv ({ s with outstanding := s.outstanding - 1, committing := c }.goto i pc) := by
  have hops := ops_update (s := s) i { s.proc i with pc := pc }
  have hold : ops (s.proc i) = 1 := by rw [ops, hpc]; rfl
  have hnew : ops { s.proc i with pc := pc } = 0 := by rw [ops, hpc']; rfl
  have hout := h.outstanding
  have hnone := h.not_inCommit hc
  have hcount : s.outstanding - 1
      = tally ops (update s.proc i { s.proc i with pc := pc }) := by omega
  refine ⟨hcount, ?_, ?_, h.records⟩
  · rintro rfl
    obtain ⟨-, hone⟩ | ⟨hf, -⟩ := hcommit
    · show s.outstanding - 1 = 0
      omega
    · cases hf
  have hself : ∀ j, ((({ s with outstanding := s.outstanding - 1, committing := c }.goto i
      pc).proc j).pc.inCommit = true) → j = i ∧ pc.inCommit = true := by
    intro j hj
    rw [goto_proc] at hj
    by_cases hji : j = i
    · subst hji
      rw [update_self] at hj
      exact ⟨rfl, hj⟩
    · rw [update_of_ne hji, hnone] at hj
      cases hj
  intro k hk
  obtain ⟨rfl, hp⟩ := hself k hk
  obtain ⟨hct, -⟩ | ⟨-, hf⟩ := hcommit
  · exact ⟨hct, fun j hj => (hself j hj).1⟩
  · rw [hf] at hp
    cases hp

theorem Inv.commit (h : s.Inv) (hpc : (s.proc i).pc = .commits) : (s.commit i).Inv where
  outstanding := by
    show s.outstanding = _
    rw [h.outstanding]
    exact congrArg _ (ops_update_of_eq (by rw [hpc]; rfl)).symm
  committing := h.committing
  committer k hk := by
    have hold : ∀ j, ((s.commit i).proc j).pc.inCommit = true → (s.proc j).pc.inCommit = true := by
      intro j hj
      by_cases hji : j = i
      · rw [hji, hpc]
        rfl
      · rw [LogState.commit, goto_proc, update_of_ne hji] at hj
        exact hj
    obtain ⟨hc, honly⟩ := h.committer k (hold k hk)
    exact ⟨hc, fun j hj => honly j (hold j hj)⟩
  records := LogHeader.records_empty _

theorem Inv.endCommit (h : s.Inv) (hpc : (s.proc i).pc = .committed) :
    (s.endCommit i).Inv where
  outstanding := by
    show s.outstanding = _
    rw [h.outstanding]
    exact congrArg _ (ops_update_of_eq (by rw [hpc]; rfl)).symm
  committing := nofun
  committer k hk := by
    -- the process that leaves was the only one in `commit()`
    have honly := (h.committer i (by rw [hpc]; rfl)).2
    rw [LogState.endCommit, goto_proc] at hk
    by_cases hki : k = i
    · subst hki
      rw [update_self] at hk
      cases hk
    · rw [update_of_ne hki] at hk
      exact absurd (honly k hk) hki
  records := h.records

theorem Inv.step (h : s.Inv) {a : LogAction ι} (hs : s.step a = .ok s') : s'.Inv := by
  obtain ⟨i, -, hpc, rfl⟩ | ⟨i, b, -, hpc, rfl⟩ | ⟨i, b, -, hpc, -, rfl⟩ |
    ⟨i, -, hpc, hc, ⟨hone, rfl⟩ | ⟨-, rfl⟩⟩ | ⟨i, -, hpc, rfl⟩ | ⟨i, -, hpc, rfl⟩ := step_cases hs
  · exact h.beginOp hpc
  · exact h.logWrite hpc b
  · exact h.record hpc _
  · exact h.endOp hpc hc true rfl (.inl ⟨rfl, hone⟩)
  · exact h.endOp hpc hc s.committing rfl (.inr ⟨hc, rfl⟩)
  · exact h.commit hpc
  · exact h.endCommit hpc

/-- **The group commit protocol**, in every state of every run by any number of processes: while
`committing` is set no operation is in progress; `end_op` never panics; `outstanding` counts the
operations in progress; and when `commit()` starts, the header holds exactly the blocks recorded
since the last commit, each once, and every operation has ended. -/
theorem group_commit (log : Log) (as : List (LogAction ι)) (t : LogState ι)
    (hr : run step (LogState.init ι log) as = .ok t) :
    (t.committing = true → t.outstanding = 0 ∧ ∀ i, (t.proc i).pc.inProgress = false) ∧
      (∀ i, t.step (.endOp i) ≠ .error (.panic "log.committing")) ∧
      t.outstanding = (Finset.univ.filter fun i => (t.proc i).pc.inProgress = true).card ∧
      ∀ i, (t.proc i).pc = .commits →
        (∀ j, (t.proc j).pc.inProgress = false) ∧
          t.lh.blocks.Nodup ∧ ∀ b, b ∈ t.lh.blocks ↔ b ∈ t.written := by
  have h : t.Inv := run_invariant_of_step Inv (fun _ _ _ h => h.step) (inv_init log) hr
  have hidle : t.committing = true → ∀ i, (t.proc i).pc.inProgress = false := by
    intro hc i
    by_contra hi
    rw [h.not_committing (by simpa using hi)] at hc
    cases hc
  refine ⟨fun hc => ⟨h.committing hc, hidle hc⟩, ?_, ?_, ?_⟩
  · intro i hp
    obtain he | ⟨_, _, he, -⟩ | ⟨_, _, he, -⟩ | ⟨_, _, he, -⟩ | ⟨j, -, hpc, hc, -⟩ := step_error hp
    · cases he
    · cases he
    · cases he
    · cases he
    · rw [h.not_committing (i := j) (by rw [hpc]; rfl)] at hc
      cases hc
  · rw [h.outstanding]
    exact congrArg _ (tally_eq_card (fun p : OpProc => p.pc.inProgress) t.proc)
  · intro i hi
    exact ⟨hidle (h.committer i (by rw [hi]; rfl)).1, h.records.nodup, h.records.mem_iff⟩

theorem group_commit_two_operations :
    let as : List (LogAction (Fin 2)) :=
      [.beginOp 0, .beginOp 1, .logWrite 0 100#32, .logWrite 1 100#32, .record 1, .record 0,
        .logWrite 0 101#32, .record 0, .endOp 0, .endOp 1]
    ∃ t, run step (LogState.init (Fin 2) Log.mkfs) as = .ok t ∧ (t.proc 1).pc = .commits ∧
      t.lh.blocks = [100#32, 101#32] ∧ t.outstanding = 0 ∧
        ∀ b, b ∈ t.lh.blocks ↔ b ∈ t.written := by
  intro as
  obtain ⟨t, ht, hq⟩ := run_ok_of_eval step (LogState.init (Fin 2) Log.mkfs) as
    (fun t => decide ((t.proc 1).pc = .commits ∧ t.lh.blocks = [100#32, 101#32] ∧
      t.committing = true)) (by decide +kernel)
  obtain ⟨hpc, hb, hc⟩ := of_decide_eq_true hq
  obtain ⟨hcom, -, -, hstart⟩ := group_commit Log.mkfs as t ht
  exact ⟨t, ht, hpc, hb, (hcom hc).1, (hstart 1 hpc).2.2⟩

/-! ## The reservation -/

/-- The operation logs at most `q` distinct blocks. -/
def Quota (q : Nat) (s : LogState ι) : LogAction ι → Prop
  | .logWrite i b => (insert b (s.proc i).wrote).card ≤ q
  | _ => True

instance (q : Nat) : DecidableRel (Quota (ι := ι) q) := fun s a =>
  match a with
  | .logWrite i b => inferInstanceAs (Decidable ((insert b (s.proc i).wrote).card ≤ q))
  | .beginOp _ | .record _ | .endOp _ | .commit _ | .endCommit _ => isTrue trivial

/-- How many blocks the operation of a process may still add to the log. -/
def left (q : Nat) (p : OpProc) : Nat := if p.pc.inProgress then q - p.wrote.card else 0

/-- The blocks of an operation are recorded, and one more is within its quota where it logs it. -/
structure Fair (q : Nat) (written : Finset Word) (p : OpProc) : Prop where
  wrote : p.pc.inProgress = true → p.wrote ⊆ written
  quota : ∀ b, p.pc = .logging b → (insert b p.wrote).card ≤ q

/-- What a quota of `q` blocks an operation gives: the blocks recorded, together with those that
the operations in progress may still add, are at most `bound`. -/
structure Reserved (q bound : Nat) (s : LogState ι) : Prop where
  inv : s.Inv
  /-- Blocks are recorded only for operations in progress, and until they are committed. -/
  idle : (∀ i, (s.proc i).pc.inProgress = false ∧ (s.proc i).pc ≠ .commits) → s.written = ∅
  fair : ∀ i, Fair q s.written (s.proc i)
  room : s.written.card + tally (left q) s.proc ≤ bound

/-- Where `begin_op` admits one more operation next to `o` others, a quota of `q` blocks needs at
most `bound`. The first operation of a group finds the log empty. -/
def Admits (q bound : Nat) : Prop :=
  ∀ n o, (o = 0 → n = 0) → n + (o + 1) * maxOpBlocks ≤ logsize → n + (o + 1) * q ≤ bound

theorem admits_full : Admits maxOpBlocks logsize := fun _ _ _ h => h

/-- With a block less for each operation, two operations leave two blocks unused, and a single one
most of the log. -/
theorem admits_less : Admits (maxOpBlocks - 1) (logsize - 2) := by
  intro n o hfirst h
  unfold maxOpBlocks logsize at *
  omega

section Reservation

variable {q bound : Nat}

omit [DecidableEq ι] in
theorem reserved_init (log : Log) : (LogState.init ι log).Reserved q bound where
  inv := inv_init log
  idle _ := rfl
  fair _ := ⟨nofun, nofun⟩
  room := by
    have : tally (left q) (LogState.init ι log).proc = 0 := tally_eq_zero.mpr fun _ => rfl
    rw [this]
    exact Nat.zero_le _

omit [DecidableEq ι] in
theorem tally_left_le (f : ι → OpProc) : tally (left q) f ≤ tally ops f * q := by
  unfold tally
  rw [Finset.sum_mul]
  refine Finset.sum_le_sum fun i _ => ?_
  unfold left ops
  cases (f i).pc.inProgress with
  | false => exact Nat.zero_le _
  | true =>
    rw [if_pos rfl, Bool.toNat_true, Nat.one_mul]
    exact Nat.sub_le ..

omit [DecidableEq ι] in
theorem Inv.idle_of_zero (h : s.Inv) (hc : s.committing = false) (h0 : s.outstanding = 0) (i : ι) :
    (s.proc i).pc.inProgress = false ∧ (s.proc i).pc ≠ .commits := by
  constructor
  · by_contra hp
    have := h.one_le (by simpa using hp)
    omega
  · intro hp
    have := h.not_inCommit hc i
    rw [hp] at this
    cases this

omit [Fintype ι] in
theorem forall_fair_update {w w' : Finset Word} {f : ι → OpProc} (h : ∀ j, Fair q w (f j))
    (hw : w ⊆ w') {p : OpProc} (hp : Fair q w' p) (j : ι) : Fair q w' (update f i p j) := by
  by_cases hj : j = i
  · subst hj
    rwa [update_self]
  · rw [update_of_ne hj]
    exact ⟨fun hin => ((h j).wrote hin).trans hw, (h j).quota⟩

theorem Reserved.beginOp (h : s.Reserved q bound) (hq : Admits q bound)
    (hpc : (s.proc i).pc = .outside) : (s.beginOp i).Reserved q bound := by
  obtain heq | ⟨hc, hle, heq⟩ := s.beginOp_cases i
  · rw [heq]
    exact h
  have hinv := h.inv.beginOp hpc
  rw [heq] at hinv ⊢
  refine ⟨hinv, fun hnone => ?_, forall_fair_update h.fair subset_rfl ⟨fun _ => by simp, nofun⟩, ?_⟩
  · have := (hnone i).1
    simp [OpPc.inProgress] at this
  have hout := h.inv.outstanding
  have hn := h.inv.records.n_eq
  have hmove := tally_update (left q) s.proc i ⟨.inOp, ∅⟩
  have hsum := tally_left_le (q := q) s.proc
  have hnew : left q ⟨.inOp, ∅⟩ = q := rfl
  have hadmit := hq s.written.card (tally ops s.proc)
    (fun h0 => by rw [h.idle (h.inv.idle_of_zero hc (by omega)), Finset.card_empty])
    (by rw [← hn]; rw [hout] at hle; exact_mod_cast hle)
  show s.written.card + tally (left q) (update s.proc i ⟨.inOp, ∅⟩) ≤ bound
  rw [Nat.add_mul, Nat.one_mul] at hadmit
  omega

theorem Reserved.logWrite (h : s.Reserved q bound) (hpc : (s.proc i).pc = .inOp) {b : Word}
    (hquota : (insert b (s.proc i).wrote).card ≤ q) :
    (s.goto i (.logging b)).Reserved q bound where
  inv := h.inv.logWrite hpc b
  idle hnone := by
    have := (hnone i).1
    rw [goto_proc, update_self] at this
    cases this
  fair := forall_fair_update h.fair subset_rfl
    ⟨fun _ => (h.fair i).wrote (by rw [hpc]; rfl), fun c hc => by cases hc; exact hquota⟩
  room := by
    rw [goto_proc, tally_update_of_eq (by rw [left, left, hpc]; rfl)]
    exact h.room

theorem Reserved.record (h : s.Reserved q bound) {b : Word} (hpc : (s.proc i).pc = .logging b) :
    Reserved q bound { s with
      lh := s.lh.record b, proc := update s.proc i ⟨.inOp, insert b (s.proc i).wrote⟩
      written := insert b s.written } where
  inv := h.inv.record hpc _
  idle hnone := by
    have := (hnone i).1
    simp [OpPc.inProgress] at this
  fair := forall_fair_update h.fair (Finset.subset_insert ..) ⟨fun _ =>
    Finset.insert_subset_insert b ((h.fair i).wrote (by rw [hpc]; rfl)), nofun⟩
  room := by
    have hmove := tally_update (left q) s.proc i ⟨.inOp, insert b (s.proc i).wrote⟩
    have hold : left q (s.proc i) = q - (s.proc i).wrote.card := by rw [left, hpc]; rfl
    have hnew : left q ⟨.inOp, insert b (s.proc i).wrote⟩ = q - (insert b (s.proc i).wrote).card :=
      rfl
    have hroom := h.room
    have hquota := (h.fair i).quota b hpc
    show (insert b s.written).card + tally (left q) (update s.proc i _) ≤ bound
    by_cases hb : b ∈ s.written
    · -- absorbed: the operation may count it, the log does not
      have hle := Finset.card_le_card (Finset.subset_insert b (s.proc i).wrote)
      rw [Finset.insert_eq_of_mem hb]
      omega
    · have hout : b ∉ (s.proc i).wrote := fun hmem =>
        hb ((h.fair i).wrote (by rw [hpc]; rfl) hmem)
      rw [Finset.card_insert_of_notMem hb]
      rw [Finset.card_insert_of_notMem hout] at hnew hquota
      omega

/-- A process leaves its operation or goes on with `commit()`, and no block is recorded. -/
theorem Reserved.leave (h : s.Reserved q bound) {pc : OpPc} (hout : pc.inProgress = false)
    (hs : s'.Inv) (hproc : s'.proc = update s.proc i { s.proc i with pc := pc })
    (hw : s'.written = s.written)
    (hidle : (∀ j, (s'.proc j).pc.inProgress = false ∧ (s'.proc j).pc ≠ .commits) →
      s.written = ∅) : s'.Reserved q bound where
  inv := hs
  idle hnone := hw.trans (hidle hnone)
  fair := by
    rw [hproc, hw]
    refine forall_fair_update h.fair subset_rfl ⟨fun hin => ?_, fun b hb => ?_⟩
    · exact absurd (hout.symm.trans hin) Bool.false_ne_true
    · rw [show pc = .logging b from hb] at hout
      cases hout
  room := by
    have hmove := tally_update (left q) s.proc i { s.proc i with pc := pc }
    have hnew : left q { s.proc i with pc := pc } = 0 := by rw [left, hout]; rfl
    have := h.room
    rw [hproc, hw]
    omega

theorem Reserved.commit (h : s.Reserved q bound) (hpc : (s.proc i).pc = .commits) :
    (s.commit i).Reserved q bound where
  inv := h.inv.commit hpc
  idle _ := rfl
  fair j := by
    have hinv := h.inv.commit hpc
    have hc : (s.commit i).committing = true := (h.inv.committer i (by rw [hpc]; rfl)).1
    refine ⟨fun hin => ?_, fun b hb => ?_⟩
    · rw [hinv.not_committing hin] at hc
      cases hc
    · rw [hinv.not_committing (i := j) (by rw [hb]; rfl)] at hc
      cases hc
  room := by
    have hroom := h.room
    have : tally (left q) (s.commit i).proc = tally (left q) s.proc :=
      tally_update_of_eq (by rw [left, left, hpc]; rfl)
    show (∅ : Finset Word).card + _ ≤ bound
    rw [this, Finset.card_empty]
    omega

theorem Reserved.step (h : s.Reserved q bound) (hq : Admits q bound) {a : LogAction ι}
    (hok : s.Quota q a) (hs : s.step a = .ok s') : s'.Reserved q bound := by
  have hinv := h.inv.step hs
  obtain ⟨i, -, hpc, rfl⟩ | ⟨i, b, rfl, hpc, rfl⟩ | ⟨i, b, -, hpc, -, rfl⟩ |
    ⟨i, -, hpc, hc, ⟨hone, rfl⟩ | ⟨hmore, rfl⟩⟩ | ⟨i, -, hpc, rfl⟩ | ⟨i, -, hpc, rfl⟩ :=
      step_cases hs
  · exact h.beginOp hq hpc
  · exact h.logWrite hpc hok
  · exact h.record hpc
  · refine h.leave rfl hinv rfl rfl fun hnone => ?_
    have := (hnone i).2
    rw [goto_proc, update_self] at this
    exact absurd rfl this
  · -- another operation is still in progress
    refine h.leave rfl hinv rfl rfl fun hnone => ?_
    have hzero := hinv.outstanding
    rw [tally_eq_zero.mpr fun j => by rw [ops, (hnone j).1]; rfl] at hzero
    have : s.outstanding - 1 = 0 := hzero
    omega
  · exact h.commit hpc
  · refine h.leave rfl hinv rfl rfl fun hnone => h.idle fun j => ?_
    by_cases hj : j = i
    · rw [hj, hpc]
      exact ⟨rfl, nofun⟩
    · have := hnone j
      rwa [LogState.endCommit, goto_proc, update_of_ne hj] at this

omit [DecidableEq ι] in
/-- There is room for a block that is being logged. -/
theorem Reserved.slot_lt (h : s.Reserved q bound) {b : Word} (hpc : (s.proc i).pc = .logging b)
    (hb : b ∉ s.written) : s.lh.slot b < bound := by
  have hquota := (h.fair i).quota b hpc
  have hout : b ∉ (s.proc i).wrote := fun hmem => hb ((h.fair i).wrote (by rw [hpc]; rfl) hmem)
  have hle := le_tally (left q) s.proc i
  have hleft : left q (s.proc i) = q - (s.proc i).wrote.card := by rw [left, hpc]; rfl
  have hroom := h.room
  rw [Finset.card_insert_of_notMem hout] at hquota
  rw [h.inv.records.slot_eq hb]
  omega

end Reservation

/-- **`log.lh.block` is never overrun** where every operation keeps to `MAXOPBLOCKS`, whatever the
size of the log region. -/
theorem record_lt_logsize (log : Log) (as : List (LogAction ι))
    (hg : Guarded step (Quota maxOpBlocks) (LogState.init ι log) as) :
    Guarded step (fun s a => s.step a ≠ .error .badDeref) (LogState.init ι log) as := by
  refine guarded_of_invariant (Reserved maxOpBlocks logsize)
    (fun _ _ _ h hok hs => h.step admits_full hok hs) (fun s a h _ he => ?_) (reserved_init log) hg
  obtain he | ⟨_, _, -, -, -, he⟩ | ⟨_, _, -, -, -, he⟩ | ⟨i, b, -, hpc, hfull, -⟩ |
    ⟨_, -, -, -, he⟩ := step_error he
  · cases he
  · cases he
  · cases he
  · by_cases hb : b ∈ s.written
    · have hslot := (LogHeader.slot_of_mem ((h.inv.records.mem_iff b).mpr hb)).1
      have hn := h.inv.records.n_eq
      have := h.room
      omega
    · have := h.slot_lt hpc hb
      omega
  · cases he

/-! ## The log region -/

/-- The action does not find the log too small: no panic, and a block it adds to the header has its
place, block `slot + 1` of the log, in the log region. -/
def LogFits (s : LogState ι) (a : LogAction ι) : Prop :=
  s.step a ≠ .error (.panic "too big a transaction") ∧
    ∀ i b, a = .record i → (s.proc i).pc = .logging b → b ∉ s.written →
      s.log.start + s.lh.slot b + 1 < s.log.start + s.log.size

/-- **The log is large enough** in every run, by any number of processes, in which every operation
logs at most `MAXOPBLOCKS - 1` distinct blocks. -/
theorem logFits_of_guarded_run (as : List (LogAction ι))
    (hg : Guarded step (Quota (maxOpBlocks - 1)) (LogState.init ι Log.mkfs) as) :
    Guarded step LogFits (LogState.init ι Log.mkfs) as := by
  refine guarded_of_invariant
    (fun s => s.Reserved (maxOpBlocks - 1) (logsize - 2) ∧ s.log = Log.mkfs)
    (fun _ _ _ h hok hs => ⟨h.1.step admits_less hok hs, (step_log hs).trans h.2⟩)
    (fun s a h _ => ⟨fun hp => ?_, ?_⟩) ⟨reserved_init _, rfl⟩ hg
  · obtain he | ⟨i, b, rfl, hpc, hfull, -⟩ | ⟨_, _, -, -, -, he⟩ | ⟨_, _, -, -, -, he⟩ |
      ⟨_, -, -, -, he⟩ := step_error hp
    · cases he
    · have hn := h.1.inv.records.n_eq
      have hroom := h.1.room
      rw [h.2] at hfull
      unfold Log.mkfs logsize at *
      dsimp only at hfull
      omega
    · exact absurd he (by decide)
    · cases he
    · exact absurd he (by decide)
  · rintro i b rfl hpc hb
    have := h.1.slot_lt hpc hb
    rw [h.2]
    unfold Log.mkfs logsize at *
    dsimp only
    omega

/-- Process `i` logs block `b`. -/
def logs (i : Fin 3) (b : Nat) : List (LogAction (Fin 3)) :=
  [.logWrite i (BitVec.ofNat 32 b), .record i]

theorem logFits_nine_blocks_each :
    let as := [.beginOp 0, .beginOp 1, .beginOp 2] ++
      (List.range 9).flatMap (fun k => logs 0 (100 + k) ++ logs 1 (200 + k) ++ logs 2 (300 + k)) ++
      [.endOp 0, .endOp 2, .endOp 1, .commit 1, .endCommit 1]
    Guarded step (Quota (maxOpBlocks - 1)) (LogState.init (Fin 3) Log.mkfs) as ∧
      Guarded step LogFits (LogState.init (Fin 3) Log.mkfs) as :=
  ⟨by decide +kernel, logFits_of_guarded_run _ (by decide +kernel)⟩

/-- Three operations are admitted together and log ten distinct blocks each. The last block finds
the log full: of its thirty blocks one is the header. -/
theorem three_full_operations_panic :
    ∃ as : List (LogAction (Fin 3)),
      Guarded step (Quota maxOpBlocks) (LogState.init (Fin 3) Log.mkfs) as ∧
        run step (LogState.init (Fin 3) Log.mkfs) as = .error (.panic "too big a transaction") :=
  ⟨[.beginOp 0, .beginOp 1, .beginOp 2] ++
      (List.range 10).flatMap fun k => logs 0 (100 + k) ++ logs 1 (200 + k) ++ logs 2 (300 + k),
    by decide +kernel, run_error_of_eval _ _ _ _ (by decide +kernel)⟩

end LogState

end Xv6Mmap
