import Xv6Mmap.Bio
import Xv6Mmap.Lib.Linked

/-!
# The disk queue (`ide.c:72-168`)

`iderw` links a buffer in at the end of `idequeue`, starts the disk if it was idle, and waits for the
flags that `ideintr` sets; `ideintr` unlinks the first buffer and starts the disk on the next. What
is done under `idelock` is one step. A turn of the loop that waits can come at any time, so that it
does not matter who wakes whom. `other` is the rest of the kernel: it may change any buffer but those
that a process inside `iderw` has locked. The disk completes the command it was given (`finish`) and
interrupts then; the data is left out.

The pointer `idequeue` is the link `qnext none`. The buffers for which `iderw` was called, a command
was started, or a command was completed are kept as ghosts, in order.

* **`disk_queue_in_order`**: in every run by any number of processes each call is served once, in
  order, and returns after its own command.
* `Shows.iderw` and `Shows.ideintr`: the pointers implement the queue that the model of the buffer
  cache has.
-/

namespace Xv6Mmap

open Lib
open Function (update update_self update_of_ne)

structure Ide (ι : Type) where
  buf : Fin nbuf → Buf ι
  /-- `idequeue`, and `b->qnext` for every buffer. -/
  qnext : Option (Fin nbuf) → Option (Fin nbuf)
  havedisk1 : Bool
  /-- The buffer of the command for which no interrupt has come. -/
  disk : Option (Fin nbuf)
  /-- The disk has completed it. -/
  done : Bool
  /-- The call of `iderw` in which a process is: its number and its buffer. -/
  call : ι → Option (Nat × Fin nbuf)
  calls : List (Fin nbuf)
  starts : List (Fin nbuf)
  served : List (Fin nbuf)

inductive IdeAction (ι : Type) where
  | iderw (i : ι) (b : Fin nbuf)
  | turn (i : ι)
  | finish
  | ideintr
  | other (b : Fin nbuf) (x : Buf ι)

namespace Ide

variable {ι : Type} [DecidableEq ι]

/-- Before the first call: `idequeue` is null. -/
def init (buf : Fin nbuf → Buf ι) (qnext : Option (Fin nbuf) → Option (Fin nbuf))
    (havedisk1 : Bool) : Ide ι :=
  ⟨buf, update qnext none none, havedisk1, none, false, fun _ => none, [], [], []⟩

/-- `idestart(b)`; `FSSIZE` is 1000. -/
def idestart (s : Ide ι) (b : Fin nbuf) : Except Halt (Ide ι) :=
  if 1000 ≤ (s.buf b).blockno.toNat then .error (.panic "incorrect blockno")
  else .ok { s with disk := some b, done := false, starts := s.starts ++ [b] }

/-- The flags are `B_VALID` without `B_DIRTY`. -/
def ready (s : Ide ι) (b : Fin nbuf) : Bool := (s.buf b).valid && !(s.buf b).dirty

/-- `iderw(b)` up to its loop. A walk that does not end is a `deadlock`. -/
def iderw (s : Ide ι) (i : ι) (b : Fin nbuf) : Except Halt (Ide ι) :=
  if (s.buf b).holder ≠ some i then .error (.panic "iderw: buf not locked")
  else if s.ready b then .error (.panic "iderw: nothing to do")
  else if (s.buf b).dev ≠ 0#32 ∧ s.havedisk1 = false then
    .error (.panic "iderw: ide disk 1 not present")
  else
    let qnext := update s.qnext (some b) none
    match walk qnext (nbuf + 1) none with
    | none => .error .deadlock
    | some pp =>
      let s := { s with
        qnext := update qnext pp (some b)
        call := update s.call i (some (s.calls.length, b))
        calls := s.calls ++ [b] }
      if s.qnext none = some b then s.idestart b else .ok s

/-- `ideintr()`: the command of the disk is over. -/
def ideintr (s : Ide ι) : Except Halt (Ide ι) :=
  let s := { s with disk := none, done := false, served := s.served ++ s.disk.toList }
  match s.qnext none with
  | none => .ok s
  | some b =>
    let s := { s with
      qnext := update s.qnext none (s.qnext (some b))
      buf := update s.buf b { s.buf b with valid := true, dirty := false } }
    match s.qnext none with
    | none => .ok s
    | some c => s.idestart c

/-- An action of one process, where that process is, of the disk, or of the rest of the kernel. -/
def step (s : Ide ι) : IdeAction ι → Except Halt (Ide ι)
  | .iderw i b => if (s.call i).isSome then .error .blocked else s.iderw i b
  | .turn i =>
    match s.call i with
    | none => .error .blocked
    | some (_, b) => .ok (if s.ready b then { s with call := update s.call i none } else s)
  | .finish => if s.disk.isSome then .ok { s with done := true } else .error .blocked
  | .ideintr => if s.done then s.ideintr else .error .blocked
  | .other b x =>
    if (s.buf b).holder.any fun i => (s.call i).isSome then .error .blocked
    else .ok { s with buf := update s.buf b x }

/-- The requests in the queue are those not yet served, and the disk has the first. -/
structure Serves (s : Ide ι) (q : List (Fin nbuf)) : Prop where
  path : Path s.qnext (none :: q.map some) none
  nodup : q.Nodup
  disk : s.disk = q.head?
  calls : s.calls = s.served ++ q
  starts : s.starts = s.served ++ q.head?.toList
  /-- A process inside `iderw` has locked its buffer, and its flags say whether it was served. -/
  waits : ∀ i n b, s.call i = some (n, b) → (s.buf b).holder = some i ∧ s.calls[n]? = some b ∧
    (n < s.served.length ↔ s.ready b = true)
  /-- A process waits for every request not yet served. -/
  owner : ∀ n b, s.served.length ≤ n → s.calls[n]? = some b → ∃ i, s.call i = some (n, b)

variable {s s' : Ide ι} {q : List (Fin nbuf)}

omit [DecidableEq ι] in
theorem serves_init (buf : Fin nbuf → Buf ι) (qnext : Option (Fin nbuf) → Option (Fin nbuf))
    (havedisk1 : Bool) : (init buf qnext havedisk1).Serves [] where
  path := ⟨show update qnext none none none = none from update_self .., trivial⟩
  nodup := List.nodup_nil
  disk := rfl
  calls := rfl
  starts := rfl
  waits := nofun
  owner := nofun

variable {b : Fin nbuf}

omit [DecidableEq ι] in
/-- A buffer in the queue is locked by a process inside `iderw`. -/
theorem Serves.locked (h : s.Serves q) (hb : b ∈ q) :
    ∃ i n, (s.buf b).holder = some i ∧ s.call i = some (n, b) := by
  obtain ⟨m, hm⟩ := List.getElem?_of_mem hb
  obtain ⟨i, hi⟩ := h.owner (s.served.length + m) b (Nat.le_add_right _ _) (by
    rw [h.calls, List.getElem?_append_right (Nat.le_add_right _ _), Nat.add_sub_cancel_left, hm])
  exact ⟨i, _, (h.waits i _ b hi).1, hi⟩

variable {i : ι}

omit [DecidableEq ι] in
/-- A process that is not inside `iderw` has locked no buffer in the queue. -/
theorem Serves.fresh (h : s.Serves q) (hi : s.call i = none) (hlock : (s.buf b).holder = some i) :
    b ∉ q := by
  intro hb
  obtain ⟨j, n, hj, hcall⟩ := h.locked hb
  obtain rfl := Option.some.inj (hj.symm.trans hlock)
  rw [hi] at hcall
  cases hcall

theorem Serves.enqueue (h : s.Serves q) (hi : s.call i = none) (hlock : (s.buf b).holder = some i)
    (hready : s.ready b = false) {disk : Option (Fin nbuf)} {done : Bool}
    {starts : List (Fin nbuf)} (hdisk : disk = (q ++ [b]).head?)
    (hstarts : starts = s.served ++ (q ++ [b]).head?.toList) :
    Serves { s with
      qnext := update (update s.qnext (some b) none) ((q.reverse.map some).headD none) (some b)
      call := update s.call i (some (s.calls.length, b)), calls := s.calls ++ [b]
      disk := disk, done := done, starts := starts } (q ++ [b]) := by
  have hb := h.fresh hi hlock
  have hlen : s.served.length ≤ s.calls.length := by
    rw [h.calls, List.length_append]
    exact Nat.le_add_right _ _
  constructor
  case path => exact path_enqueue h.path h.nodup hb
  case nodup => exact List.nodup_append_comm.mp (List.nodup_cons.mpr ⟨hb, h.nodup⟩)
  case disk => exact hdisk
  case calls => simp only [h.calls, List.append_assoc]
  case starts => exact hstarts
  case waits =>
    intro j n c hj
    by_cases hji : j = i
    · subst hji
      simp only [update_self, Option.some.injEq, Prod.mk.injEq] at hj
      obtain ⟨rfl, rfl⟩ := hj
      refine ⟨hlock, List.getElem?_concat_length .., iff_of_false (Nat.not_lt.mpr hlen) ?_⟩
      exact fun hr => absurd (hr.symm.trans hready) nofun
    · simp only [update_of_ne hji] at hj
      obtain ⟨hholder, hn, hiff⟩ := h.waits j n c hj
      exact ⟨hholder, List.getElem?_append_left (List.getElem?_eq_some_iff.mp hn).1 ▸ hn, hiff⟩
  case owner =>
    intro n c hn hc
    obtain hlt | hge := Nat.lt_or_ge n s.calls.length
    · rw [List.getElem?_append_left hlt] at hc
      obtain ⟨j, hj⟩ := h.owner n c hn hc
      have hji : j ≠ i := by
        rintro rfl
        rw [hi] at hj
        cases hj
      exact ⟨j, by simp only [update_of_ne hji, hj]⟩
    · rw [List.getElem?_append_right hge, List.getElem?_singleton] at hc
      split at hc
      case isTrue heq =>
        obtain rfl := Option.some.inj hc
        obtain rfl : n = s.calls.length := by omega
        exact ⟨i, update_self ..⟩
      case isFalse => cases hc

theorem Serves.iderw (h : s.Serves q) (hi : s.call i = none) (hs : s.iderw i b = .ok s') :
    s'.Serves (q ++ [b]) := by
  unfold Ide.iderw at hs
  split at hs
  · cases hs
  split at hs
  · cases hs
  split at hs
  · cases hs
  rename_i hlock hready _
  rw [not_not] at hlock
  rw [Bool.not_eq_true] at hready
  have hb := h.fresh hi hlock
  have hwalk : walk (update s.qnext (some b) none) (nbuf + 1) none
      = some ((q.reverse.map some).headD none) := by
    refine walk_eq (h.path.congr fun n hn => update_of_ne ?_ ..) ?_
    · rintro rfl
      exact hb (by simpa using hn)
    · have hcard := h.nodup.length_le_card
      rw [Fintype.card_fin] at hcard
      exact Nat.lt_succ_of_le hcard
  have hfirst := (path_enqueue h.path h.nodup hb).1
  simp only [hwalk, hfirst] at hs
  cases q with
  | nil =>
    rw [if_pos (by rfl), idestart] at hs
    split at hs <;> cases hs
    exact h.enqueue hi hlock hready rfl (by rw [h.starts, List.append_assoc]; rfl)
  | cons c q =>
    have hcb : some c ≠ some b := fun he => hb (by simp [Option.some.inj he])
    rw [if_neg (by exact hcb)] at hs
    cases hs
    exact h.enqueue hi hlock hready h.disk h.starts

omit [DecidableEq ι] in
/-- The first request is served, whatever the disk is told then. -/
theorem Serves.serve (h : s.Serves (b :: q)) {disk : Option (Fin nbuf)} {done : Bool}
    {starts : List (Fin nbuf)} (hdisk : disk = q.head?)
    (hstarts : starts = s.served ++ [b] ++ q.head?.toList) :
    Serves { s with
      qnext := update s.qnext none (s.qnext (some b))
      buf := update s.buf b { s.buf b with valid := true, dirty := false }
      disk := disk, done := done, served := s.served ++ [b], starts := starts } q := by
  have hnext : s.calls[s.served.length]? = some b := by
    rw [h.calls, List.getElem?_append_right le_rfl, Nat.sub_self]
    rfl
  constructor
  case path => exact path_unlink (a := []) h.path h.nodup
  case nodup => exact (List.nodup_cons.mp h.nodup).2
  case disk => exact hdisk
  case calls => simp only [h.calls, List.append_assoc, List.singleton_append]
  case starts => exact hstarts
  case waits =>
    intro i n c hi
    obtain ⟨hholder, hn, hiff⟩ := h.waits i n c hi
    by_cases hc : c = b
    · subst hc
      refine ⟨by simpa only [update_self] using hholder, hn, iff_of_true ?_ ?_⟩
      · obtain ⟨j, hj⟩ := h.owner _ c le_rfl hnext
        obtain rfl := Option.some.inj ((h.waits j _ c hj).1.symm.trans hholder)
        obtain rfl := (Prod.mk.inj (Option.some.inj (hj.symm.trans hi))).1
        simp
      · simp only [ready, update_self, Bool.not_false, Bool.and_self]
    · have hne : n ≠ s.served.length := by
        rintro rfl
        exact hc (Option.some.inj (hn.symm.trans hnext))
      simp only [ready, update_of_ne hc, List.length_append, List.length_singleton]
      refine ⟨hholder, hn, Iff.trans ?_ hiff⟩
      omega
  case owner =>
    intro n c hn hc
    rw [List.length_append] at hn
    exact h.owner n c (by omega) hc

omit [DecidableEq ι] in
theorem Serves.ideintr (h : s.Serves q) (hs : s.ideintr = .ok s') : s'.Serves q.tail := by
  unfold Ide.ideintr at hs
  simp only [h.path.1, h.disk] at hs
  cases q with
  | nil =>
    cases hs
    have hsame : s.served ++ ([] : List (Fin nbuf)).head?.toList = s.served := List.append_nil _
    rw [hsame]
    exact ⟨h.path, h.nodup, rfl, h.calls, h.starts, h.waits, h.owner⟩
  | cons b q =>
    have hnext : update s.qnext none (s.qnext (some b)) none = (q.map some).headD none := by
      rw [update_self]
      exact h.path.2.1
    have hstarts := h.starts
    simp only [List.map_cons, List.headD_cons, hnext] at hs
    cases q with
    | nil =>
      cases hs
      exact h.serve rfl (by rw [hstarts, List.append_assoc]; rfl)
    | cons c q =>
      simp only [List.map_cons, List.headD_cons, idestart] at hs
      split at hs <;> cases hs
      exact h.serve rfl (by rw [hstarts]; rfl)

theorem Serves.turn (h : s.Serves q) {n : Nat} (hi : s.call i = some (n, b))
    (hready : s.ready b = true) :
    Serves { s with call := update s.call i none } q := by
  refine ⟨h.path, h.nodup, h.disk, h.calls, h.starts, fun j m c hj => ?_, fun m c hm hc => ?_⟩
  · by_cases hji : j = i
    · subst hji
      simp at hj
    · simp only [update_of_ne hji] at hj
      exact h.waits j m c hj
  · obtain ⟨j, hj⟩ := h.owner m c hm hc
    have hji : j ≠ i := by
      rintro rfl
      obtain ⟨rfl, rfl⟩ := Prod.mk.inj (Option.some.inj (hj.symm.trans hi))
      exact Nat.not_lt.mpr hm ((h.waits j m c hj).2.2.mpr hready)
    exact ⟨j, by simp only [update_of_ne hji, hj]⟩

theorem Serves.step (h : s.Serves q) {a : IdeAction ι} (hs : s.step a = .ok s') :
    ∃ q', s'.Serves q' := by
  cases a with
  | iderw i b =>
    rw [Ide.step] at hs
    cases hi : s.call i with
    | some c => simp [hi] at hs
    | none =>
      rw [hi] at hs
      exact ⟨_, h.iderw hi hs⟩
  | turn i =>
    rw [Ide.step] at hs
    cases hi : s.call i with
    | none => simp [hi] at hs
    | some c =>
      simp only [hi, Except.ok.injEq] at hs
      subst hs
      split
      case isTrue hready => exact ⟨q, h.turn hi hready⟩
      case isFalse => exact ⟨q, h⟩
  | finish =>
    rw [Ide.step] at hs
    split at hs <;> cases hs
    exact ⟨q, h.path, h.nodup, h.disk, h.calls, h.starts, h.waits, h.owner⟩
  | ideintr =>
    rw [Ide.step] at hs
    split at hs
    · exact ⟨_, h.ideintr hs⟩
    · cases hs
  | other b x =>
    rw [Ide.step] at hs
    split at hs
    case isTrue => cases hs
    case isFalse hfree =>
      cases hs
      refine ⟨q, h.path, h.nodup, h.disk, h.calls, h.starts, fun i n c hi => ?_, h.owner⟩
      obtain ⟨hholder, hwait⟩ := h.waits i n c hi
      have hcb : c ≠ b := by
        rintro rfl
        rw [hholder, Option.any_some, show s.call i = some (n, c) from hi] at hfree
        exact hfree rfl
      simp only [ready, update_of_ne hcb]
      exact ⟨hholder, hwait⟩

/-! ## The queue of the buffer cache -/

/-- The pointers implement the queue of the buffer cache. -/
structure Shows (s : Ide ι) (c : Bcache ι) : Prop where
  serves : s.Serves c.idequeue
  buf : s.buf = c.buf

omit [DecidableEq ι] in
theorem idestart_buf (hs : s.idestart b = .ok s') : s'.buf = s.buf := by
  unfold idestart at hs
  split at hs <;> cases hs
  rfl

variable {c : Bcache ι}

/-- An `iderw` that does not halt is the one of the cache. -/
theorem Shows.iderw (h : s.Shows c) (hi : s.call i = none) (hs : s.iderw i b = .ok s') :
    ∃ c', c.iderw i b = .ok c' ∧ s'.Shows c' := by
  have hserves := h.serves.iderw hi hs
  unfold Ide.iderw at hs
  split at hs
  · cases hs
  split at hs
  · cases hs
  split at hs
  · cases hs
  rename_i hlock hready _
  rw [h.buf] at hlock
  rw [ready, h.buf] at hready
  refine ⟨_, by rw [Bcache.iderw, if_neg hlock, if_neg hready], hserves, ?_⟩
  dsimp only at hs
  split at hs
  · cases hs
  split at hs
  · exact (idestart_buf hs).trans h.buf
  · cases hs
    exact h.buf

omit [DecidableEq ι] in
theorem Shows.ideintr (h : s.Shows c) (hs : s.ideintr = .ok s') : s'.Shows c.ideintr := by
  have hserves := h.serves.ideintr hs
  have hfirst := h.serves.path.1
  unfold Ide.ideintr at hs
  unfold Bcache.ideintr
  cases hq : c.idequeue with
  | nil =>
    rw [hq] at hfirst hserves
    simp only [hfirst, List.map_nil, List.headD_nil, Except.ok.injEq] at hs
    exact ⟨by rw [hq]; exact hserves, by rw [← hs]; exact h.buf⟩
  | cons b q =>
    rw [hq] at hfirst hserves
    refine ⟨hserves, ?_⟩
    simp only [hfirst, List.map_cons, List.headD_cons] at hs
    have hbuf : update s.buf b { s.buf b with valid := true, dirty := false }
        = (({ c with idequeue := q } : Bcache ι).setBuf b
          { c.buf b with valid := true, dirty := false }).buf := by
      rw [h.buf]
      rfl
    split at hs
    · cases hs
      exact hbuf
    · exact (idestart_buf hs).trans hbuf

/-- **The disk queue serves each request once, in order**, in every run by any number of processes:
no buffer is in the queue twice, and the disk has the command of the first, and of no other; the
commands completed, and those started, are the first of the calls, in order; and a call returns only
after the command of that number, which was its own, with its buffer valid and not dirty. -/
theorem disk_queue_in_order (buf : Fin nbuf → Buf ι)
    (qnext : Option (Fin nbuf) → Option (Fin nbuf)) (havedisk1 : Bool) (as : List (IdeAction ι))
    (t : Ide ι) (hr : run step (init buf qnext havedisk1) as = .ok t) :
    ∃ q, Path t.qnext (none :: q.map some) none ∧ q.Nodup ∧ t.disk = q.head? ∧
      t.calls = t.served ++ q ∧ t.starts = t.served ++ q.head?.toList ∧
      ∀ i t', t.step (.turn i) = .ok t' → t'.call i = none →
        ∃ n b, t.call i = some (n, b) ∧ t.calls[n]? = some b ∧ t.served[n]? = some b ∧
          (t'.buf b).valid = true ∧ (t'.buf b).dirty = false := by
  obtain ⟨q, h⟩ := run_invariant_of_step (fun s : Ide ι => ∃ q, s.Serves q)
    (fun _ _ _ ⟨_, h⟩ hs => h.step hs) ⟨[], serves_init buf qnext havedisk1⟩ hr
  refine ⟨q, h.path, h.nodup, h.disk, h.calls, h.starts, fun i t' hs hreturn => ?_⟩
  rw [step] at hs
  cases hi : t.call i with
  | none => simp [hi] at hs
  | some c =>
    obtain ⟨n, b⟩ := c
    simp only [hi, Except.ok.injEq] at hs
    obtain ⟨-, hn, hserved⟩ := h.waits i n b hi
    by_cases hready : t.ready b = true
    · have hlt := hserved.mpr hready
      have hflags := hready
      rw [ready, Bool.and_eq_true, Bool.not_eq_true'] at hflags
      rw [if_pos hready] at hs
      subst hs
      refine ⟨n, b, rfl, hn, ?_, hflags⟩
      rwa [h.calls, List.getElem?_append_left hlt] at hn
    · rw [if_neg hready] at hs
      subst hs
      rw [hi] at hreturn
      cases hreturn

/-- Two processes ask for two blocks: while the first request is on the disk, the second waits. -/
theorem disk_queue_in_order_two :
    let buf : Fin nbuf → Buf (Fin 2) := fun b =>
      ⟨0#32, BitVec.ofNat 32 b, false, false, 1, some (if b = 0 then 0 else 1)⟩
    let as :
    List (IdeAction (Fin 2)) := [.iderw 0 0, .turn 0, .iderw 1 5, .finish, .ideintr, .turn 0]
    ∃ t, run step (init buf id false) as = .ok t ∧ t.call 0 = none ∧ t.disk = some 5 ∧
      ∃ q, t.disk = q.head? ∧ [0, 5] = t.served ++ q := by
  intro buf as
  obtain ⟨t, ht, hq⟩ := run_ok_of_eval step (init buf id false) as
    (fun t => decide (t.call 0 = none ∧ t.disk = some 5 ∧ t.calls = [0, 5])) (by decide +kernel)
  obtain ⟨hreturn, hdisk, hcalls⟩ := of_decide_eq_true hq
  obtain ⟨q, -, -, hhead, hserved, -⟩ := disk_queue_in_order buf id false as t ht
  exact ⟨t, ht, hreturn, hdisk, q, hhead, hcalls.symm.trans hserved⟩

end Ide

end Xv6Mmap
