import Xv6Mmap.Proc
import Xv6Mmap.Lib.Run

/-!
# Parents, zombies and `kill` (`proc.c:68-99`, `proc.c:288-322`, `proc.c:415-424`,
`proc.c:485-587`, `proc.c:754-772`)

The process table as any number of processors see it: what is done under `ptable.lock` is one step,
and `fork`, which holds the lock only twice, is cut into the steps between which another process can
come in: `allocproc` takes a slot, then the fork fails and gives it back, or sets `np->parent`, and
at last makes it `RUNNABLE`. One pass of the loop of `wait` is one step, which returns or sleeps.
The scheduler, and sleeping on other channels, may come at any time. Memory and files are left out
here: a call that panics for want of memory ends the run.

As ghosts, every process has a number `id` that is never used again, `called` says that `kill` was
called with the process's pid since it has it, and `log` is what happened.

* **`reaped_once`**: every process but init has a parent that lives; only `wait` of that parent frees
  a zombie; an exited process is reaped at most once, by the process that forked it or, when that
  has exited, by init, and is a zombie until then.
* **`kill_hits_target_of_guarded_run`**: `kill` returns 0 only for the pid of a process, and a new
  process was not killed before it got its pid, when no `kill` is called with a pid that an `UNUSED`
  slot holds and no `fork` fails in a slot that was killed (`kill_zero_hits_next_fork`).
-/

namespace Xv6Mmap.Ptable

open Lib
open Function (update update_self update_of_ne update_apply)

/-- How far a process has come in a call. -/
inductive Pc where
  | user
  /-- In `fork`, with slot `np`; `np->parent` was set or not. -/
  | forking (np : Fin nproc) (adopted : Bool)
  /-- In the loop of `wait`. -/
  | waiting
  deriving DecidableEq, Repr

/-- `struct proc`, with what its process is about. -/
structure Slot where
  state : ProcState
  pid : Word
  parent : Option (Fin nproc)
  killed : Bool
  /-- The slot that it sleeps on, in `wait`; `none` for any other channel. -/
  chan : Option (Fin nproc)
  pc : Pc
  /-- What its last call returned. -/
  ret : Word
  id : Nat
  called : Bool

inductive Event where
  | forked (id father : Nat) (pid : Word)
  | exited (id : Nat)
  | reaped (id waiter : Nat) (pid : Word)
  deriving DecidableEq, Repr

structure Table where
  slot : Fin nproc → Slot
  nextpid : Word
  initproc : Fin nproc
  fresh : Nat
  log : List Event

inductive Action where
  /-- `fork`, up to the end of the lock of `allocproc`. -/
  | fork (p : Fin nproc)
  /-- The rest of a `fork` that finds no memory. -/
  | fail (p : Fin nproc)
  /-- `np->parent = curproc`. -/
  | adopt (p : Fin nproc)
  /-- The end of a `fork` that succeeds. -/
  | done (p : Fin nproc)
  | exit (p : Fin nproc)
  | wait (p : Fin nproc)
  | kill (p : Fin nproc) (pid : Word)
  | schedule (p : Fin nproc)
  | yield (p : Fin nproc)
  | sleep (p : Fin nproc)
  | wakeup (p : Fin nproc)
  deriving DecidableEq, Repr

def Slot.unused : Slot := ⟨.unused, 0#32, none, false, none, .user, 0#32, 0, false⟩

theorem nproc_pos : 0 < nproc := by decide

/-- The first slot. -/
def first : Fin nproc := ⟨0, nproc_pos⟩

/-- The table after `userinit`. -/
def boot : Table where
  slot q := if q = first then { Slot.unused with state := .runnable, pid := 1#32 } else Slot.unused
  nextpid := 2#32
  initproc := first
  fresh := 1
  log := []

namespace Table

variable (s : Table)

def set (q : Fin nproc) (x : Slot) : Table := { s with slot := update s.slot q x }

/-- `return r`. -/
def returns (p : Fin nproc) (r : Word) : Table :=
  s.set p { s.slot p with pc := .user, ret := r }

/-- The slot that `allocproc` takes. -/
def free : Option (Fin nproc) :=
  (List.finRange nproc).find? fun q => (s.slot q).state = .unused

/-- `fork`, with slot `q` from `allocproc`. -/
def allocproc (p q : Fin nproc) : Table :=
  { s.set q { s.slot q with
      state := .embryo
      pid := s.nextpid
      pc := .user
      id := s.fresh
      called := false } with
    nextpid := s.nextpid + 1#32
    fresh := s.fresh + 1
    log := .forked s.fresh (s.slot p).id s.nextpid :: s.log }.set p
      { s.slot p with pc := .forking q false }

/-- `wakeup1(&ptable.proc[c])`. -/
def wakeup1 (c : Fin nproc) : Table :=
  { s with slot := fun q =>
      if (s.slot q).state = .sleeping ∧ (s.slot q).chan = some c then
        { s.slot q with state := .runnable }
      else s.slot q }

/-- The children of `p` get init as their parent. -/
def reparent (p : Fin nproc) : Table :=
  { s with slot := fun q =>
      if (s.slot q).parent = some p then { s.slot q with parent := some s.initproc }
      else s.slot q }

/-- The loop of `exit` that passes abandoned children to init. -/
def abandon (p : Fin nproc) : Table :=
  if ∃ q, (s.slot q).parent = some p ∧ (s.slot q).state = .zombie then
    (s.reparent p).wakeup1 s.initproc
  else s.reparent p

/-- `exit` of `p`, whose parent is `pp`, from `acquire(&ptable.lock)` to `sched()`. -/
def exit (p pp : Fin nproc) : Table :=
  let s' := (s.wakeup1 pp).abandon p
  { s'.set p { s'.slot p with state := .zombie } with
    log := .exited (s.slot p).id :: s.log }

/-- The zombie that the loop of `wait` finds first. -/
def zombieOf (p : Fin nproc) : Option (Fin nproc) :=
  (List.finRange nproc).find? fun q => (s.slot q).parent = some p ∧ (s.slot q).state = .zombie

/-- `wait` of `p` frees slot `q`. -/
def reap (p q : Fin nproc) : Table :=
  { s.set q { s.slot q with pid := 0#32, parent := none, killed := false, state := .unused } with
    log := .reaped (s.slot q).id (s.slot p).id (s.slot q).pid :: s.log }.returns p (s.slot q).pid

/-- A pass of the loop of `wait`. -/
def wait (p : Fin nproc) : Table :=
  match s.zombieOf p with
  | some q => s.reap p q
  | none =>
    if (¬ ∃ q, (s.slot q).parent = some p) ∨ (s.slot p).killed = true then s.returns p (-1)
    else s.set p { s.slot p with state := .sleeping, chan := some p, pc := .waiting }

/-- The slot that `kill(pid)` finds first. -/
def target (pid : Word) : Option (Fin nproc) :=
  (List.finRange nproc).find? fun q => (s.slot q).pid = pid

/-- `kill(pid)`, less its return. -/
def kill (pid : Word) : Table :=
  { s with slot := fun q =>
      let x := s.slot q
      let x := if x.pid = pid then { x with called := true } else x
      if s.target pid = some q then
        { x with
          killed := true
          state := if x.state = .sleeping then .runnable else x.state }
      else x }

/-- An action, where the process can take it. -/
def step : Action → Except Halt Table
  | .fork p =>
    if (s.slot p).state = .running ∧ (s.slot p).pc = .user then
      match s.free with
      | none => .ok (s.returns p (-1))
      | some q => .ok (s.allocproc p q)
    else .error .blocked
  | .fail p =>
    match (s.slot p).state, (s.slot p).pc with
    | .running, .forking np false =>
      .ok ((s.set np { s.slot np with state := .unused }).returns p (-1))
    | _, _ => .error .blocked
  | .adopt p =>
    match (s.slot p).state, (s.slot p).pc with
    | .running, .forking np false =>
      .ok ((s.set np { s.slot np with parent := some p }).set p
        { s.slot p with pc := .forking np true })
    | _, _ => .error .blocked
  | .done p =>
    match (s.slot p).state, (s.slot p).pc with
    | .running, .forking np true =>
      .ok ((s.set np { s.slot np with state := .runnable }).returns p (s.slot np).pid)
    | _, _ => .error .blocked
  | .exit p =>
    if (s.slot p).state = .running ∧ (s.slot p).pc = .user then
      if p = s.initproc then .error (.panic "init exiting")
      else
        match (s.slot p).parent with
        | none => .error .badDeref
        | some pp => .ok (s.exit p pp)
    else .error .blocked
  | .wait p =>
    if (s.slot p).state = .running ∧ ((s.slot p).pc = .user ∨ (s.slot p).pc = .waiting) then
      .ok (s.wait p)
    else .error .blocked
  | .kill p pid =>
    if (s.slot p).state = .running ∧ (s.slot p).pc = .user then
      .ok ((s.kill pid).returns p (if s.target pid = none then -1 else 0))
    else .error .blocked
  | .schedule p =>
    if (s.slot p).state = .runnable then .ok (s.set p { s.slot p with state := .running })
    else .error .blocked
  | .yield p =>
    if (s.slot p).state = .running then .ok (s.set p { s.slot p with state := .runnable })
    else .error .blocked
  | .sleep p =>
    if (s.slot p).state = .running ∧ (s.slot p).pc = .user then
      .ok (s.set p { s.slot p with state := .sleeping, chan := none })
    else .error .blocked
  | .wakeup p =>
    if (s.slot p).state = .sleeping ∧ (s.slot p).chan = none then
      .ok (s.set p { s.slot p with state := .runnable })
    else .error .blocked

end Table

/-! ## The family -/

/-- Who is whose parent. -/
structure Family (s : Table) : Prop where
  init : (s.slot s.initproc).state.live = true
  initParent : (s.slot s.initproc).parent = none
  unused : ∀ q, (s.slot q).state = .unused → (s.slot q).parent = none
  parent : ∀ q, q ≠ s.initproc → (s.slot q).state ≠ .unused → (s.slot q).state ≠ .embryo →
    ∃ p, (s.slot q).parent = some p ∧ (s.slot p).state.live = true
  /-- A process in `fork` lives, and its slot is its own. -/
  forking : ∀ p np a, (s.slot p).pc = .forking np a → (s.slot p).state.live = true ∧
    (s.slot np).state = .embryo ∧ (s.slot np).parent = if a then some p else none
  alone : ∀ p p' np a a', (s.slot p).pc = .forking np a → (s.slot p').pc = .forking np a' → p = p'

attribute [grind] ProcState.live

/-- Nobody is born, dies or is adopted: processes are scheduled, sleep, wake, or return. -/
structure Alike (s s' : Table) : Prop where
  initproc : s'.initproc = s.initproc
  fresh : s'.fresh = s.fresh
  log : s'.log = s.log
  parent : ∀ q, (s'.slot q).parent = (s.slot q).parent
  id : ∀ q, (s'.slot q).id = (s.slot q).id
  pid : ∀ q, (s'.slot q).pid = (s.slot q).pid
  state : ∀ q, (s'.slot q).state = (s.slot q).state ∨
    (s'.slot q).state.live = true ∧ (s.slot q).state.live = true
  forking : ∀ q np a, (s'.slot q).pc = .forking np a ↔ (s.slot q).pc = .forking np a

section Alike

variable {s s' s'' : Table} {p q : Fin nproc}

theorem Alike.refl (s : Table) : Alike s s :=
  ⟨rfl, rfl, rfl, fun _ => rfl, fun _ => rfl, fun _ => rfl, fun _ => .inl rfl, fun _ _ _ => .rfl⟩

theorem Alike.trans (h : Alike s s') (h' : Alike s' s'') : Alike s s'' where
  initproc := h'.initproc.trans h.initproc
  fresh := h'.fresh.trans h.fresh
  log := h'.log.trans h.log
  parent q := (h'.parent q).trans (h.parent q)
  id q := (h'.id q).trans (h.id q)
  pid q := (h'.pid q).trans (h.pid q)
  state q := by
    rcases h'.state q with h2 | ⟨h2, h1⟩
    · rw [h2]
      exact h.state q
    · rcases h.state q with h0 | ⟨-, h0⟩
      · exact .inr ⟨h2, h0 ▸ h1⟩
      · exact .inr ⟨h2, h0⟩
  forking q np a := (h'.forking q np a).trans (h.forking q np a)

theorem alike_set {x : Slot} (hparent : x.parent = (s.slot p).parent) (hid : x.id = (s.slot p).id)
    (hpid : x.pid = (s.slot p).pid)
    (hstate : x.state = (s.slot p).state ∨ x.state.live = true ∧ (s.slot p).state.live = true)
    (hpc : ∀ np a, x.pc = .forking np a ↔ (s.slot p).pc = .forking np a) :
    Alike s (s.set p x) := by
  constructor <;> simp only [Table.set, update_apply] <;> grind

theorem alike_returns (r : Word) (hpc : ∀ np a, (s.slot p).pc ≠ .forking np a) :
    Alike s (s.returns p r) :=
  alike_set rfl rfl rfl (.inl rfl) fun np a => ⟨nofun, fun h => absurd h (hpc np a)⟩

theorem alike_wakeup1 (c : Fin nproc) : Alike s (s.wakeup1 c) := by
  constructor <;> simp only [Table.wakeup1] <;> grind

theorem alike_kill (pid : Word) : Alike s (s.kill pid) := by
  constructor <;> simp only [Table.kill] <;> grind

theorem Alike.live_iff (h : Alike s s') (q : Fin nproc) :
    (s'.slot q).state.live = true ↔ (s.slot q).state.live = true := by
  rcases h.state q with he | ⟨h', h⟩
  · rw [he]
  · exact ⟨fun _ => h, fun _ => h'⟩

theorem Alike.state_iff (h : Alike s s') {x : ProcState} (hx : x.live = false) (q : Fin nproc) :
    (s'.slot q).state = x ↔ (s.slot q).state = x := by
  rcases h.state q with he | ⟨h', h⟩
  · rw [he]
  · exact ⟨fun he => absurd (he ▸ h') (by simp [hx]), fun he => absurd (he ▸ h) (by simp [hx])⟩

theorem Family.alike (h : Family s) (ha : Alike s s') : Family s' where
  init := by
    rw [ha.initproc, ha.live_iff]
    exact h.init
  initParent := by
    rw [ha.initproc, ha.parent]
    exact h.initParent
  unused q hq := by
    rw [ha.parent]
    exact h.unused q ((ha.state_iff rfl q).mp hq)
  parent q hq hu he := by
    rw [ha.initproc] at hq
    obtain ⟨p, hp, hlive⟩ := h.parent q hq (mt (ha.state_iff rfl q).mpr hu)
      (mt (ha.state_iff rfl q).mpr he)
    exact ⟨p, (ha.parent q).trans hp, (ha.live_iff p).mpr hlive⟩
  forking p np a hpc := by
    obtain ⟨hlive, hnp, hparent⟩ := h.forking p np a ((ha.forking p np a).mp hpc)
    exact ⟨(ha.live_iff p).mpr hlive, (ha.state_iff rfl np).mpr hnp, (ha.parent np).trans hparent⟩
  alone p p' np a a' hp hp' :=
    h.alone p p' np a a' ((ha.forking p np a).mp hp) ((ha.forking p' np a').mp hp')

end Alike

/-- The slot `q` becomes `x`, as far as families go, and process `p` is then at `c`. -/
structure Changes (s s' : Table) (p q : Fin nproc) (x : Slot) (c : Pc) (es : List Event) : Prop where
  ne : p ≠ q
  initproc : s'.initproc = s.initproc
  fresh : s.fresh ≤ s'.fresh
  log : s'.log = es ++ s.log
  state : ∀ r, (s'.slot r).state = if r = q then x.state else (s.slot r).state
  parent : ∀ r, (s'.slot r).parent = if r = q then x.parent else (s.slot r).parent
  id : ∀ r, (s'.slot r).id = if r = q then x.id else (s.slot r).id
  pid : ∀ r, (s'.slot r).pid = if r = q then x.pid else (s.slot r).pid
  pc : ∀ r, (s'.slot r).pc = if r = p then c else if r = q then x.pc else (s.slot r).pc

/-- The slot that `allocproc` has taken. -/
def Table.embryo (s : Table) (q : Fin nproc) : Slot :=
  { s.slot q with state := .embryo, pid := s.nextpid, pc := .user, id := s.fresh, called := false }

/-- The slot that `wait` leaves. -/
def Table.reaped (s : Table) (q : Fin nproc) : Slot :=
  { s.slot q with pid := 0#32, parent := none, killed := false, state := .unused }

/-- What a step of `fork`, or a `wait` that returns, makes of the slot `q`, where its process `p` is
then, and what it logs. -/
inductive Turn (s s' : Table) (p q : Fin nproc) : Action → Slot → Pc → List Event → Prop where
  | fork (hp : (s.slot p).state = .running) (hq : (s.slot q).state = .unused)
      (hfresh : s'.fresh = s.fresh + 1) : Turn s s' p q (.fork p) (s.embryo q) (.forking q false)
      [.forked s.fresh (s.slot p).id s.nextpid]
  | fail (hpc : (s.slot p).pc = .forking q false) :
      Turn s s' p q (.fail p) { s.slot q with state := .unused } .user []
  | adopt (hpc : (s.slot p).pc = .forking q false) :
      Turn s s' p q (.adopt p) { s.slot q with parent := some p } (.forking q true) []
  | done (hpc : (s.slot p).pc = .forking q true) :
      Turn s s' p q (.done p) { s.slot q with state := .runnable } .user []
  | reap (hp : (s.slot p).state = .running) (hz : (s.slot q).state = .zombie)
      (hq : (s.slot q).parent = some p) (hret : (s'.slot p).ret = (s.slot q).pid) :
      Turn s s' p q (.wait p) (s.reaped q) .user
        [.reaped (s.slot q).id (s.slot p).id (s.slot q).pid]

section Changes

variable {s s' : Table} {p q r : Fin nproc} {x : Slot} {c : Pc} {es : List Event}

theorem Changes.other (hc : Changes s s' p q x c es) (hr : r ≠ q) :
    (s'.slot r).state = (s.slot r).state ∧ (s'.slot r).id = (s.slot r).id ∧
      (s'.slot r).pid = (s.slot r).pid ∧ (s'.slot r).parent = (s.slot r).parent := by
  rw [hc.state, hc.id, hc.pid, hc.parent]
  simp [hr]

theorem changes_allocproc (hne : p ≠ q) :
    Changes s (s.allocproc p q) p q (s.embryo q) (.forking q false)
      [.forked s.fresh (s.slot p).id s.nextpid] := by
  refine ⟨hne, rfl, Nat.le_succ _, rfl, ?_, ?_, ?_, ?_, ?_⟩ <;>
    simp only [Table.allocproc, Table.embryo, Table.set, update_apply] <;> grind

theorem changes_set_returns (hne : p ≠ q) (x : Slot) (r : Word) :
    Changes s ((s.set q x).returns p r) p q x .user [] := by
  refine ⟨hne, rfl, Nat.le_refl _, rfl, ?_, ?_, ?_, ?_, ?_⟩ <;>
    simp only [Table.returns, Table.set, update_apply] <;> grind

theorem changes_adopt (hne : p ≠ q) :
    Changes s ((s.set q { s.slot q with parent := some p }).set p
      { s.slot p with pc := .forking q true }) p q { s.slot q with parent := some p }
      (.forking q true) [] := by
  refine ⟨hne, rfl, Nat.le_refl _, rfl, ?_, ?_, ?_, ?_, ?_⟩ <;>
    simp only [Table.set, update_apply] <;> grind

theorem changes_reap (hne : p ≠ q) :
    Changes s (s.reap p q) p q (s.reaped q) .user
      [.reaped (s.slot q).id (s.slot p).id (s.slot q).pid] := by
  refine ⟨hne, rfl, Nat.le_refl _, rfl, ?_, ?_, ?_, ?_, ?_⟩ <;>
    simp only [Table.reap, Table.reaped, Table.returns, Table.set, update_apply] <;> grind

end Changes

section Family

variable {s s' : Table} {p q pp : Fin nproc} {a : Action} {x : Slot} {c : Pc} {es : List Event}

theorem family_boot : Family boot := by
  constructor <;> simp only [boot, Slot.unused] <;> grind

/-- The slot of an embryo is not that of the process that forks. -/
theorem Family.forker (h : Family s) {b : Bool} (hpc : (s.slot p).pc = .forking q b) :
    p ≠ q ∧ (s.slot q).state = .embryo := by
  obtain ⟨hlive, hq, -⟩ := h.forking p q b hpc
  refine ⟨?_, hq⟩
  rintro rfl
  rw [hq] at hlive
  cases hlive

/-- No process lives in the slot that a step of `fork` or `wait` changes. -/
theorem Turn.not_live (h : Family s) (ht : Turn s s' p q a x c es) :
    (s.slot q).state.live = false := by
  cases ht with
  | fork _ hq => rw [hq]; rfl
  | fail hpc | adopt hpc | done hpc => rw [(h.forker hpc).2]; rfl
  | reap _ hz => rw [hz]; rfl

theorem Family.turn (h : Family s) (ht : Turn s s' p q a x c es)
    (hc : Changes s s' p q x c es) : Family s' := by
  obtain ⟨hinit, hinitParent, hunused, hparent, hforking, halone⟩ := h
  obtain ⟨cne, cinit, -, -, cstate, cparent, -, -, cpc⟩ := hc
  cases ht <;> simp only [Table.embryo, Table.reaped] at cstate cparent cpc <;>
    constructor <;> grind

/-- What `exit` does to the slots. -/
structure Exits (s s' : Table) (p : Fin nproc) : Prop where
  initproc : s'.initproc = s.initproc
  fresh : s'.fresh = s.fresh
  log : s'.log = .exited (s.slot p).id :: s.log
  parent : ∀ q, (s'.slot q).parent
    = if (s.slot q).parent = some p then some s.initproc else (s.slot q).parent
  id : ∀ q, (s'.slot q).id = (s.slot q).id
  pid : ∀ q, (s'.slot q).pid = (s.slot q).pid
  forking : ∀ q np a, (s'.slot q).pc = .forking np a ↔ (s.slot q).pc = .forking np a
  zombie : (s'.slot p).state = .zombie
  state : ∀ q, q ≠ p → (s'.slot q).state = (s.slot q).state ∨
    (s'.slot q).state.live = true ∧ (s.slot q).state.live = true

theorem alike_abandon (s : Table) (p : Fin nproc) : Alike (s.reparent p) (s.abandon p) := by
  unfold Table.abandon
  split
  · exact alike_wakeup1 _
  · exact .refl _

theorem exits_exit (s : Table) (p pp : Fin nproc) : Exits s (s.exit p pp) p := by
  have hw : Alike s (s.wakeup1 pp) := alike_wakeup1 pp
  have ha := alike_abandon (s.wakeup1 pp) p
  obtain ⟨winit, wfresh, wlog, wparent, wid, wpid, wstate, wforking⟩ := hw
  obtain ⟨ainit, afresh, alog, aparent, aid, apid, astate, aforking⟩ := ha
  simp only [Table.reparent] at ainit afresh alog aparent aid apid astate aforking
  constructor <;> simp only [Table.exit, Table.set, update_apply] <;> grind

theorem Exits.live {s' : Table} (he : Exits s s' p) (hq : q ≠ p)
    (hlive : (s.slot q).state.live = true) : (s'.slot q).state.live = true := by
  rcases he.state q hq with h | h
  · rwa [h]
  · exact h.1

theorem Exits.stays {s' : Table} (he : Exits s s' p) (hq : q ≠ p) {x : ProcState}
    (hx : x.live = false) (hs : (s.slot q).state = x) : (s'.slot q).state = x := by
  grind [he.state q hq]

/-- A slot that holds a process after an `exit` held it before. -/
theorem Exits.used {s' : Table} (he : Exits s s' p) (hp : (s.slot p).state = .running)
    {x : ProcState} (hx : x.live = false) (hz : x ≠ .zombie) :
    (s'.slot q).state = x ↔ (s.slot q).state = x := by
  by_cases hq : q = p
  · subst hq
    rw [he.zombie, hp]
    grind
  · grind [he.state q hq]

theorem Family.exit {s' : Table} (h : Family s) (he : Exits s s' p) (hpi : p ≠ s.initproc)
    (hp : (s.slot p).state = .running) (hpc : (s.slot p).pc = .user) : Family s' where
  init := he.initproc ▸ he.live (Ne.symm hpi) h.init
  initParent := by
    rw [he.initproc, he.parent, h.initParent]
    simp
  unused q hq := by
    rw [he.parent, h.unused q ((he.used hp (x := .unused) rfl nofun).mp hq)]
    simp
  parent q hqi hu hem := by
    obtain ⟨pp, hpp, hlive⟩ := h.parent q (he.initproc ▸ hqi)
      (mt (he.used hp (x := .unused) rfl nofun).mpr hu)
      (mt (he.used hp (x := .embryo) rfl nofun).mpr hem)
    rw [he.parent, hpp]
    by_cases hc : pp = p
    · exact ⟨s.initproc, by simp [hc], he.live (Ne.symm hpi) h.init⟩
    · exact ⟨pp, by simp [hc], he.live hc hlive⟩
  forking p' np a hf := by
    have hf' := (he.forking p' np a).mp hf
    obtain ⟨hlive, hnp, hparent⟩ := h.forking p' np a hf'
    have hne : p' ≠ p := by
      rintro rfl
      rw [hpc] at hf'
      cases hf'
    refine ⟨he.live hne hlive, (he.used hp (x := .embryo) rfl nofun).mpr hnp, ?_⟩
    rw [he.parent, hparent]
    cases a <;> simp [hne]
  alone p1 p2 np a a' h1 h2 :=
    h.alone p1 p2 np a a' ((he.forking p1 np a).mp h1) ((he.forking p2 np a').mp h2)

end Family

/-! ## The log -/

/-- The numbers of processes. -/
structure Ids (s : Table) : Prop where
  init : (s.slot s.initproc).id = 0
  fresh : ∀ q, (s.slot q).state ≠ .unused → (s.slot q).id < s.fresh
  distinct : ∀ q q', (s.slot q).state ≠ .unused → (s.slot q').state ≠ .unused →
    (s.slot q).id = (s.slot q').id → q = q'

/-- Who forked whom. -/
structure Fathers (s : Table) : Prop where
  lt : ∀ i f pid, .forked i f pid ∈ s.log → i < s.fresh
  once : ∀ i f pid f' pid', .forked i f pid ∈ s.log → .forked i f' pid' ∈ s.log →
    f = f' ∧ pid = pid'
  /-- A process has the pid of its `fork`, and its parent forked it, or its father is gone. -/
  father : ∀ q, q ≠ s.initproc → (s.slot q).state ≠ .unused → (s.slot q).state ≠ .embryo →
    ∃ f pp, .forked (s.slot q).id f (s.slot q).pid ∈ s.log ∧ (s.slot q).parent = some pp ∧
      ((s.slot pp).id = f ∨ pp = s.initproc ∧ .exited f ∈ s.log)
  embryo : ∀ p np a, (s.slot p).pc = .forking np a →
    .forked (s.slot np).id (s.slot p).id (s.slot np).pid ∈ s.log

/-- Who has exited, and was reaped. -/
structure Ends (s : Table) : Prop where
  zombie : ∀ q, (s.slot q).state ≠ .unused →
    ((s.slot q).state = .zombie ↔ .exited (s.slot q).id ∈ s.log)
  exited : ∀ i, .exited i ∈ s.log → i < s.fresh ∧
    ((∃ q, (s.slot q).state = .zombie ∧ (s.slot q).id = i) ∨ ∃ w pid, .reaped i w pid ∈ s.log)
  reaped : ∀ i w pid, .reaped i w pid ∈ s.log →
    (∀ q, (s.slot q).state ≠ .unused → (s.slot q).id ≠ i) ∧ .exited i ∈ s.log ∧
      ∃ f, .forked i f pid ∈ s.log ∧ (w = f ∨ w = 0 ∧ .exited f ∈ s.log)
  once : s.log.Pairwise fun e e' => ∀ i w pid w' pid', e = .reaped i w pid → e' ≠ .reaped i w' pid'

/-- What holds of the table and the log in every run. -/
structure Kin (s : Table) : Prop where
  family : Family s
  ids : Ids s
  fathers : Fathers s
  ends : Ends s

section Logged

variable {s s' : Table} {p q pp : Fin nproc}

theorem kin_boot : Kin boot := by
  refine ⟨family_boot, ?_, ?_, ?_⟩ <;> constructor <;> simp only [boot, Slot.unused] <;> grind

theorem Kin.alike (h : Kin s) (ha : Alike s s') : Kin s' := by
  have hu := fun q => ha.state_iff (x := .unused) rfl q
  have he := fun q => ha.state_iff (x := .embryo) rfl q
  have hz := fun q => ha.state_iff (x := .zombie) rfl q
  obtain ⟨ainit, afresh, alog, aparent, aid, apid, -, aforking⟩ := id ha
  refine ⟨h.family.alike ha, ?_, ?_, ?_⟩
  · obtain ⟨hinit, hfresh, hdistinct⟩ := h.ids
    constructor <;> grind
  · obtain ⟨hlt, honce, hfather, hembryo⟩ := h.fathers
    refine ⟨by grind, by grind, fun q hq hqu hqe => ?_, by grind⟩
    obtain ⟨f, pp, hf, hpp, hor⟩ := hfather q (ainit ▸ hq) (mt (hu q).mpr hqu) (mt (he q).mpr hqe)
    exact ⟨f, pp, by rwa [alog, aid, apid], by rwa [aparent], by rwa [aid, ainit, alog]⟩
  · obtain ⟨hzombie, hexited, hreaped, honce⟩ := h.ends
    exact ⟨by grind, by grind, by grind, alog ▸ honce⟩

variable {a : Action} {x : Slot} {c : Pc} {es : List Event}

/-- A process that is no embryo, when another slot changes that holds no living process: its parent
is not that slot. -/
theorem Kin.father_of_changes (h : Kin s) (hc : Changes s s' p q x c es)
    (hq : (s.slot q).state.live = false) {r : Fin nproc} (hrq : r ≠ q) (hr : r ≠ s'.initproc)
    (hu : (s'.slot r).state ≠ .unused) (he : (s'.slot r).state ≠ .embryo) :
    ∃ f pp, .forked (s'.slot r).id f (s'.slot r).pid ∈ s'.log ∧ (s'.slot r).parent = some pp ∧
      ((s'.slot pp).id = f ∨ pp = s'.initproc ∧ .exited f ∈ s'.log) := by
  rw [hc.state, if_neg hrq] at hu he
  rw [hc.initproc] at hr
  obtain ⟨f, pp, hf, hpp, hor⟩ := h.fathers.father r hr hu he
  have hppq : pp ≠ q := by
    rintro rfl
    obtain ⟨p', hp', hlive⟩ := h.family.parent r hr hu he
    rw [hpp, Option.some_inj] at hp'
    rw [hp', hlive] at hq
    cases hq
  refine ⟨f, pp, ?_, ?_, ?_⟩
  · rw [hc.id, hc.pid, hc.log, if_neg hrq, if_neg hrq]
    exact List.mem_append_right _ hf
  · rw [hc.parent, if_neg hrq, hpp]
  · rw [hc.id, if_neg hppq, hc.initproc, hc.log]
    exact hor.imp_right fun ho => ⟨ho.1, List.mem_append_right _ ho.2⟩

/-- A zombie's parent forked it, or is init and the father has exited. -/
theorem Kin.zombie_father (h : Kin s) (hz : (s.slot q).state = .zombie)
    (hq : (s.slot q).parent = some p) : ∃ f, .forked (s.slot q).id f (s.slot q).pid ∈ s.log ∧
      ((s.slot p).id = f ∨ p = s.initproc ∧ .exited f ∈ s.log) := by
  have hqi : q ≠ s.initproc := by
    rintro rfl
    have := h.family.init
    rw [hz] at this
    cases this
  obtain ⟨f, pp, hforked, hpp, hor⟩ := h.fathers.father q hqi (by simp [hz]) (by simp [hz])
  obtain rfl : p = pp := by simpa [hpp] using hq.symm
  exact ⟨f, hforked, hor⟩

theorem Kin.ids_turn (h : Kin s) (ht : Turn s s' p q a x c es) (hc : Changes s s' p q x c es) :
    Ids s' := by
  obtain ⟨hinit, hlt, hdistinct⟩ := h.ids
  have hlive := h.family.init
  have hforking := h.family.forking
  obtain ⟨-, cinit, cfresh, -, cstate, -, cid, -, -⟩ := hc
  cases ht <;> simp only [Table.embryo, Table.reaped] at cstate cid <;> constructor <;> grind

theorem Kin.fathers_turn (h : Kin s) (ht : Turn s s' p q a x c es)
    (hc : Changes s s' p q x c es) : Fathers s' := by
  have hfather := fun r hrq => h.father_of_changes hc (ht.not_live h.family) (r := r) hrq
  obtain ⟨hlt, honce, -, hembryo⟩ := h.fathers
  have hforking := h.family.forking
  have halone := h.family.alone
  obtain ⟨cne, cinit, cfresh, clog, cstate, cparent, cid, cpid, cpc⟩ := hc
  refine ⟨?_, ?_, fun r hr hu he => ?_, ?_⟩
  · cases ht <;> grind
  · cases ht <;> grind
  · by_cases hrq : r = q
    · -- Only `done` leaves a process in the slot: its father is in `fork`, and is its parent.
      subst hrq
      rw [cstate, if_pos rfl] at hu he
      cases ht with
      | fork => exact absurd rfl he
      | fail | reap => exact absurd rfl hu
      | adopt hpc => exact absurd (h.family.forker hpc).2 he
      | done hpc =>
        exact ⟨(s.slot p).id, p, by rw [cid, cpid, clog]; simpa using hembryo p r true hpc,
          by rw [cparent, if_pos rfl, (hforking p r true hpc).2.2, if_pos rfl],
          .inl (by rw [cid, if_neg cne])⟩
    · exact hfather r hrq hr hu he
  · cases ht <;> simp only [Table.embryo, Table.reaped] at cid cpid cpc <;> grind

theorem Kin.ends_turn (h : Kin s) (ht : Turn s s' p q a x c es) (hc : Changes s s' p q x c es) :
    Ends s' := by
  cases ht with
  | fork hp hq hfresh =>
    obtain ⟨hzombie, hexited, hreaped, honce⟩ := h.ends
    have hlt := h.fathers.lt
    obtain ⟨-, cinit, -, clog, cstate, -, cid, -, -⟩ := hc
    simp only [Table.embryo] at cstate cid
    refine ⟨by grind, by grind, by grind, ?_⟩
    rw [clog]
    exact List.pairwise_cons.mpr ⟨by grind, honce⟩
  | fail hpc | adopt hpc | done hpc =>
    have hq := (h.family.forker hpc).2
    obtain ⟨hzombie, hexited, hreaped, honce⟩ := h.ends
    obtain ⟨-, cinit, cfresh, clog, cstate, -, cid, -, -⟩ := hc
    rw [List.nil_append] at clog
    exact ⟨by grind, by grind, by grind, clog ▸ honce⟩
  | reap hp hz hq =>
    obtain ⟨f, hforked, hor⟩ := h.zombie_father hz hq
    have hexited : .exited (s.slot q).id ∈ s.log := (h.ends.zombie q (by simp [hz])).mp hz
    have hwaiter : (s.slot p).id = f ∨ (s.slot p).id = 0 ∧ .exited f ∈ s.log := by
      rcases hor with ho | ⟨ho, hex⟩
      · exact .inl ho
      · exact .inr ⟨ho ▸ h.ids.init, hex⟩
    have hdistinct := h.ids.distinct
    obtain ⟨hzombie, hexited', hreaped, honce⟩ := h.ends
    obtain ⟨-, cinit, cfresh, clog, cstate, -, cid, -, -⟩ := hc
    simp only [Table.reaped] at cstate cid
    refine ⟨by grind, fun i hi => ?_, fun i w pid hi => ?_, ?_⟩
    · have hi' : .exited i ∈ s.log := by simpa [clog] using hi
      obtain ⟨hlt, ⟨r, hr, rfl⟩ | ⟨w, pid, hw⟩⟩ := hexited' i hi'
      · refine ⟨Nat.lt_of_lt_of_le hlt cfresh, ?_⟩
        by_cases hrq : r = q
        · subst hrq
          exact .inr ⟨_, _, by rw [clog]; exact List.mem_cons_self⟩
        · exact .inl ⟨r, by rw [cstate, if_neg hrq, hr], by rw [cid, if_neg hrq]⟩
      · exact ⟨Nat.lt_of_lt_of_le hlt cfresh, .inr ⟨w, pid, by rw [clog]; exact .tail _ hw⟩⟩
    · rw [clog] at hi
      rcases List.mem_cons.mp hi with heq | hi
      · cases heq
        refine ⟨by grind, by rw [clog]; exact .tail _ hexited, f, by rw [clog]; exact .tail _ hforked,
          ?_⟩
        rw [clog]
        exact hwaiter.imp_right fun ho => ⟨ho.1, .tail _ ho.2⟩
      · obtain ⟨hgone, hex, f', hf', ho'⟩ := hreaped i w pid hi
        refine ⟨by grind, by rw [clog]; exact .tail _ hex, f', by rw [clog]; exact .tail _ hf', ?_⟩
        rw [clog]
        exact ho'.imp_right fun ho => ⟨ho.1, .tail _ ho.2⟩
    · rw [clog]
      refine List.pairwise_cons.mpr ⟨fun e he i w pid w' pid' hi hi' => ?_, honce⟩
      cases hi
      exact (hreaped _ w' pid' (hi' ▸ he)).1 q (by simp [hz]) rfl

theorem Kin.turn (h : Kin s) (ht : Turn s s' p q a x c es) (hc : Changes s s' p q x c es) :
    Kin s' :=
  ⟨h.family.turn ht hc, h.ids_turn ht hc, h.fathers_turn ht hc, h.ends_turn ht hc⟩

theorem ne_of_state (hp : (s.slot p).state = .running) {x : ProcState}
    (hq : (s.slot q).state = x) (hx : x ≠ .running) : p ≠ q := by
  rintro rfl
  exact hx (hq.symm.trans hp)

theorem Kin.exit (h : Kin s) (he : Exits s s' p) (hpi : p ≠ s.initproc)
    (hp : (s.slot p).state = .running) (hpc : (s.slot p).pc = .user) : Kin s' := by
  have hu := fun q => he.used (q := q) hp (x := .unused) rfl nofun
  have hem := fun q => he.used (q := q) hp (x := .embryo) rfl nofun
  refine ⟨h.family.exit he hpi hp hpc, ?_, ?_, ?_⟩
  · obtain ⟨hinit, hlt, hdistinct⟩ := h.ids
    obtain ⟨einit, efresh, -, -, eid, -, -, -, -⟩ := he
    constructor <;> grind
  · obtain ⟨hlt, honce, hfather, hembryo⟩ := h.fathers
    obtain ⟨einit, efresh, elog, eparent, eid, epid, eforking, -, -⟩ := he
    refine ⟨by grind, by grind, fun r hr hru hre => ?_, by grind⟩
    obtain ⟨f, pp, hf, hpp, hor⟩ := hfather r (einit ▸ hr) (mt (hu r).mpr hru) (mt (hem r).mpr hre)
    rw [eid, epid, eparent, hpp, elog, einit]
    by_cases hc : pp = p
    · -- The parent exits: the father was it, or was gone before.
      refine ⟨f, s.initproc, .tail _ hf, by simp [hc], .inr ⟨rfl, ?_⟩⟩
      rcases hor with rfl | ⟨-, hex⟩
      · rw [hc]
        exact List.mem_cons_self
      · exact .tail _ hex
    · refine ⟨f, pp, .tail _ hf, by simp [hc], ?_⟩
      rw [eid]
      exact hor.imp_right fun ho => ⟨ho.1, .tail _ ho.2⟩
  · have hdistinct := h.ids.distinct
    have hlt := h.ids.fresh
    have hstays := fun r (hr : (s.slot r).state = .zombie) =>
      he.stays (ne_of_state hp hr nofun).symm rfl hr
    obtain ⟨hzombie, hexited, hreaped, honce⟩ := h.ends
    obtain ⟨einit, efresh, elog, -, eid, -, -, ezombie, estate⟩ := he
    refine ⟨by grind, fun i hi => ?_, by grind, ?_⟩
    · rw [elog] at hi
      rcases List.mem_cons.mp hi with heq | hi
      · cases heq
        exact ⟨by rw [efresh]; exact hlt p (by simp [hp]), .inl ⟨p, ezombie, eid p⟩⟩
      · obtain ⟨hi', ⟨r, hr, rfl⟩ | ⟨w, pid, hw⟩⟩ := hexited i hi
        · exact ⟨by rwa [efresh], .inl ⟨r, hstays r hr, eid r⟩⟩
        · exact ⟨by rwa [efresh], .inr ⟨w, pid, by rw [elog]; exact .tail _ hw⟩⟩
    · rw [elog]
      exact List.pairwise_cons.mpr ⟨by grind, honce⟩

/-- What one action does. -/
inductive Moves (s s' : Table) (a : Action) : Prop where
  | alike (h : Alike s s')
  | turn (p q : Fin nproc) (x : Slot) (c : Pc) (es : List Event) (ht : Turn s s' p q a x c es)
      (hc : Changes s s' p q x c es)
  | exit (p : Fin nproc) (ha : a = .exit p) (hi : p ≠ s.initproc)
      (hp : (s.slot p).state = .running) (hpc : (s.slot p).pc = .user) (he : Exits s s' p)

theorem moves_wait (hp : (s.slot p).state = .running)
    (hpc : (s.slot p).pc = .user ∨ (s.slot p).pc = .waiting) : Moves s (s.wait p) (.wait p) := by
  have hnot : ∀ np a, (s.slot p).pc ≠ .forking np a := by
    intro np a he
    rw [he] at hpc
    simp at hpc
  unfold Table.wait
  split
  · rename_i q hq
    obtain ⟨hparent, hz⟩ := by simpa using List.find?_some hq
    exact .turn p q _ _ _ (.reap hp hz hparent (by simp [Table.reap, Table.returns, Table.set]))
      (changes_reap (ne_of_state hp hz nofun))
  · split
    · exact .alike (alike_returns _ hnot)
    · exact .alike (alike_set rfl rfl rfl (.inr ⟨rfl, by rw [hp]; rfl⟩) fun np a =>
        ⟨nofun, fun h => absurd h (hnot np a)⟩)

theorem Family.moves (h : Family s) (hs : s.step a = .ok s') : Moves s s' a := by
  have huser : ∀ {p}, (s.slot p).pc = .user → ∀ np a, (s.slot p).pc ≠ .forking np a := by
    intro p hp np a he
    rw [hp] at he
    cases he
  cases a with
  | fork p =>
    obtain ⟨hp, hs⟩ := ok_of_guard hs
    split at hs
    · cases hs
      exact .alike (alike_returns _ (huser hp.2))
    · rename_i q hq
      cases hs
      have hq : (s.slot q).state = .unused := by simpa using List.find?_some hq
      exact .turn p q _ _ _ (.fork hp.1 hq rfl) (changes_allocproc (ne_of_state hp.1 hq nofun))
  | fail p =>
    simp only [Table.step] at hs
    split at hs
    · rename_i q _ hpc
      cases hs
      exact .turn p q _ _ _ (.fail hpc) (changes_set_returns (h.forker hpc).1 _ _)
    · cases hs
  | adopt p =>
    simp only [Table.step] at hs
    split at hs
    · rename_i q _ hpc
      cases hs
      exact .turn p q _ _ _ (.adopt hpc) (changes_adopt (h.forker hpc).1)
    · cases hs
  | done p =>
    simp only [Table.step] at hs
    split at hs
    · rename_i q _ hpc
      cases hs
      exact .turn p q _ _ _ (.done hpc) (changes_set_returns (h.forker hpc).1 _ _)
    · cases hs
  | exit p =>
    obtain ⟨hp, hs⟩ := ok_of_guard hs
    split at hs
    · cases hs
    · rename_i hi
      split at hs
      · cases hs
      · rename_i pp _
        cases hs
        exact .exit p rfl hi hp.1 hp.2 (exits_exit s p pp)
  | wait p =>
    obtain ⟨hp, ⟨⟩⟩ := ok_of_guard hs
    exact moves_wait hp.1 hp.2
  | kill p pid =>
    obtain ⟨hp, ⟨⟩⟩ := ok_of_guard hs
    have ha : Alike s (s.kill pid) := alike_kill pid
    exact .alike (ha.trans (alike_returns _ fun np a h =>
      huser hp.2 np a ((ha.forking p np a).mp h)))
  | schedule p | yield p | sleep p | wakeup p =>
    obtain ⟨hp, ⟨⟩⟩ := ok_of_guard hs
    exact .alike (alike_set rfl rfl rfl (.inr ⟨rfl, by simp [hp, ProcState.live]⟩) fun _ _ => .rfl)

theorem Kin.step (h : Kin s) (hs : s.step a = .ok s') : Kin s' := by
  cases h.family.moves hs with
  | alike ha => exact h.alike ha
  | turn p q x c es ht hc => exact h.turn ht hc
  | exit p ha hi hp hpc he => exact h.exit he hi hp hpc

/-- A zombie stays one, with its parent or, when that exits, with init, unless its parent's `wait`
returns its pid; that is the process that forked it, or init when that has exited. -/
def ZombieKept (s : Table) (a : Action) (s' : Table) : Prop :=
  ∀ q, (s.slot q).state = .zombie →
    ((s'.slot q).state = .zombie ∧ (s'.slot q).id = (s.slot q).id ∧
      (s'.slot q).pid = (s.slot q).pid ∧
      ((s'.slot q).parent = (s.slot q).parent ∨
        ∃ p, a = .exit p ∧ (s.slot q).parent = some p ∧ (s'.slot q).parent = some s.initproc)) ∨
    ∃ p, a = .wait p ∧ (s.slot q).parent = some p ∧ (s'.slot q).state = .unused ∧
      (s'.slot p).ret = (s.slot q).pid ∧
      ∃ f, .forked (s.slot q).id f (s.slot q).pid ∈ s.log ∧
        ((s.slot p).id = f ∨ p = s.initproc ∧ .exited f ∈ s.log)

theorem Kin.zombieKept (h : Kin s) (hs : s.step a = .ok s') : ZombieKept s a s' := by
  intro r hr
  cases h.family.moves hs with
  | alike ha => exact .inl ⟨(ha.state_iff rfl r).mpr hr, ha.id r, ha.pid r, .inl (ha.parent r)⟩
  | turn p q x c es ht hc =>
    by_cases hrq : r = q
    · -- The slot of a zombie changes in `wait` only.
      subst hrq
      cases ht with
      | fork _ hq => simp [hq] at hr
      | fail hpc | adopt hpc | done hpc => simp [(h.family.forker hpc).2] at hr
      | reap _ _ hq hret =>
        exact .inr ⟨p, rfl, hq, by rw [hc.state, if_pos rfl]; rfl, hret, h.zombie_father hr hq⟩
    · obtain ⟨hstate, hid, hpid, hparent⟩ := hc.other hrq
      exact .inl ⟨hstate.trans hr, hid, hpid, .inl hparent⟩
  | exit p ha hi hp hpc he =>
    refine .inl ⟨he.stays (ne_of_state hp hr nofun).symm rfl hr, he.id r, he.pid r, ?_⟩
    rw [he.parent]
    by_cases hparent : (s.slot r).parent = some p
    · exact .inr ⟨p, ha, hparent, if_pos hparent⟩
    · exact .inl (if_neg hparent)

end Logged

/-- **Exited children are reaped exactly once.** In every run: a process that is no embryo, other
than init, has a living parent; a zombie stays one, with a living parent, until that parent's `wait`
returns its pid, and that parent is the process that forked it or, when that has exited, init; and
no process is reaped twice, or without having exited. -/
theorem reaped_once (as : List Action) :
    Along Table.step ZombieKept boot as ∧ ∀ t, run Table.step boot as = .ok t →
      (∀ q, q ≠ t.initproc → (t.slot q).state ≠ .unused → (t.slot q).state ≠ .embryo →
        ∃ p, (t.slot q).parent = some p ∧ (t.slot p).state ≠ .unused ∧
          (t.slot p).state ≠ .embryo ∧ (t.slot p).state ≠ .zombie) ∧
      (t.log.Pairwise fun e e' =>
        ∀ i w pid w' pid', e = .reaped i w pid → e' ≠ .reaped i w' pid') ∧
      (∀ i w pid, .reaped i w pid ∈ t.log → .exited i ∈ t.log ∧
        ∃ f, .forked i f pid ∈ t.log ∧ (w = f ∨ w = 0 ∧ .exited f ∈ t.log)) ∧
      (∀ i, .exited i ∈ t.log → (∃ w pid, .reaped i w pid ∈ t.log) ∨
        ∃ q, (t.slot q).state = .zombie ∧ (t.slot q).id = i) := by
  have hkept : Guarded Table.step (fun s _ => Kin s) boot as :=
    guarded_of_invariant Kin (fun _ _ _ h (_ : True) hs => h.step hs) (fun _ _ h _ => h) kin_boot
      (guarded_of_forall (fun _ _ => trivial) _ _)
  refine ⟨along_of_guarded (fun _ _ _ h hs => h.zombieKept hs) hkept, fun t ht => ?_⟩
  have h : Kin t := run_invariant_of_step Kin (fun _ _ _ h hs => h.step hs) kin_boot ht
  refine ⟨fun q hq hu he => ?_, h.ends.once, fun i w pid hi => (h.ends.reaped i w pid hi).2,
    fun i hi => (h.ends.exited i hi).2.symm⟩
  obtain ⟨p, hp, hlive⟩ := h.family.parent q hq hu he
  refine ⟨p, hp, ?_, ?_, ?_⟩ <;> intro hs <;> rw [hs] at hlive <;> cases hlive

/-- The second slot. -/
def second : Fin nproc := ⟨1, by decide⟩

/-- Init forks a process, waits for it, it exits, and is reaped. -/
def forkExitWait : List Action :=
  [.schedule first, .fork first, .adopt first, .done first, .wait first, .schedule second,
    .exit second, .schedule first, .wait first]

theorem reaped_once_fork_exit_wait :
    ∃ t, run Table.step boot forkExitWait = .ok t ∧ .reaped 1 0 2#32 ∈ t.log ∧
      (t.slot first).ret = 2#32 ∧ .exited 1 ∈ t.log := by
  obtain ⟨t, ht, hq⟩ := run_ok_of_eval Table.step boot forkExitWait
    (fun t => decide (.reaped 1 0 2#32 ∈ t.log ∧ (t.slot first).ret = 2#32)) (by decide +kernel)
  obtain ⟨hlog, hret⟩ := of_decide_eq_true hq
  exact ⟨t, ht, hlog, hret,
    (((reaped_once forkExitWait).2 t ht).2.2.1 1 0 2#32 hlog).1⟩

/-! ## `kill` -/

/-- A slot that was killed holds a process, and `kill` was called for it. -/
def Slot.Clean (x : Slot) : Prop := x.killed = true → x.state ≠ .unused ∧ x.called = true

def Clean (s : Table) : Prop := ∀ q, (s.slot q).Clean

/-- No `kill` is called with a pid that an `UNUSED` slot holds, and no `fork` fails in a slot that
was killed. -/
def Targeted (s : Table) : Action → Prop
  | .kill _ pid => ∀ q, (s.slot q).state = .unused → (s.slot q).pid ≠ pid
  | .fail p => ∀ q, (s.slot p).pc = .forking q false → (s.slot q).killed = false
  | _ => True

/-- `kill` returns 0 only for the pid of a process, and a process that `fork` makes `RUNNABLE` was
killed only by a `kill` called with its pid since it has it. -/
def KillHits (s : Table) (a : Action) (s' : Table) : Prop :=
  match a with
  | .kill p pid => (s'.slot p).ret = 0#32 → ∃ q, (s.slot q).state ≠ .unused ∧ (s.slot q).pid = pid
  | .done p => ∀ q, (s.slot p).pc = .forking q true → (s'.slot q).state = .runnable ∧
      ((s'.slot q).killed = true → (s'.slot q).called = true)
  | _ => True

section Kill

variable {s s' : Table} {p q : Fin nproc}

theorem clean_boot : Clean boot := by
  intro q hq
  simp only [boot, Slot.unused] at hq
  split at hq <;> cases hq

theorem Clean.set (h : Clean s) {x : Slot} (hx : x.Clean) : Clean (s.set q x) := by
  intro r
  show (update s.slot q x r).Clean
  by_cases hr : r = q
  · subst hr
    rwa [update_self]
  · rw [update_of_ne hr]
    exact h r

theorem Clean.returns (h : Clean s) (r : Word) : Clean (s.returns p r) := h.set (h p)

theorem Slot.Clean.of_live {x y : Slot} (h : x.Clean) (hk : y.killed = x.killed)
    (hc : y.called = x.called) (hs : y.state ≠ .unused) : y.Clean := by
  intro hy
  rw [hk] at hy
  exact ⟨hs, hc ▸ (h hy).2⟩

theorem Clean.wakeup1 (h : Clean s) (c : Fin nproc) : Clean (s.wakeup1 c) := by
  intro r
  simp only [Table.wakeup1]
  split
  · exact (h r).of_live rfl rfl nofun
  · exact h r

theorem Clean.reparent (h : Clean s) (p : Fin nproc) : Clean (s.reparent p) := by
  intro r
  simp only [Table.reparent]
  split
  · exact h r
  · exact h r

theorem Clean.zombie (h : Clean s) (p : Fin nproc) :
    Clean (s.set p { s.slot p with state := .zombie }) :=
  h.set ((h p).of_live rfl rfl nofun)

theorem Clean.exit (h : Clean s) (p pp : Fin nproc) : Clean (s.exit p pp) := by
  have habandon : Clean ((s.wakeup1 pp).abandon p) := by
    unfold Table.abandon
    split
    · exact ((h.wakeup1 pp).reparent p).wakeup1 _
    · exact (h.wakeup1 pp).reparent p
  have hlog : ∀ {s' : Table} {l : List Event}, Clean s' →
      Clean { s'.set p { s'.slot p with state := .zombie } with log := l } := fun h => h.zombie p
  exact hlog habandon

theorem Clean.reap (h : Clean s) (p q : Fin nproc) : Clean (s.reap p q) := by
  have hset : Clean (s.set q (s.reaped q)) := h.set fun hk => by cases hk
  exact Clean.returns (s := { s.set q (s.reaped q) with log := _ }) hset _

theorem Clean.wait (h : Clean s) (p : Fin nproc) : Clean (s.wait p) := by
  unfold Table.wait
  split
  · exact h.reap p _
  · split
    · exact h.returns _
    · exact h.set ((h p).of_live rfl rfl nofun)

theorem Clean.kill (h : Clean s) {pid : Word}
    (hpid : ∀ q, (s.slot q).state = .unused → (s.slot q).pid ≠ pid) : Clean (s.kill pid) := by
  intro q
  have hq := h q
  have hu := hpid q
  simp only [Table.kill, Slot.Clean] at hq ⊢
  by_cases ht : s.target pid = some q
  · have hqpid : (s.slot q).pid = pid := by simpa using List.find?_some ht
    have hused : (s.slot q).state ≠ .unused := fun hs => hu hs hqpid
    simp only [ht, hqpid, if_true]
    intro _
    refine ⟨?_, trivial⟩
    split
    · exact nofun
    · exact hused
  · simp only [ht, if_false]
    split
    · exact fun hk => ⟨(hq hk).1, rfl⟩
    · exact hq

theorem Clean.allocproc (h : Clean s) (hq : (s.slot q).state = .unused) :
    Clean (s.allocproc p q) := by
  have hnot : (s.slot q).killed = false := by
    by_contra hk
    exact (h q (by simpa using hk)).1 hq
  refine Clean.set (s := { s.set q _ with nextpid := _, fresh := _, log := _ })
    (h.set (q := q) ?_) (h p)
  intro hk
  rw [show _ = (s.slot q).killed from rfl, hnot] at hk
  cases hk

theorem Clean.step {a : Action} (h : Clean s) (ha : Targeted s a) (hs : s.step a = .ok s') :
    Clean s' := by
  cases a with
  | fork p =>
    obtain ⟨-, hs⟩ := ok_of_guard hs
    split at hs
    · cases hs
      exact h.returns _
    · rename_i q hq
      cases hs
      exact h.allocproc (by simpa using List.find?_some hq)
  | fail p =>
    simp only [Table.step] at hs
    split at hs
    · rename_i q _ hpc
      cases hs
      refine Clean.returns (h.set fun hk => ?_) _
      exact absurd hk (by simp [ha q hpc])
    · cases hs
  | adopt p =>
    simp only [Table.step] at hs
    split at hs
    · rename_i q _ hpc
      cases hs
      exact (h.set (x := { s.slot q with parent := some p }) (h q)).set (h p)
    · cases hs
  | done p =>
    simp only [Table.step] at hs
    split at hs
    · rename_i q _ hpc
      cases hs
      exact Clean.returns (h.set (x := { s.slot q with state := .runnable })
        ((h q).of_live rfl rfl nofun)) _
    · cases hs
  | exit p =>
    obtain ⟨-, hs⟩ := ok_of_guard hs
    split at hs
    · cases hs
    · split at hs <;> cases hs
      exact h.exit p _
  | wait p =>
    obtain ⟨-, ⟨⟩⟩ := ok_of_guard hs
    exact h.wait p
  | kill p pid =>
    obtain ⟨-, ⟨⟩⟩ := ok_of_guard hs
    exact (h.kill ha).returns _
  | schedule p | yield p | sleep p | wakeup p =>
    obtain ⟨-, ⟨⟩⟩ := ok_of_guard hs
    exact h.set ((h p).of_live rfl rfl nofun)

theorem killHits_of_step {a : Action} (h : Clean s) (ha : Targeted s a) (hs : s.step a = .ok s') :
    KillHits s a s' := by
  have hs' := h.step ha hs
  cases a with
  | kill p pid =>
    intro hret
    obtain ⟨-, ⟨⟩⟩ := ok_of_guard hs
    -- `kill` returns 0 when the scan has found a slot, and no `UNUSED` slot has the pid.
    cases ht : s.target pid with
    | none => simp [Table.returns, Table.set, ht] at hret
    | some q =>
      have hpid : (s.slot q).pid = pid := by simpa using List.find?_some ht
      exact ⟨q, fun hu => ha q hu hpid, hpid⟩
  | done p =>
    intro q hpc
    refine ⟨?_, fun hk => (hs' q hk).2⟩
    simp only [Table.step] at hs
    split at hs
    · rename_i q' hstate hpc'
      obtain rfl : q' = q := by
        rw [hpc] at hpc'
        cases hpc'
        rfl
      cases hs
      by_cases hpq : p = q'
      · subst hpq
        simp [Table.returns, Table.set]
      · simp [Table.returns, Table.set, update_of_ne (Ne.symm hpq)]
    · cases hs
  | _ => trivial

end Kill

/-- **`kill` hits only its target**, in every run in which no `kill` is called with a pid that an
`UNUSED` slot holds and no `fork` fails in a slot that was killed. -/
theorem kill_hits_target_of_guarded_run (as : List Action)
    (hg : Guarded Table.step Targeted boot as) : Along Table.step KillHits boot as := by
  have hclean : Guarded Table.step (fun s a => Clean s ∧ Targeted s a) boot as :=
    guarded_of_invariant Clean (fun _ _ _ h ha hs => h.step ha hs) (fun _ _ h ha => ⟨h, ha⟩)
      clean_boot hg
  exact along_of_guarded (P := KillHits) (fun _ _ _ h hs => killHits_of_step h.1 h.2 hs) hclean

instance (s : Table) (a : Action) : Decidable (Targeted s a) := by
  cases a <;> unfold Targeted <;> infer_instance

/-- Init forks a process and kills it before it has run. -/
theorem kill_hits_target_of_guarded_run_child :
    let as : List Action :=
      [.schedule first, .fork first, .yield first, .schedule first, .adopt first, .done first,
        .kill first 2#32]
    Guarded Table.step Targeted boot as ∧ Along Table.step KillHits boot as := by
  intro as
  have hg : Guarded Table.step Targeted boot as := by decide +kernel
  exact ⟨hg, kill_hits_target_of_guarded_run as hg⟩

/-- `kill(0)` finds an `UNUSED` slot and returns 0, and the next process that gets the slot is killed
before it runs, though `kill` was never called with its pid. -/
theorem kill_zero_hits_next_fork :
    (∃ t t', run Table.step boot [.schedule first] = .ok t ∧
      t.step (.kill first 0#32) = .ok t' ∧ (t'.slot first).ret = 0#32 ∧
      ∀ q, (t.slot q).state ≠ .unused → (t.slot q).pid ≠ 0#32) ∧
    ∃ t, run Table.step boot
        [.schedule first, .kill first 0#32, .fork first, .adopt first, .done first] = .ok t ∧
      (t.slot second).state = .runnable ∧ (t.slot second).pid = 2#32 ∧
      (t.slot second).killed = true ∧ (t.slot second).called = false := by
  constructor
  · obtain ⟨t, t', ht, ht', hq⟩ := run_step_of_eval Table.step boot [.schedule first]
      (.kill first 0#32) (fun t t' => decide ((t'.slot first).ret = 0#32 ∧
        ∀ q, (t.slot q).state ≠ .unused → (t.slot q).pid ≠ 0#32)) (by decide +kernel)
    exact ⟨t, t', ht, ht', of_decide_eq_true hq⟩
  · obtain ⟨t, ht, hq⟩ := run_ok_of_eval Table.step boot
      [.schedule first, .kill first 0#32, .fork first, .adopt first, .done first]
      (fun t => decide ((t.slot second).state = .runnable ∧ (t.slot second).pid = 2#32 ∧
        (t.slot second).killed = true ∧ (t.slot second).called = false)) (by decide +kernel)
    exact ⟨t, ht, of_decide_eq_true hq⟩

end Xv6Mmap.Ptable
