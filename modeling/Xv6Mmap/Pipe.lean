import Xv6Mmap.Kalloc
import Xv6Mmap.Lib.Ring
import Xv6Mmap.Lib.Run

/-!
# Pipes (`pipe.c:59-121`, `proc.c:692-772`)

One pipe and any number of processes that call `pipewrite`, `piperead`, `pipeclose` and `kill` on
it. `PipeState` is `struct pipe`, the holder of its lock, and for each process the loop it is in,
whether it was killed, and the channel it sleeps on.

A process enters `pipewrite` or `piperead` by a call, takes the lock (`acquire`), and then makes one
`turn` of its loop at a time until it sleeps or returns. `sleep` gives up the lock and the processor
in one step, since it holds `ptable.lock` throughout; a process that is woken has to take the lock
again, and then tests its condition again. `pipeclose` runs from `acquire` to `release` in one step.
`kill` needs no pipe lock and can come at any time. A `pipewrite`, `piperead` or `pipeclose` that
finds the pipe freed is `Halt.badDeref`.

As ghosts, `deposited` is every byte written to the pipe and `returned` every byte that a read has
returned, in order.

* **`pipe_fifo`**: the pipe is a FIFO queue of at most `PIPESIZE` bytes, also when the counters wrap.
* **`no_stranded_sleeper_of_guarded_run`**: a sleeping reader finds the pipe empty and open for
  writing, a sleeping writer finds it full and open for reading, in every run in which no
  `pipewrite` gives up on a full pipe while a reader sleeps: on that path `pipewrite` wakes nobody
  (`killed_writer_strands_reader`).
-/

namespace Xv6Mmap

open Lib

/-- `PIPESIZE`. -/
def pipesize : Nat := 512

/-- `struct pipe`, less the lock. -/
structure Pipe where
  data : Nat → Byte
  nread : Word
  nwrite : Word
  readopen : Bool
  writeopen : Bool

/-- The addresses processes sleep on, `&p->nread` and `&p->nwrite`. -/
inductive Chan where
  | nread | nwrite
  deriving DecidableEq, Repr

/-- Where a process is. -/
inductive PipePc where
  | outside
  /-- In the loop of `pipewrite(p, addr, n)`, with `i` bytes written. -/
  | writing (addr : Nat → Byte) (n : Int) (i : Nat)
  /-- In the first loop of `piperead(p, addr, n)`. -/
  | reading (n : Int)
  /-- In its second loop; `got` is what it has copied to `addr`. -/
  | copying (n : Int) (got : List Byte)

structure PipeProc where
  pc : PipePc
  killed : Bool
  /-- The process is `SLEEPING`, on this channel. -/
  chan : Option Chan
  /-- What its last call returned. -/
  ret : Int

structure PipeState (ι : Type) where
  pipe : Pipe
  /-- Who holds `p->lock`. -/
  lock : Option ι
  /-- The page of the pipe was given to `kfree`. -/
  freed : Bool
  proc : ι → PipeProc
  deposited : List Byte
  returned : List Byte

/-- The pipe of `pipealloc`, in a page of any contents. -/
def Pipe.alloc (data : Nat → Byte) : Pipe := ⟨data, 0#32, 0#32, true, true⟩

def PipeState.init (ι : Type) (data : Nat → Byte) : PipeState ι where
  pipe := Pipe.alloc data
  lock := none
  freed := false
  proc _ := ⟨.outside, false, none, 0⟩
  deposited := []
  returned := []

namespace Pipe

/-- `p->nread == p->nwrite`. -/
def Empty (p : Pipe) : Prop := p.nread = p.nwrite

/-- `p->nwrite == p->nread + PIPESIZE`. -/
def Full (p : Pipe) : Prop := p.nwrite = p.nread + BitVec.ofNat 32 pipesize

instance (p : Pipe) : Decidable p.Empty := inferInstanceAs (Decidable (p.nread = p.nwrite))

instance (p : Pipe) : Decidable p.Full :=
  inferInstanceAs (Decidable (p.nwrite = p.nread + BitVec.ofNat 32 pipesize))

/-- `p->data[p->nwrite++ % PIPESIZE] = b`. -/
def put (p : Pipe) (b : Byte) : Pipe :=
  { p with
    data := Function.update p.data (p.nwrite.toNat % pipesize) b
    nwrite := p.nwrite + 1#32 }

/-- `p->data[p->nread % PIPESIZE]`. -/
def front (p : Pipe) : Byte := p.data (p.nread.toNat % pipesize)

/-- `p->nread++`. -/
def drop (p : Pipe) : Pipe := { p with nread := p.nread + 1#32 }

end Pipe

inductive PipeAction (ι : Type) where
  | pipewrite (i : ι) (addr : Nat → Byte) (n : Int)
  | piperead (i : ι) (n : Int)
  | acquire (i : ι)
  | turn (i : ι)
  | pipeclose (i : ι) (writable : Bool)
  | kill (i : ι)

namespace PipeState

variable {ι : Type} [DecidableEq ι]

def setProc (s : PipeState ι) (i : ι) (p : PipeProc) : PipeState ι :=
  { s with proc := Function.update s.proc i p }

def goto (s : PipeState ι) (i : ι) (pc : PipePc) : PipeState ι :=
  s.setProc i { s.proc i with pc := pc }

/-- `wakeup(chan)`. -/
def wakeup (s : PipeState ι) (c : Chan) : PipeState ι :=
  { s with proc := fun j =>
      if (s.proc j).chan = some c then { s.proc j with chan := none } else s.proc j }

/-- `sleep(chan, &p->lock)`, up to the switch to another process. -/
def sleep (s : PipeState ι) (i : ι) (c : Chan) : PipeState ι :=
  { s with lock := none }.setProc i { s.proc i with chan := some c }

/-- `release(&p->lock); return ret`. -/
def leave (s : PipeState ι) (i : ι) (ret : Int) : PipeState ι :=
  { s with lock := none }.setProc i { s.proc i with pc := .outside, ret := ret }

/-- A turn of the loops of `pipewrite`, or its return. -/
def pipewrite (s : PipeState ι) (i : ι) (addr : Nat → Byte) (n : Int) (k : Nat) : PipeState ι :=
  if k < n then
    if s.pipe.Full then
      if !s.pipe.readopen || (s.proc i).killed then s.leave i (-1)
      else (s.wakeup .nread).sleep i .nwrite
    else
      { s with pipe := s.pipe.put (addr k), deposited := s.deposited ++ [addr k] }.goto i
        (.writing addr n (k + 1))
  else (s.wakeup .nread).leave i n

/-- A turn of the first loop of `piperead`. -/
def piperead (s : PipeState ι) (i : ι) (n : Int) : PipeState ι :=
  if s.pipe.Empty ∧ s.pipe.writeopen = true then
    if (s.proc i).killed then s.leave i (-1) else s.sleep i .nread
  else s.goto i (.copying n [])

/-- A turn of the second loop of `piperead`, or its return. -/
def copy (s : PipeState ι) (i : ι) (n : Int) (got : List Byte) : PipeState ι :=
  if got.length < n ∧ ¬ s.pipe.Empty then
    { s with pipe := s.pipe.drop }.goto i (.copying n (got ++ [s.pipe.front]))
  else
    { s.wakeup .nwrite with returned := s.returned ++ got }.leave i got.length

/-- `pipeclose(p, writable)`. -/
def pipeclose (s : PipeState ι) (writable : Bool) : PipeState ι :=
  let s := if writable then { s with pipe := { s.pipe with writeopen := false } }.wakeup .nread
    else { s with pipe := { s.pipe with readopen := false } }.wakeup .nwrite
  if !s.pipe.readopen && !s.pipe.writeopen then { s with freed := true } else s

/-- `kill(pid)` of process `i`. -/
def kill (s : PipeState ι) (i : ι) : PipeState ι :=
  s.setProc i { s.proc i with killed := true, chan := none }

/-- An action of one process, where that process is. -/
def step (s : PipeState ι) : PipeAction ι → Except Halt (PipeState ι)
  | .pipewrite i addr n =>
    match (s.proc i).pc with
    | .outside => .ok (s.goto i (.writing addr n 0))
    | _ => .error .blocked
  | .piperead i n =>
    match (s.proc i).pc with
    | .outside => .ok (s.goto i (.reading n))
    | _ => .error .blocked
  | .acquire i =>
    match (s.proc i).pc, (s.proc i).chan, s.lock with
    | .outside, _, _ | _, some _, _ | _, _, some _ => .error .blocked
    | _, none, none => if s.freed then .error .badDeref else .ok { s with lock := some i }
  | .turn i =>
    if s.lock = some i then
      match (s.proc i).pc with
      | .writing addr n k => .ok (s.pipewrite i addr n k)
      | .reading n => .ok (s.piperead i n)
      | .copying n got => .ok (s.copy i n got)
      | .outside => .error .blocked
    else .error .blocked
  | .pipeclose i writable =>
    match (s.proc i).pc, s.lock with
    | .outside, none => if s.freed then .error .badDeref else .ok (s.pipeclose writable)
    | _, _ => .error .blocked
  | .kill i => .ok (s.kill i)

end PipeState

/-! ## The bytes -/

/-- The bytes a read has copied and not returned. -/
def PipePc.got : PipePc → List Byte
  | .copying _ got => got
  | _ => []

/-- The pipe holds the bytes `q`. -/
def Pipe.Holds (p : Pipe) (q : List Byte) : Prop :=
  Ring.Holds pipesize p.data p.nread p.nwrite q

namespace Pipe

variable {p : Pipe} {q : List Byte}

theorem holds_alloc (data : Nat → Byte) : (alloc data).Holds [] := Ring.holds_nil data 0#32

theorem Holds.toNat_sub (h : p.Holds q) : (p.nwrite - p.nread).toNat = q.length :=
  Ring.Holds.toNat_sub h (by decide)

theorem Holds.length_le (h : p.Holds q) : q.length ≤ pipesize := Ring.Holds.length_le h

theorem Holds.full_iff (h : p.Holds q) : p.Full ↔ q.length = pipesize :=
  Ring.Holds.tail_eq_iff h (by decide) (Nat.le_refl _)

theorem Holds.empty_iff (h : p.Holds q) : p.Empty ↔ q = [] := Ring.Holds.empty_iff h (by decide)

theorem Holds.put (h : p.Holds q) (hfull : ¬ p.Full) (b : Byte) : (p.put b).Holds (q ++ [b]) := by
  have hlt : q.length < pipesize := by
    have := h.length_le
    have := mt h.full_iff.mpr hfull
    omega
  exact Ring.Holds.push h (by decide) hlt b

theorem Holds.drop (h : p.Holds q) (hempty : ¬ p.Empty) :
    q = p.front :: q.tail ∧ p.drop.Holds q.tail :=
  Ring.Holds.pop h (by decide) (mt h.empty_iff.mpr hempty)

end Pipe

namespace PipeState

variable {ι : Type}

/-- The bytes that the read in progress has copied. Only the holder of the lock can have any. -/
def taken (s : PipeState ι) : List Byte :=
  match s.lock with
  | some i => (s.proc i).pc.got
  | none => []

/-- The pipe is a queue: what was deposited is what was returned, what a read has copied, and what
the pipe holds, in this order. -/
structure Fifo (s : PipeState ι) : Prop where
  copying : ∀ i n got, (s.proc i).pc = .copying n got → s.lock = some i
  queue : ∃ q, s.pipe.Holds q ∧ s.deposited = s.returned ++ s.taken ++ q

theorem fifo_init (data : Nat → Byte) : (PipeState.init ι data).Fifo where
  copying := nofun
  queue := ⟨[], Pipe.holds_alloc data, rfl⟩

variable [DecidableEq ι] {s s' : PipeState ι} {i : ι}

omit [DecidableEq ι] in
@[simp] theorem wakeup_pc (s : PipeState ι) (c : Chan) (j : ι) :
    ((s.wakeup c).proc j).pc = (s.proc j).pc := by
  unfold wakeup
  dsimp only
  split <;> rfl

variable {c : Chan} {j : ι}

omit [DecidableEq ι] in
theorem wakeup_chan_eq {d : Chan} (h : ((s.wakeup c).proc j).chan = some d) :
    (s.proc j).chan = some d ∧ d ≠ c := by
  unfold wakeup at h
  dsimp only at h
  split at h
  · cases h
  · rename_i hne
    refine ⟨h, ?_⟩
    rintro rfl
    exact hne h

theorem setProc_proc_self (s : PipeState ι) (i : ι) (p : PipeProc) : (s.setProc i p).proc i = p :=
  Function.update_self ..

theorem setProc_proc_of_ne (s : PipeState ι) (p : PipeProc) (h : j ≠ i) :
    (s.setProc i p).proc j = s.proc j :=
  Function.update_of_ne h ..

theorem taken_goto (hlock : s.lock = some i) (pc : PipePc) : (s.goto i pc).taken = pc.got := by
  have hlock' : (s.goto i pc).lock = some i := hlock
  unfold taken
  rw [hlock']
  dsimp only
  rw [goto, setProc_proc_self]

/-- A step of the holder of the lock, by what it does to the places of the processes and to the
bytes. -/
theorem Fifo.turn (h : s.Fifo) (hlock : s.lock = some i)
    (hother : ∀ j, j ≠ i → (s'.proc j).pc = (s.proc j).pc)
    (hself : ∀ n got, (s'.proc i).pc = .copying n got → s'.lock = some i)
    (hqueue : ∀ q, s.pipe.Holds q → s.deposited = s.returned ++ (s.proc i).pc.got ++ q →
      ∃ q', s'.pipe.Holds q' ∧ s'.deposited = s'.returned ++ s'.taken ++ q') : s'.Fifo := by
  obtain ⟨q, hq, hd⟩ := h.queue
  refine ⟨?_, hqueue q hq (by rwa [taken, hlock] at hd)⟩
  intro j n got hj
  by_cases hji : j = i
  · subst hji
    exact hself n got hj
  · rw [hother j hji] at hj
    have := h.copying j n got hj
    rw [hlock] at this
    exact absurd (Option.some.inj this).symm hji

omit [DecidableEq ι] in
/-- A step that touches neither the bytes nor the lock, and leaves alone every process that
copies. -/
theorem Fifo.frame (h : s.Fifo) (hpipe : s'.pipe.data = s.pipe.data ∧
      s'.pipe.nread = s.pipe.nread ∧ s'.pipe.nwrite = s.pipe.nwrite)
    (hlock : s'.lock = s.lock) (hbytes : s'.deposited = s.deposited ∧ s'.returned = s.returned)
    (hpc : ∀ j, (s'.proc j).pc = (s.proc j).pc ∨
      (s.proc j).pc = .outside ∧ ∀ n got, (s'.proc j).pc ≠ .copying n got) : s'.Fifo := by
  have hgot : ∀ j, (s'.proc j).pc.got = (s.proc j).pc.got := by
    intro j
    obtain heq | ⟨hout, hnc⟩ := hpc j
    · rw [heq]
    · rw [hout]
      cases hj : (s'.proc j).pc with
      | copying n got => exact absurd hj (hnc n got)
      | outside | writing | reading => rfl
  have htaken : s'.taken = s.taken := by
    unfold taken
    rw [hlock]
    cases s.lock with
    | none => rfl
    | some j => exact hgot j
  obtain ⟨q, hq, hd⟩ := h.queue
  refine ⟨?_, q, ?_, ?_⟩
  · intro j n got hj
    rw [hlock]
    obtain heq | ⟨-, hnc⟩ := hpc j
    · exact h.copying j n got (heq ▸ hj)
    · exact absurd hj (hnc n got)
  · unfold Pipe.Holds
    rw [hpipe.1, hpipe.2.1, hpipe.2.2]
    exact hq
  · rw [hbytes.1, hbytes.2, htaken]
    exact hd

variable {n : Int}

theorem Fifo.pipewrite (h : s.Fifo) (hlock : s.lock = some i) {addr : Nat → Byte} {k : Nat}
    (hpc : (s.proc i).pc = .writing addr n k) : (s.pipewrite i addr n k).Fifo := by
  have hgot : (s.proc i).pc.got = [] := by rw [hpc]; rfl
  unfold PipeState.pipewrite
  split
  · split
    · split
      · -- it gives up
        refine h.turn hlock (fun j hj => ?_) ?_ (fun q hq hd => ⟨q, hq, by rwa [hgot] at hd⟩)
        · rw [leave, setProc_proc_of_ne _ _ hj]
        · intro n got hc
          rw [leave, setProc_proc_self] at hc
          cases hc
      · -- it sleeps
        refine h.turn hlock (fun j hj => ?_) ?_ (fun q hq hd => ⟨q, hq, by rwa [hgot] at hd⟩)
        · rw [sleep, setProc_proc_of_ne _ _ hj]
          exact wakeup_pc ..
        · intro m got hc
          rw [sleep, setProc_proc_self] at hc
          dsimp only at hc
          rw [wakeup_pc, hpc] at hc
          cases hc
    · rename_i hfull
      refine h.turn hlock (fun j hj => ?_) ?_ (fun q hq hd => ⟨q ++ [addr k], hq.put hfull _, ?_⟩)
      · rw [goto, setProc_proc_of_ne _ _ hj]
      · intro m got hc
        exact hlock
      · rw [taken_goto]
        · show s.deposited ++ [addr k] = s.returned ++ [] ++ (q ++ [addr k])
          rw [hd, hgot, List.append_assoc]
        · exact hlock
  · refine h.turn hlock (fun j hj => ?_) ?_ (fun q hq hd => ⟨q, hq, by rwa [hgot] at hd⟩)
    · rw [leave, setProc_proc_of_ne _ _ hj]
      exact wakeup_pc ..
    · intro m got hc
      rw [leave, setProc_proc_self] at hc
      cases hc

theorem Fifo.piperead (h : s.Fifo) (hlock : s.lock = some i) (hpc : (s.proc i).pc = .reading n) :
    (s.piperead i n).Fifo := by
  have hgot : (s.proc i).pc.got = [] := by rw [hpc]; rfl
  unfold PipeState.piperead
  split
  · split
    · refine h.turn hlock (fun j hj => ?_) ?_ (fun q hq hd => ⟨q, hq, by rwa [hgot] at hd⟩)
      · rw [leave, setProc_proc_of_ne _ _ hj]
      · intro n got hc
        rw [leave, setProc_proc_self] at hc
        cases hc
    · refine h.turn hlock (fun j hj => ?_) ?_ (fun q hq hd => ⟨q, hq, by rwa [hgot] at hd⟩)
      · rw [sleep, setProc_proc_of_ne _ _ hj]
      · intro m got hc
        rw [sleep, setProc_proc_self] at hc
        dsimp only at hc
        rw [hpc] at hc
        cases hc
  · refine h.turn hlock (fun j hj => ?_) (fun _ _ _ => hlock) (fun q hq hd => ⟨q, hq, ?_⟩)
    · rw [goto, setProc_proc_of_ne _ _ hj]
    · rw [taken_goto hlock]
      rwa [hgot] at hd

theorem Fifo.copy (h : s.Fifo) (hlock : s.lock = some i) {got : List Byte}
    (hpc : (s.proc i).pc = .copying n got) : (s.copy i n got).Fifo := by
  have hgot : (s.proc i).pc.got = got := by rw [hpc]; rfl
  unfold PipeState.copy
  split
  · rename_i hmore
    refine h.turn hlock (fun j hj => ?_) (fun _ _ _ => hlock)
      (fun q hq hd => ⟨q.tail, (hq.drop hmore.2).2, ?_⟩)
    · rw [goto, setProc_proc_of_ne _ _ hj]
    · rw [taken_goto]
      · show s.deposited = s.returned ++ (got ++ [s.pipe.front]) ++ q.tail
        rw [hd, hgot]
        conv_lhs => rw [(hq.drop hmore.2).1]
        simp
      · exact hlock
  · refine h.turn hlock (fun j hj => ?_) ?_ (fun q hq hd => ⟨q, hq, ?_⟩)
    · rw [leave, setProc_proc_of_ne _ _ hj]
      exact wakeup_pc ..
    · intro m got hc
      rw [leave, setProc_proc_self] at hc
      cases hc
    · show s.deposited = s.returned ++ got ++ [] ++ q
      rw [List.append_nil, hd, hgot]

omit [DecidableEq ι] in
theorem Fifo.pipeclose (h : s.Fifo) (writable : Bool) : (s.pipeclose writable).Fifo := by
  cases writable with
  | true =>
    simp only [PipeState.pipeclose, if_true]
    split <;> exact h.frame ⟨rfl, rfl, rfl⟩ rfl ⟨rfl, rfl⟩ fun j => .inl (wakeup_pc ..)
  | false =>
    simp only [PipeState.pipeclose, Bool.false_eq_true, if_false]
    split <;> exact h.frame ⟨rfl, rfl, rfl⟩ rfl ⟨rfl, rfl⟩ fun j => .inl (wakeup_pc ..)

theorem Fifo.call (h : s.Fifo) (hout : (s.proc i).pc = .outside) {pc : PipePc}
    (hpc : ∀ n got, pc ≠ .copying n got) : (s.goto i pc).Fifo := by
  refine h.frame ⟨rfl, rfl, rfl⟩ rfl ⟨rfl, rfl⟩ fun j => ?_
  by_cases hj : j = i
  · subst hj
    rw [goto, setProc_proc_self]
    exact .inr ⟨hout, hpc⟩
  · rw [goto, setProc_proc_of_ne _ _ hj]
    exact .inl rfl

theorem Fifo.kill (h : s.Fifo) (i : ι) : (s.kill i).Fifo := by
  refine h.frame ⟨rfl, rfl, rfl⟩ rfl ⟨rfl, rfl⟩ fun j => .inl ?_
  by_cases hj : j = i
  · subst hj
    rw [PipeState.kill, setProc_proc_self]
  · rw [PipeState.kill, setProc_proc_of_ne _ _ hj]

omit [DecidableEq ι] in
theorem Fifo.acquire (h : s.Fifo) (hlock : s.lock = none) (hi : (s.proc i).pc.got = []) :
    Fifo { s with lock := some i } := by
  obtain ⟨q, hq, hd⟩ := h.queue
  refine ⟨fun j n got hj => ?_, q, hq, ?_⟩
  · have := h.copying j n got hj
    rw [hlock] at this
    cases this
  · show s.deposited = s.returned ++ (s.proc i).pc.got ++ q
    rw [hi, hd, taken, hlock]

variable {a : PipeAction ι}

/-- What one action does, with the place it is taken in. -/
theorem step_cases (hs : s.step a = .ok s') :
    (∃ i pc, (s.proc i).pc = .outside ∧ s' = s.goto i pc ∧
      ((∃ addr n, pc = .writing addr n 0) ∨ ∃ n, pc = .reading n)) ∨
    (∃ i, s.lock = none ∧ (s.proc i).chan = none ∧ (s.proc i).pc ≠ .outside ∧
      s' = { s with lock := some i }) ∨
    (∃ i addr n k, a = .turn i ∧ s.lock = some i ∧ (s.proc i).pc = .writing addr n k ∧
      s' = s.pipewrite i addr n k) ∨
    (∃ i n, s.lock = some i ∧ (s.proc i).pc = .reading n ∧ s' = s.piperead i n) ∨
    (∃ i n got, s.lock = some i ∧ (s.proc i).pc = .copying n got ∧ s' = s.copy i n got) ∨
    (∃ writable, s.lock = none ∧ s' = s.pipeclose writable) ∨
    (∃ i, s' = s.kill i) := by
  cases a with
  | pipewrite i addr n =>
    simp only [step] at hs
    split at hs
    · exact .inl ⟨i, _, ‹_›, (Except.ok.inj hs).symm, .inl ⟨addr, n, rfl⟩⟩
    · cases hs
  | piperead i n =>
    simp only [step] at hs
    split at hs
    · exact .inl ⟨i, _, ‹_›, (Except.ok.inj hs).symm, .inr ⟨n, rfl⟩⟩
    · cases hs
  | acquire i =>
    simp only [step] at hs
    split at hs
    · cases hs
    · cases hs
    · cases hs
    · rename_i hchan hlock hpc
      split at hs
      · cases hs
      · exact .inr (.inl ⟨i, hlock, hchan, hpc, (Except.ok.inj hs).symm⟩)
  | turn i =>
    simp only [step] at hs
    split at hs
    · rename_i hlock
      split at hs
      · exact .inr (.inr (.inl ⟨i, _, _, _, rfl, hlock, ‹_›, (Except.ok.inj hs).symm⟩))
      · exact .inr (.inr (.inr (.inl ⟨i, _, hlock, ‹_›, (Except.ok.inj hs).symm⟩)))
      · exact .inr (.inr (.inr (.inr (.inl ⟨i, _, _, hlock, ‹_›, (Except.ok.inj hs).symm⟩))))
      · cases hs
    · cases hs
  | pipeclose i writable =>
    simp only [step] at hs
    split at hs
    · split at hs
      · cases hs
      · exact .inr (.inr (.inr (.inr (.inr (.inl ⟨writable, ‹_›, (Except.ok.inj hs).symm⟩)))))
    · cases hs
  | kill i => exact .inr (.inr (.inr (.inr (.inr (.inr ⟨i, (Except.ok.inj hs).symm⟩)))))

theorem Fifo.step (h : s.Fifo) (hs : s.step a = .ok s') : s'.Fifo := by
  obtain ⟨i, pc, hout, rfl, hpc⟩ | ⟨i, hlock, -, -, rfl⟩ | ⟨i, addr, n, k, -, hlock, hpc, rfl⟩ |
    ⟨i, n, hlock, hpc, rfl⟩ | ⟨i, n, got, hlock, hpc, rfl⟩ | ⟨writable, -, rfl⟩ | ⟨i, rfl⟩ :=
    step_cases hs
  · refine h.call hout ?_
    obtain ⟨addr, n, rfl⟩ | ⟨n, rfl⟩ := hpc <;> exact nofun
  · refine h.acquire hlock ?_
    cases hi : (s.proc i).pc with
    | copying n got =>
      have := h.copying i n got hi
      rw [hlock] at this
      cases this
    | outside | writing | reading => rfl
  · exact h.pipewrite hlock hpc
  · exact h.piperead hlock hpc
  · exact h.copy hlock hpc
  · exact h.pipeclose writable
  · exact h.kill i

/-- **Pipes are FIFO**, in every state of every run by any number of processes: the counters differ
by at most `PIPESIZE`, the bytes deposited are the bytes returned, those a read in progress has
copied, and those the pipe holds, in this order, and so what was returned is always a prefix of
what was deposited. -/
theorem pipe_fifo (data : Nat → Byte) (as : List (PipeAction ι)) (t : PipeState ι)
    (hr : run step (PipeState.init ι data) as = .ok t) :
    (t.pipe.nwrite - t.pipe.nread).toNat ≤ pipesize ∧ t.returned <+: t.deposited ∧
      ∃ q, t.deposited = t.returned ++ t.taken ++ q ∧
        q.length = (t.pipe.nwrite - t.pipe.nread).toNat ∧
        ∀ k, (hk : k < q.length) → t.pipe.data ((t.pipe.nread.toNat + k) % pipesize) = q[k] := by
  have h : t.Fifo := run_invariant_of_step Fifo (fun _ _ _ h => h.step) (fifo_init data) hr
  obtain ⟨q, hq, hd⟩ := h.queue
  refine ⟨by rw [hq.toNat_sub]; exact hq.length_le, ?_, q, hd, hq.toNat_sub.symm, hq.cell⟩
  rw [hd, List.append_assoc]
  exact List.prefix_append ..

/-- Three bytes are written and two of them read. -/
theorem pipe_fifo_two_of_three :
    let as : List (PipeAction (Fin 2)) :=
      [.pipewrite 0 (fun k => BitVec.ofNat 8 (k + 7)) 3, .piperead 1 2, .acquire 1, .turn 1,
        .acquire 0, .turn 0, .turn 0, .turn 0, .turn 0, .acquire 1, .turn 1, .turn 1, .turn 1,
        .turn 1]
    ∃ t, run step (PipeState.init (Fin 2) fun _ => 0#8) as = .ok t ∧
      t.returned = [7#8, 8#8] ∧ t.returned <+: t.deposited := by
  intro as
  obtain ⟨t, ht, hq⟩ := run_ok_of_eval step (PipeState.init (Fin 2) fun _ => 0#8) as
    (fun t => decide (t.returned = [7#8, 8#8])) (by decide +kernel)
  exact ⟨t, ht, of_decide_eq_true hq, (pipe_fifo (fun _ => 0#8) as t ht).2.1⟩

/-! ## The sleepers -/

/-- A `pipewrite` that gives up on a full pipe, because its process was killed or the pipe is closed
for reading, leaves no reader asleep. -/
def WakesReaders (s : PipeState ι) : PipeAction ι → Prop
  | .turn i =>
    match (s.proc i).pc with
    | .writing _ n k =>
      k < n → s.pipe.Full → (!s.pipe.readopen || (s.proc i).killed) = true →
        ∀ j, (s.proc j).chan ≠ some .nread
    | _ => True
  | _ => True

/-- What holds of the sleepers: the condition they sleep on, unless the holder of the lock is about
to wake them. -/
structure Awake (s : PipeState ι) : Prop where
  reader : ∀ j, (s.proc j).chan = some .nread →
    (∃ n, (s.proc j).pc = .reading n) ∧ (s.pipe.Empty ∧ s.pipe.writeopen = true ∨
      ∃ i addr n k, s.lock = some i ∧ (s.proc i).pc = .writing addr n k)
  writer : ∀ j, (s.proc j).chan = some .nwrite →
    (∃ addr n k, (s.proc j).pc = .writing addr n k) ∧ (s.pipe.Full ∧ s.pipe.readopen = true ∨
      ∃ i n got, s.lock = some i ∧ (s.proc i).pc = .copying n got)
  /-- The holder of the lock does not sleep. -/
  holder : ∀ i, s.lock = some i → (s.proc i).chan = none

omit [DecidableEq ι] in
theorem awake_init (data : Nat → Byte) : (PipeState.init ι data).Awake where
  reader := nofun
  writer := nofun
  holder := nofun

omit [DecidableEq ι] in
theorem awake_unlocked (hlock : s.lock = none)
    (hr : ∀ j, (s.proc j).chan = some .nread →
      (∃ n, (s.proc j).pc = .reading n) ∧ s.pipe.Empty ∧ s.pipe.writeopen = true)
    (hw : ∀ j, (s.proc j).chan = some .nwrite →
      (∃ addr n k, (s.proc j).pc = .writing addr n k) ∧ s.pipe.Full ∧ s.pipe.readopen = true) :
    s.Awake where
  reader j hj := ⟨(hr j hj).1, .inl (hr j hj).2⟩
  writer j hj := ⟨(hw j hj).1, .inl (hw j hj).2⟩
  holder i hi := by
    rw [hlock] at hi
    cases hi

/-- Who sleeps after a process that did not sleep has moved. -/
theorem setProc_sleeper {p : PipeProc} (hi : p.chan = none)
    (hj : ((s.setProc i p).proc j).chan = some c) :
    (s.proc j).chan = some c ∧ (s.setProc i p).proc j = s.proc j := by
  by_cases hji : j = i
  · subst hji
    rw [setProc_proc_self, hi] at hj
    cases hj
  · rw [setProc_proc_of_ne _ _ hji] at hj ⊢
    exact ⟨hj, rfl⟩

theorem sleep_sleeper {d : Chan} (hj : ((s.sleep i d).proc j).chan = some c) :
    ((s.sleep i d).proc j).pc = (s.proc j).pc ∧ (j = i ∧ c = d ∨ (s.proc j).chan = some c) := by
  unfold sleep at hj ⊢
  by_cases hji : j = i
  · subst hji
    rw [setProc_proc_self] at hj ⊢
    exact ⟨rfl, .inl ⟨rfl, (Option.some.inj hj).symm⟩⟩
  · rw [setProc_proc_of_ne _ _ hji] at hj ⊢
    exact ⟨rfl, .inr hj⟩

/-- The holder of the lock returns, having woken those it should. -/
theorem awake_leave {r : Int} (hi : (s.proc i).chan = none)
    (hr : ∀ j, (s.proc j).chan = some .nread →
      (∃ n, (s.proc j).pc = .reading n) ∧ s.pipe.Empty ∧ s.pipe.writeopen = true)
    (hw : ∀ j, (s.proc j).chan = some .nwrite →
      (∃ addr n k, (s.proc j).pc = .writing addr n k) ∧ s.pipe.Full ∧ s.pipe.readopen = true) :
    (s.leave i r).Awake := by
  refine awake_unlocked rfl (fun j hj => ?_) fun j hj => ?_
  · obtain ⟨hc, hp⟩ := setProc_sleeper (by exact hi) hj
    rw [leave, hp]
    exact hr j hc
  · obtain ⟨hc, hp⟩ := setProc_sleeper (by exact hi) hj
    rw [leave, hp]
    exact hw j hc

/-- The holder of the lock goes to sleep on its condition, having woken those it should. -/
theorem awake_sleep
    (hr : ∀ j, (j = i ∧ c = .nread ∨ (s.proc j).chan = some .nread) →
      (∃ n, (s.proc j).pc = .reading n) ∧ s.pipe.Empty ∧ s.pipe.writeopen = true)
    (hw : ∀ j, (j = i ∧ c = .nwrite ∨ (s.proc j).chan = some .nwrite) →
      (∃ addr n k, (s.proc j).pc = .writing addr n k) ∧ s.pipe.Full ∧ s.pipe.readopen = true) :
    (s.sleep i c).Awake := by
  refine awake_unlocked rfl (fun j hj => ?_) fun j hj => ?_
  · obtain ⟨hp, hc⟩ := sleep_sleeper hj
    rw [hp]
    exact hr j (hc.imp_left fun ⟨hji, he⟩ => ⟨hji, he.symm⟩)
  · obtain ⟨hp, hc⟩ := sleep_sleeper hj
    rw [hp]
    exact hw j (hc.imp_left fun ⟨hji, he⟩ => ⟨hji, he.symm⟩)

omit [DecidableEq ι] in
/-- While no process that writes holds the lock, readers sleep on their condition. -/
theorem Awake.sleeping_reader (h : s.Awake)
    (hlock : ∀ i, s.lock = some i → ∀ addr n k, (s.proc i).pc ≠ .writing addr n k) (j : ι)
    (hj : (s.proc j).chan = some .nread) :
    (∃ n, (s.proc j).pc = .reading n) ∧ s.pipe.Empty ∧ s.pipe.writeopen = true := by
  obtain ⟨hp, hcond | ⟨i, addr, n, k, hi, hw⟩⟩ := h.reader j hj
  · exact ⟨hp, hcond⟩
  · exact absurd hw (hlock i hi addr n k)

omit [DecidableEq ι] in
/-- While no process that copies holds the lock, writers sleep on their condition. -/
theorem Awake.sleeping_writer (h : s.Awake)
    (hlock : ∀ i, s.lock = some i → ∀ n got, (s.proc i).pc ≠ .copying n got) (j : ι)
    (hj : (s.proc j).chan = some .nwrite) :
    (∃ addr n k, (s.proc j).pc = .writing addr n k) ∧ s.pipe.Full ∧ s.pipe.readopen = true := by
  obtain ⟨hp, hcond | ⟨i, n, got, hi, hw⟩⟩ := h.writer j hj
  · exact ⟨hp, hcond⟩
  · exact absurd hw (hlock i hi n got)

section Turns

variable (h : s.Awake) (hlock : s.lock = some i)

include h hlock

/-- The holder of the lock goes on, and will wake those whose condition it changes. -/
theorem Awake.goto {pipe : Pipe} {deposited : List Byte} {pc : PipePc}
    (hr : ∀ j, (s.proc j).chan = some .nread → pipe.Empty ∧ pipe.writeopen = true ∨
      ∃ addr n k, pc = .writing addr n k)
    (hw : ∀ j, (s.proc j).chan = some .nwrite → pipe.Full ∧ pipe.readopen = true ∨
      ∃ n got, pc = .copying n got) :
    Awake ({ s with pipe := pipe, deposited := deposited }.goto i pc) := by
  have hchan := h.holder i hlock
  refine ⟨fun j hj => ?_, fun j hj => ?_, fun j hj => ?_⟩
  · obtain ⟨hc, hp⟩ := setProc_sleeper (by exact hchan) hj
    rw [PipeState.goto, hp]
    refine ⟨(h.reader j hc).1, (hr j hc).imp_right ?_⟩
    rintro ⟨addr, n, k, rfl⟩
    exact ⟨i, addr, n, k, hlock, by rw [setProc_proc_self]⟩
  · obtain ⟨hc, hp⟩ := setProc_sleeper (by exact hchan) hj
    rw [PipeState.goto, hp]
    refine ⟨(h.writer j hc).1, (hw j hc).imp_right ?_⟩
    rintro ⟨n, got, rfl⟩
    exact ⟨i, n, got, hlock, by rw [setProc_proc_self]⟩
  · have hj' : s.lock = some j := hj
    rw [hlock] at hj'
    cases hj'
    rw [PipeState.goto, setProc_proc_self]
    exact hchan

variable {n : Int}

theorem Awake.pipewrite {addr : Nat → Byte} {k : Nat} (hpc : (s.proc i).pc = .writing addr n k)
    (hok : s.WakesReaders (.turn i)) :
    (s.pipewrite i addr n k).Awake := by
  have hchan := h.holder i hlock
  have hwriter := h.sleeping_writer (by rw [hlock]; rintro _ ⟨⟩; rw [hpc]; exact nofun)
  have hwakes : ∀ j, ((s.wakeup .nread).proc j).chan = some .nwrite →
      (∃ addr n k, ((s.wakeup .nread).proc j).pc = .writing addr n k) ∧ s.pipe.Full ∧
        s.pipe.readopen = true := by
    intro j hj
    rw [wakeup_pc]
    exact hwriter j (wakeup_chan_eq hj).1
  simp only [WakesReaders, hpc] at hok
  unfold PipeState.pipewrite
  split
  · rename_i hk
    split
    · rename_i hfull
      split
      · rename_i hgive
        exact awake_leave hchan (fun j hj => absurd hj (hok hk hfull hgive j)) hwriter
      rename_i hwait
      simp only [Bool.or_eq_true, not_or, Bool.not_eq_true, Bool.not_eq_false'] at hwait
      refine awake_sleep (fun j hj => ?_) fun j hj => ?_
      · obtain ⟨-, he⟩ | hj := hj
        · cases he
        · exact absurd rfl (wakeup_chan_eq hj).2
      · obtain ⟨rfl, -⟩ | hj := hj
        · exact ⟨⟨addr, n, k, by rw [wakeup_pc, hpc]⟩, hfull, hwait.1⟩
        · exact hwakes j hj
    · -- no writer sleeps on a pipe with room
      rename_i hfull
      exact h.goto hlock (fun _ _ => .inr ⟨addr, n, k + 1, rfl⟩)
        fun j hj => absurd (hwriter j hj).2.1 hfull
  · refine awake_leave ?_ (fun j hj => absurd rfl (wakeup_chan_eq hj).2) hwakes
    unfold wakeup
    simp [hchan]

theorem Awake.piperead (hpc : (s.proc i).pc = .reading n) : (s.piperead i n).Awake := by
  have hchan := h.holder i hlock
  have hreader := h.sleeping_reader (by rw [hlock]; rintro _ ⟨⟩; rw [hpc]; exact nofun)
  have hwriter := h.sleeping_writer (by rw [hlock]; rintro _ ⟨⟩; rw [hpc]; exact nofun)
  unfold PipeState.piperead
  split
  · rename_i hcond
    split
    · exact awake_leave hchan hreader hwriter
    · refine awake_sleep (fun j hj => ?_) fun j hj => ?_
      · obtain ⟨rfl, -⟩ | hj := hj
        · exact ⟨⟨n, hpc⟩, hcond⟩
        · exact hreader j hj
      · obtain ⟨-, he⟩ | hj := hj
        · cases he
        · exact hwriter j hj
  · rename_i hcond
    exact h.goto hlock (fun j hj => absurd (hreader j hj).2 hcond) fun _ _ => .inr ⟨n, [], rfl⟩

theorem Awake.copy {got : List Byte} (hpc : (s.proc i).pc = .copying n got) :
    (s.copy i n got).Awake := by
  have hchan := h.holder i hlock
  have hreader := h.sleeping_reader (by rw [hlock]; rintro _ ⟨⟩; rw [hpc]; exact nofun)
  unfold PipeState.copy
  split
  · rename_i hmore
    exact h.goto hlock (fun j hj => absurd (hreader j hj).2.1 hmore.2) fun _ _ => .inr ⟨n, _, rfl⟩
  refine awake_leave ?_ (fun j hj => ?_) fun j hj => ?_
  · simp [wakeup, hchan]
  · have hj' : ((s.wakeup .nwrite).proc j).chan = some .nread := hj
    show (∃ n, ((s.wakeup .nwrite).proc j).pc = .reading n) ∧ _
    rw [wakeup_pc]
    exact hreader j (wakeup_chan_eq hj').1
  · have hj' : ((s.wakeup .nwrite).proc j).chan = some .nwrite := hj
    exact absurd rfl (wakeup_chan_eq hj').2

end Turns

omit [DecidableEq ι] in
theorem Awake.pipeclose (h : s.Awake) (hlock : s.lock = none) (writable : Bool) :
    (s.pipeclose writable).Awake := by
  have hreader := h.sleeping_reader (by rw [hlock]; exact nofun)
  have hwriter := h.sleeping_writer (by rw [hlock]; exact nofun)
  cases writable with
  | true =>
    have hawake : Awake ({ s with pipe := { s.pipe with writeopen := false } }.wakeup .nread) := by
      refine awake_unlocked hlock (fun j hj => absurd rfl (wakeup_chan_eq hj).2) fun j hj => ?_
      rw [wakeup_pc]
      exact hwriter j (wakeup_chan_eq hj).1
    simp only [PipeState.pipeclose, if_true]
    split
    · exact ⟨hawake.reader, hawake.writer, hawake.holder⟩
    · exact hawake
  | false =>
    have hawake : Awake ({ s with pipe := { s.pipe with readopen := false } }.wakeup .nwrite) := by
      refine awake_unlocked hlock (fun j hj => ?_) fun j hj => absurd rfl (wakeup_chan_eq hj).2
      rw [wakeup_pc]
      exact hreader j (wakeup_chan_eq hj).1
    simp only [PipeState.pipeclose, Bool.false_eq_true, if_false]
    split
    · exact ⟨hawake.reader, hawake.writer, hawake.holder⟩
    · exact hawake

theorem Awake.kill (h : s.Awake) (i : ι) : (s.kill i).Awake := by
  have hpc : ∀ j, ((s.kill i).proc j).pc = (s.proc j).pc := by
    intro j
    by_cases hj : j = i
    · subst hj
      rw [PipeState.kill, setProc_proc_self]
    · rw [PipeState.kill, setProc_proc_of_ne _ _ hj]
  have hchan : ∀ j c, ((s.kill i).proc j).chan = some c → (s.proc j).chan = some c :=
    fun j c hj => (setProc_sleeper rfl hj).1
  refine ⟨fun j hj => ?_, fun j hj => ?_, fun j hj => ?_⟩
  · simp only [hpc]
    exact h.reader j (hchan j _ hj)
  · simp only [hpc]
    exact h.writer j (hchan j _ hj)
  · cases hc : ((s.kill i).proc j).chan with
    | none => rfl
    | some c =>
      have := h.holder j hj
      rw [hchan j c hc] at this
      cases this

theorem Awake.call (h : s.Awake) (hout : (s.proc i).pc = .outside) (pc : PipePc) :
    (s.goto i pc).Awake := by
  -- neither a sleeper nor a holder of the lock that will wake one is outside
  have hself : ∀ c, (s.proc i).chan ≠ some c := by
    rintro (_ | _) hc
    · obtain ⟨⟨n, hp⟩, -⟩ := h.reader i hc
      rw [hout] at hp
      cases hp
    · obtain ⟨⟨addr, n, k, hp⟩, -⟩ := h.writer i hc
      rw [hout] at hp
      cases hp
  have hnone : (s.proc i).chan = none := Option.eq_none_iff_forall_ne_some.mpr hself
  have hother : ∀ j, (s.proc j).pc ≠ .outside → (s.goto i pc).proc j = s.proc j := by
    intro j hj
    refine setProc_proc_of_ne _ _ ?_
    rintro rfl
    exact hj hout
  refine ⟨fun j hj => ?_, fun j hj => ?_, fun j hj => ?_⟩
  · obtain ⟨hc, hp⟩ := setProc_sleeper (by exact hnone) hj
    rw [PipeState.goto, hp]
    refine ⟨(h.reader j hc).1, (h.reader j hc).2.imp_right ?_⟩
    rintro ⟨k, addr, n, m, hk, hw⟩
    exact ⟨k, addr, n, m, hk, by rw [← PipeState.goto, hother k (by rw [hw]; exact nofun), hw]⟩
  · obtain ⟨hc, hp⟩ := setProc_sleeper (by exact hnone) hj
    rw [PipeState.goto, hp]
    refine ⟨(h.writer j hc).1, (h.writer j hc).2.imp_right ?_⟩
    rintro ⟨k, n, got, hk, hw⟩
    exact ⟨k, n, got, hk, by rw [← PipeState.goto, hother k (by rw [hw]; exact nofun), hw]⟩
  · by_cases hji : j = i
    · subst hji
      rw [PipeState.goto, setProc_proc_self]
      exact hnone
    · rw [PipeState.goto, setProc_proc_of_ne _ _ hji]
      exact h.holder j hj

omit [DecidableEq ι] in
theorem Awake.acquire (h : s.Awake) (hlock : s.lock = none) (hi : (s.proc i).chan = none) :
    Awake { s with lock := some i } := by
  have hreader := h.sleeping_reader (by rw [hlock]; exact nofun)
  have hwriter := h.sleeping_writer (by rw [hlock]; exact nofun)
  refine ⟨fun j hj => ⟨(hreader j hj).1, .inl (hreader j hj).2⟩,
    fun j hj => ⟨(hwriter j hj).1, .inl (hwriter j hj).2⟩, ?_⟩
  rintro j ⟨⟩
  exact hi

theorem Awake.step (h : s.Awake) (hok : s.WakesReaders a) (hs : s.step a = .ok s') : s'.Awake := by
  obtain ⟨i, pc, hout, rfl, -⟩ | ⟨i, hlock, hchan, -, rfl⟩ | ⟨i, addr, n, k, rfl, hlock, hpc, rfl⟩ |
    ⟨i, n, hlock, hpc, rfl⟩ | ⟨i, n, got, hlock, hpc, rfl⟩ | ⟨writable, hlock, rfl⟩ | ⟨i, rfl⟩ :=
    step_cases hs
  · exact h.call hout pc
  · exact h.acquire hlock hchan
  · exact h.pipewrite hlock hpc hok
  · exact h.piperead hlock hpc
  · exact h.copy hlock hpc
  · exact h.pipeclose hlock writable
  · exact h.kill i

/-- **No sleeper is stranded**, in every run by any number of processes in which no `pipewrite`
gives up on a full pipe while a reader sleeps: whenever the lock is free, a process that sleeps in
`piperead` finds the pipe empty and open for writing, and one that sleeps in `pipewrite` finds it
full and open for reading. -/
theorem no_stranded_sleeper_of_guarded_run (data : Nat → Byte) (as : List (PipeAction ι))
    (t : PipeState ι) (hg : Guarded step WakesReaders (PipeState.init ι data) as)
    (hr : run step (PipeState.init ι data) as = .ok t) (hlock : t.lock = none) (j : ι) :
    ((t.proc j).chan = some .nread → t.pipe.Empty ∧ t.pipe.writeopen = true) ∧
      ((t.proc j).chan = some .nwrite → t.pipe.Full ∧ t.pipe.readopen = true) := by
  have h : t.Awake := run_invariant Awake (fun _ _ _ h hok => h.step hok) (awake_init data) hg hr
  exact ⟨fun hj => (h.sleeping_reader (by rw [hlock]; exact nofun) j hj).2,
    fun hj => (h.sleeping_writer (by rw [hlock]; exact nofun) j hj).2⟩

instance [Fintype ι] : DecidableRel (WakesReaders (ι := ι)) := fun s a =>
  match a with
  | .turn i =>
    match h : (s.proc i).pc with
    | .writing addr n k =>
      decidable_of_iff (k < n → s.pipe.Full → (!s.pipe.readopen || (s.proc i).killed) = true →
        ∀ j, (s.proc j).chan ≠ some .nread) (by simp only [WakesReaders, h])
    | .outside | .reading _ | .copying _ _ => isTrue (by simp only [WakesReaders, h])
  | .pipewrite .. | .piperead .. | .acquire _ | .pipeclose .. | .kill _ => isTrue trivial

/-- A reader sleeps, a killed writer leaves after a byte, and the reader sleeps again. -/
theorem no_stranded_sleeper_one_byte :
    let as : List (PipeAction (Fin 2)) :=
      [.piperead 0 1, .acquire 0, .turn 0, .pipewrite 1 (fun _ => 7#8) 1, .kill 1, .acquire 1,
        .turn 1, .turn 1, .acquire 0, .turn 0, .turn 0, .turn 0, .piperead 0 1, .acquire 0, .turn 0]
    ∃ t, run step (PipeState.init (Fin 2) fun _ => 0#8) as = .ok t ∧
      (t.proc 0).chan = some .nread ∧ t.pipe.Empty ∧ t.pipe.writeopen = true := by
  intro as
  obtain ⟨t, ht, hq⟩ := run_ok_of_eval step (PipeState.init (Fin 2) fun _ => 0#8) as
    (fun t => decide (t.lock = none ∧ (t.proc 0).chan = some .nread)) (by decide +kernel)
  obtain ⟨hlock, hchan⟩ := of_decide_eq_true hq
  have hg : Guarded step WakesReaders (PipeState.init (Fin 2) fun _ => 0#8) as := by decide +kernel
  exact ⟨t, ht, hchan,
    (no_stranded_sleeper_of_guarded_run (fun _ => 0#8) as t hg ht hlock 0).1 hchan⟩

/-- A writer of more than `PIPESIZE` bytes is killed as it fills the pipe. It gives up without
waking the reader, which sleeps on although the pipe is full. -/
theorem killed_writer_strands_reader :
    ∃ (as : List (PipeAction (Fin 2))) (t : PipeState (Fin 2)),
      run step (PipeState.init (Fin 2) fun _ => 0#8) as = .ok t ∧ t.lock = none ∧
        (t.proc 0).chan = some .nread ∧ t.pipe.Full ∧ ¬ t.pipe.Empty := by
  obtain ⟨t, ht, hq⟩ := run_ok_of_eval step (PipeState.init (Fin 2) fun _ => 0#8)
    ([.piperead 0 1, .acquire 0, .turn 0, .pipewrite 1 (fun _ => 7#8) 513, .acquire 1] ++
      List.replicate 512 (.turn 1) ++ [.kill 1, .turn 1])
    (fun t => decide (t.lock = none ∧ (t.proc 0).chan = some .nread ∧ t.pipe.Full ∧ ¬ t.pipe.Empty))
    (by decide +kernel)
  exact ⟨_, t, ht, of_decide_eq_true hq⟩

end PipeState

end Xv6Mmap
