import Mathlib.Data.Fintype.Basic
import Xv6Mmap.Kalloc
import Xv6Mmap.Lib.Run
import Xv6Mmap.Lib.Tally

/-!
# The buffer cache (`bio.c`, `ide.c:102-168`)

The cache as a system of processes. `Bcache` holds the thirty buffers, the list `head.next …
head.prev` in which they are linked, the queue of the disk driver, and for each process the place
inside `bio.c` or `iderw` where others can interfere with it. The contents of the buffers are left
out. A sleep lock is its holder.

* `bget` is the section under `bcache.lock`: the scan for the block from the front of the list, and
  on a miss the scan for an unused buffer from the back. `acquiresleep` then takes the buffer's lock;
  an attempt that sleeps changes nothing.
* `bread` goes on to the disk if the buffer is not valid, `bwrite` always; `ideintr` completes the
  first request of the queue, and `iderwDone` is a turn of the loop that waits for it.
* `brelse` is the release of the sleep lock, `brelseUnref` the section under `bcache.lock`.
* `logWrite` is the `B_DIRTY` that `log_write` sets. It may come from any process, for any buffer.

**`buffer_cache_coherent`**: a block of a device other than zero is in at most one buffer, `refcnt`
counts the processes between `bget` and `brelse`, and a buffer that is referenced or dirty keeps its
block, in every run by any number of processes.
-/

namespace Xv6Mmap

open Lib
open Function (update update_self update_of_ne update_apply)

/-- `NBUF`. -/
def nbuf : Nat := 30

instance : NeZero nbuf := ⟨by decide⟩

/-- `struct buf`, less the data and the links. -/
structure Buf (ι : Type) where
  dev : Word
  blockno : Word
  /-- `B_VALID`. -/
  valid : Bool
  /-- `B_DIRTY`. -/
  dirty : Bool
  refcnt : Nat
  /-- Who holds the sleep lock. -/
  holder : Option ι

/-- Where a process is. -/
inductive BioPc where
  | running
  /-- In `bget`, asleep on the buffer's lock or about to take it. -/
  | acquiring (b : Fin nbuf)
  /-- In `bread`, with the buffer locked. -/
  | locked (b : Fin nbuf)
  /-- In `iderw`, waiting for the disk. -/
  | waiting (b : Fin nbuf)
  /-- In `brelse`, with the buffer's lock released. -/
  | releasing (b : Fin nbuf)
  deriving DecidableEq, Repr

structure Bcache (ι : Type) where
  buf : Fin nbuf → Buf ι
  /-- From `head.next`, the most recently used, to `head.prev`. -/
  list : List (Fin nbuf)
  idequeue : List (Fin nbuf)
  pc : ι → BioPc

/-- `binit()`: each buffer is linked in behind the head. -/
def binit (ι : Type) : Bcache ι where
  buf _ := ⟨0#32, 0#32, false, false, 0, none⟩
  list := (List.finRange nbuf).reverse
  idequeue := []
  pc _ := .running

inductive BioAction (ι : Type) where
  | bget (i : ι) (dev blockno : Word)
  | acquiresleep (i : ι)
  | bread (i : ι)
  | bwrite (i : ι) (b : Fin nbuf)
  | iderwDone (i : ι)
  | ideintr
  | logWrite (i : ι) (b : Fin nbuf)
  | brelse (i : ι) (b : Fin nbuf)
  | brelseUnref (i : ι)

namespace Bcache

variable {ι : Type} [DecidableEq ι]

def setBuf (s : Bcache ι) (b : Fin nbuf) (x : Buf ι) : Bcache ι :=
  { s with buf := update s.buf b x }

def goto (s : Bcache ι) (i : ι) (pc : BioPc) : Bcache ι :=
  { s with pc := update s.pc i pc }

@[simp] theorem goto_pc (s : Bcache ι) (i : ι) (pc : BioPc) :
    (s.goto i pc).pc = update s.pc i pc := rfl

/-- The first scan of `bget`. -/
def lookup (s : Bcache ι) (dev blockno : Word) : Option (Fin nbuf) :=
  s.list.find? fun b => (s.buf b).dev == dev && (s.buf b).blockno == blockno

/-- The second scan of `bget`. -/
def victim (s : Bcache ι) : Option (Fin nbuf) :=
  s.list.reverse.find? fun b => (s.buf b).refcnt == 0 && !(s.buf b).dirty

/-- `bget(dev, blockno)` up to its `release`. -/
def bget (s : Bcache ι) (i : ι) (dev blockno : Word) : Except Halt (Bcache ι) :=
  match s.lookup dev blockno with
  | some b =>
    .ok ((s.setBuf b { s.buf b with refcnt := (s.buf b).refcnt + 1 }).goto i (.acquiring b))
  | none =>
    match s.victim with
    | some b =>
      .ok ((s.setBuf b ⟨dev, blockno, false, false, 1, (s.buf b).holder⟩).goto i (.acquiring b))
    | none => .error (.panic "bget: no buffers")

/-- A turn of `acquiresleep(&b->lock)`. -/
def acquiresleep (s : Bcache ι) (i : ι) (b : Fin nbuf) : Bcache ι :=
  match (s.buf b).holder with
  | some _ => s
  | none => (s.setBuf b { s.buf b with holder := some i }).goto i (.locked b)

/-- `iderw(b)` up to its wait. -/
def iderw (s : Bcache ι) (i : ι) (b : Fin nbuf) : Except Halt (Bcache ι) :=
  if (s.buf b).holder ≠ some i then .error (.panic "iderw: buf not locked")
  else if (s.buf b).valid && !(s.buf b).dirty then .error (.panic "iderw: nothing to do")
  else .ok ({ s with idequeue := s.idequeue ++ [b] }.goto i (.waiting b))

/-- `bread` from where `bget` returned. -/
def bread (s : Bcache ι) (i : ι) (b : Fin nbuf) : Except Halt (Bcache ι) :=
  if (s.buf b).valid then .ok (s.goto i .running) else s.iderw i b

/-- `bwrite(b)` up to its wait. -/
def bwrite (s : Bcache ι) (i : ι) (b : Fin nbuf) : Except Halt (Bcache ι) :=
  if (s.buf b).holder ≠ some i then .error (.panic "bwrite")
  else (s.setBuf b { s.buf b with dirty := true }).iderw i b

/-- A turn of the loop at the end of `iderw`. -/
def iderwDone (s : Bcache ι) (i : ι) (b : Fin nbuf) : Bcache ι :=
  if (s.buf b).valid && !(s.buf b).dirty then s.goto i .running else s

/-- `ideintr()`. -/
def ideintr (s : Bcache ι) : Bcache ι :=
  match s.idequeue with
  | [] => s
  | b :: queue =>
    { s with idequeue := queue }.setBuf b { s.buf b with valid := true, dirty := false }

/-- The flag `log_write(b)` sets. -/
def logWrite (s : Bcache ι) (b : Fin nbuf) : Bcache ι :=
  s.setBuf b { s.buf b with dirty := true }

/-- `brelse(b)` up to its `acquire`. -/
def brelse (s : Bcache ι) (i : ι) (b : Fin nbuf) : Except Halt (Bcache ι) :=
  if (s.buf b).holder ≠ some i then .error (.panic "brelse")
  else .ok ((s.setBuf b { s.buf b with holder := none }).goto i (.releasing b))

/-- `brelse(b)` from its `acquire` on: a buffer nobody waits for moves to the front. -/
def brelseUnref (s : Bcache ι) (i : ι) (b : Fin nbuf) : Bcache ι :=
  { s.setBuf b { s.buf b with refcnt := (s.buf b).refcnt - 1 } with
    list := if (s.buf b).refcnt - 1 = 0 then b :: s.list.erase b else s.list }.goto i .running

/-- An action of one process, where that process is, or of the disk. -/
def step (s : Bcache ι) : BioAction ι → Except Halt (Bcache ι)
  | .bget i dev blockno =>
    match s.pc i with
    | .running => s.bget i dev blockno
    | _ => .error .blocked
  | .acquiresleep i =>
    match s.pc i with
    | .acquiring b => .ok (s.acquiresleep i b)
    | _ => .error .blocked
  | .bread i =>
    match s.pc i with
    | .locked b => s.bread i b
    | _ => .error .blocked
  | .bwrite i b =>
    match s.pc i with
    | .running => s.bwrite i b
    | _ => .error .blocked
  | .iderwDone i =>
    match s.pc i with
    | .waiting b => .ok (s.iderwDone i b)
    | _ => .error .blocked
  | .ideintr => .ok s.ideintr
  | .logWrite i b =>
    match s.pc i with
    | .running => .ok (s.logWrite b)
    | _ => .error .blocked
  | .brelse i b =>
    match s.pc i with
    | .running => s.brelse i b
    | _ => .error .blocked
  | .brelseUnref i =>
    match s.pc i with
    | .releasing b => .ok (s.brelseUnref i b)
    | _ => .error .blocked

end Bcache

/-! ## Coherence -/

/-- The process is between `bget` and `brelse` of `b` and does not hold the lock of `b`. -/
def BioPc.uses (b : Fin nbuf) : BioPc → Nat
  | .acquiring c | .releasing c => if c = b then 1 else 0
  | _ => 0

/-- How many processes hold the lock. -/
def Buf.held {ι : Type} (x : Buf ι) : Nat := x.holder.isSome.toNat

namespace Bcache

variable {ι : Type} [Fintype ι] {s s' : Bcache ι}

/-- What holds of the cache in every state. -/
structure Inv (s : Bcache ι) : Prop where
  nodup : s.list.Nodup
  /-- Both scans see every buffer. -/
  linked : ∀ b, b ∈ s.list
  unique : ∀ b c, (s.buf b).dev ≠ 0#32 → (s.buf b).dev = (s.buf c).dev →
    (s.buf b).blockno = (s.buf c).blockno → b = c
  refcnt : ∀ b, (s.buf b).refcnt = (s.buf b).held + tally (BioPc.uses b) s.pc
  released : ∀ i b, s.pc i = .releasing b → (s.buf b).holder ≠ some i

theorem inv_binit : (binit ι).Inv where
  nodup := List.nodup_reverse.mpr (List.nodup_finRange nbuf)
  linked b := List.mem_reverse.mpr (List.mem_finRange b)
  unique _ _ hdev := absurd rfl hdev
  refcnt b := by
    have : tally (BioPc.uses b) (binit ι).pc = 0 := tally_eq_zero.mpr fun _ => rfl
    rw [this]
    rfl
  released _ _ hpc := by cases hpc

variable {b : Fin nbuf} {x : Buf ι}

/-- The buffer `b` becomes `x` and the processes move, all else fixed: the invariant is kept if `b`
keeps its block or gets one that no buffer has, and if the count of `b` is right. -/
theorem Inv.move (h : s.Inv) {list queue : List (Fin nbuf)}
    {pc : ι → BioPc} (hlist : list.Perm s.list)
    (hblock : x.dev = (s.buf b).dev ∧ x.blockno = (s.buf b).blockno ∨
      ∀ c, ¬ ((s.buf c).dev = x.dev ∧ (s.buf c).blockno = x.blockno))
    (hself : x.refcnt = x.held + tally (BioPc.uses b) pc)
    (hother : ∀ c, c ≠ b → tally (BioPc.uses c) pc = tally (BioPc.uses c) s.pc)
    (hrel : ∀ i c, pc i = .releasing c → (update s.buf b x c).holder ≠ some i) :
    Inv ⟨update s.buf b x, list, queue, pc⟩ where
  nodup := hlist.nodup_iff.mpr h.nodup
  linked c := hlist.mem_iff.mpr (h.linked c)
  unique c d := by
    obtain ⟨hdev, hblk⟩ | hfresh := hblock
    · have hkeep : ∀ e, (update s.buf b x e).dev = (s.buf e).dev ∧
          (update s.buf b x e).blockno = (s.buf e).blockno := by
        intro e
        by_cases he : e = b
        · subst he
          rw [update_self]
          exact ⟨hdev, hblk⟩
        · rw [update_of_ne he]
          exact ⟨rfl, rfl⟩
      simp only [(hkeep c).1, (hkeep c).2, (hkeep d).1, (hkeep d).2]
      exact h.unique c d
    · simp only [update_apply]
      split <;> split
      · simp_all
      · intro _ hd hb
        exact absurd ⟨hd.symm, hb.symm⟩ (hfresh d)
      · intro _ hd hb
        exact absurd ⟨hd, hb⟩ (hfresh c)
      · exact h.unique c d
  refcnt c := by
    by_cases hc : c = b
    · subst hc
      simpa only [update_self] using hself
    · simp only [update_of_ne hc, hother c hc]
      exact h.refcnt c
  released := hrel

theorem Inv.released_buf (h : s.Inv) (hx : x.holder = (s.buf b).holder) (i : ι) (c : Fin nbuf)
    (hpc : s.pc i = .releasing c) :
    (update s.buf b x c).holder ≠ some i := by
  by_cases hc : c = b
  · subst hc
    rw [update_self, hx]
    exact h.released i c hpc
  · rw [update_of_ne hc]
    exact h.released i c hpc

theorem lookup_eq_none {dev blockno : Word} (h : s.Inv) (hl : s.lookup dev blockno = none)
    (c : Fin nbuf) : ¬ ((s.buf c).dev = dev ∧ (s.buf c).blockno = blockno) := by
  have := List.find?_eq_none.mp hl c (h.linked c)
  simpa using this

omit [Fintype ι] in
theorem victim_spec (hv : s.victim = some b) :
    (s.buf b).refcnt = 0 ∧ (s.buf b).dirty = false := by
  have := List.find?_some hv
  simpa using this

variable [DecidableEq ι]

variable {c : Fin nbuf} {i : ι}

/-- A process moves between places that do not use `c`. -/
theorem uses_update_of_eq {pc : BioPc} (h : pc.uses c = (s.pc i).uses c) :
    tally (BioPc.uses c) (update s.pc i pc) = tally (BioPc.uses c) s.pc :=
  tally_update_of_eq h

/-- The lock of `b` is left as it is, released, or taken by the process that moves; a process that
goes to release a buffer has released its lock. -/
theorem Inv.released_update (h : s.Inv) {pc : BioPc}
    (hx : x.holder = (s.buf b).holder ∨ x.holder = none ∨ x.holder = some i)
    (hpc : ∀ c, pc = .releasing c → c = b ∧ x.holder = none) (j : ι) (c : Fin nbuf)
    (hj : update s.pc i pc j = .releasing c) :
    (update s.buf b x c).holder ≠ some j := by
  by_cases hji : j = i
  · subst hji
    rw [update_self] at hj
    obtain ⟨rfl, hnone⟩ := hpc c hj
    rw [update_self, hnone]
    exact nofun
  rw [update_of_ne hji] at hj
  by_cases hc : c = b
  · subst hc
    rw [update_self]
    obtain hx | hx | hx := hx
    · rw [hx]
      exact h.released j c hj
    · rw [hx]
      exact nofun
    · rw [hx]
      exact fun he => hji (Option.some.inj he).symm
  · rw [update_of_ne hc]
    exact h.released j c hj

/-- Process `i` passes on between places that use at most the buffer `b`, which becomes `x`. -/
theorem Inv.pass (h : s.Inv) {x : Buf ι} {i : ι} {pc pc' : BioPc} {list queue : List (Fin nbuf)}
    (hpc : s.pc i = pc) (hlist : list.Perm s.list)
    (hblock : x.dev = (s.buf b).dev ∧ x.blockno = (s.buf b).blockno ∨
      ∀ c, ¬ ((s.buf c).dev = x.dev ∧ (s.buf c).blockno = x.blockno))
    (huses : ∀ c, c ≠ b → pc'.uses c = pc.uses c)
    (hcount : x.refcnt + ((s.buf b).held + pc.uses b) = (s.buf b).refcnt + (x.held + pc'.uses b))
    (hx : x.holder = (s.buf b).holder ∨ x.holder = none ∨ x.holder = some i)
    (hrel : ∀ c, pc' = .releasing c → c = b ∧ x.holder = none) :
    Inv ⟨update s.buf b x, list, queue, update s.pc i pc'⟩ := by
  have htally := tally_update (BioPc.uses b) s.pc i pc'
  have hold := h.refcnt b
  rw [hpc] at htally
  refine h.move hlist hblock (by omega) (fun c hc => uses_update_of_eq ?_)
    (h.released_update hx hrel)
  rw [hpc, huses c hc]

omit [DecidableEq ι] in
theorem uses_of_ne {c : Fin nbuf} (h : c ≠ b) :
    (BioPc.acquiring b).uses c = 0 ∧ (BioPc.releasing b).uses c = 0 := by
  simp [BioPc.uses, h.symm]

theorem Inv.bget (h : s.Inv) {i : ι} {dev blockno : Word} (hpc : s.pc i = .running)
    (hs : s.bget i dev blockno = .ok s') : s'.Inv := by
  unfold Bcache.bget at hs
  cases hl : s.lookup dev blockno with
  | some b =>
    rw [hl] at hs
    cases hs
    refine h.pass hpc (.refl _) (.inl ⟨rfl, rfl⟩) (fun c hc => (uses_of_ne hc).1) ?_ (.inl rfl) nofun
    simp only [BioPc.uses, Buf.held, if_true]
    omega
  | none =>
    rw [hl] at hs
    cases hv : s.victim with
    | none => simp [hv] at hs
    | some b =>
      simp only [hv, Except.ok.injEq] at hs
      subst hs
      refine h.pass hpc (.refl _) (.inr (lookup_eq_none h hl)) (fun c hc => (uses_of_ne hc).1) ?_
        (.inl rfl) nofun
      simp only [(victim_spec hv).1, BioPc.uses, Buf.held, if_true]
      omega

theorem Inv.acquiresleep (h : s.Inv) {i : ι} (hpc : s.pc i = .acquiring b) :
    (s.acquiresleep i b).Inv := by
  unfold Bcache.acquiresleep
  cases hb : (s.buf b).holder with
  | some j => exact h
  | none =>
    refine h.pass hpc (.refl _) (.inl ⟨rfl, rfl⟩) (fun c hc => (uses_of_ne hc).1.symm) ?_
      (.inr (.inr rfl)) nofun
    simp [BioPc.uses, Buf.held, hb]

/-- A process moves between places that use the same buffers. -/
theorem Inv.goto (h : s.Inv) (pc : BioPc) (queue : List (Fin nbuf))
    (hpc : ∀ c, pc.uses c = (s.pc i).uses c) (hrel : ∀ c, pc ≠ .releasing c) :
    Inv ({ s with idequeue := queue }.goto i pc) where
  nodup := h.nodup
  linked := h.linked
  unique := h.unique
  refcnt c := by
    rw [goto_pc, uses_update_of_eq (by exact hpc c)]
    exact h.refcnt c
  released j c hj := by
    rw [goto_pc] at hj
    by_cases hji : j = i
    · subst hji
      rw [update_self] at hj
      exact absurd hj (hrel c)
    · rw [update_of_ne hji] at hj
      exact h.released j c hj

theorem Inv.iderw (h : s.Inv) (hpc : ∀ c, (s.pc i).uses c = 0) (hs : s.iderw i b = .ok s') :
    s'.Inv := by
  unfold Bcache.iderw at hs
  split at hs
  · cases hs
  · split at hs <;> cases hs
    exact h.goto (.waiting b) (s.idequeue ++ [b]) (fun c => (hpc c).symm) nofun

theorem Inv.bread (h : s.Inv) (hpc : s.pc i = .locked b) (hs : s.bread i b = .ok s') : s'.Inv := by
  unfold Bcache.bread at hs
  split at hs
  · cases hs
    exact h.goto .running s.idequeue (fun c => by rw [hpc]; rfl) nofun
  · exact h.iderw (fun c => by rw [hpc]; rfl) hs

omit [DecidableEq ι] in
theorem Inv.logWrite (h : s.Inv) (b : Fin nbuf) : (s.logWrite b).Inv :=
  h.move (.refl _) (.inl ⟨rfl, rfl⟩) (h.refcnt b) (fun _ _ => rfl) (h.released_buf rfl)

theorem Inv.bwrite (h : s.Inv) (hpc : s.pc i = .running) (hs : s.bwrite i b = .ok s') : s'.Inv := by
  unfold Bcache.bwrite at hs
  split at hs
  · cases hs
  · refine (h.logWrite b).iderw (fun c => ?_) hs
    show (s.pc i).uses c = 0
    rw [hpc]
    rfl

theorem Inv.iderwDone (h : s.Inv) (hpc : s.pc i = .waiting b) :
    (s.iderwDone i b).Inv := by
  unfold Bcache.iderwDone
  split
  · exact h.goto .running s.idequeue (fun c => by rw [hpc]; rfl) nofun
  · exact h

omit [DecidableEq ι] in
theorem Inv.ideintr (h : s.Inv) : s.ideintr.Inv := by
  unfold Bcache.ideintr
  cases s.idequeue with
  | nil => exact h
  | cons b queue =>
    exact h.move (.refl _) (.inl ⟨rfl, rfl⟩) (h.refcnt b) (fun _ _ => rfl) (h.released_buf rfl)

theorem Inv.brelse (h : s.Inv) {i : ι} (hpc : s.pc i = .running)
    (hs : s.brelse i b = .ok s') : s'.Inv := by
  unfold Bcache.brelse at hs
  split at hs <;> cases hs
  rename_i hheld
  refine h.pass hpc (.refl _) (.inl ⟨rfl, rfl⟩) (fun c hc => (uses_of_ne hc).2) ?_ (.inr (.inl rfl))
    (by rintro c ⟨⟩; exact ⟨rfl, rfl⟩)
  simp [BioPc.uses, Buf.held, not_not.mp hheld]

theorem Inv.brelseUnref (h : s.Inv) {i : ι} (hpc : s.pc i = .releasing b) :
    (s.brelseUnref i b).Inv := by
  have hpos : 0 < (s.buf b).refcnt := by
    have hle := le_tally (BioPc.uses b) s.pc i
    have hrefcnt := h.refcnt b
    simp only [hpc, BioPc.uses, if_true] at hle
    omega
  refine h.pass hpc ?_ (.inl ⟨rfl, rfl⟩) (fun c hc => (uses_of_ne hc).2.symm) ?_ (.inl rfl) nofun
  · split
    · exact (List.perm_cons_erase (h.linked b)).symm
    · exact .refl _
  · simp only [BioPc.uses, Buf.held, if_true]
    omega

theorem Inv.step (h : s.Inv) {a : BioAction ι} (hs : s.step a = .ok s') : s'.Inv := by
  cases a with
  | bget i dev blockno =>
    simp only [Bcache.step] at hs
    split at hs
    · exact h.bget ‹_› hs
    · cases hs
  | acquiresleep i =>
    simp only [Bcache.step] at hs
    split at hs <;> cases hs
    exact h.acquiresleep ‹_›
  | bread i =>
    simp only [Bcache.step] at hs
    split at hs
    · exact h.bread ‹_› hs
    · cases hs
  | bwrite i b =>
    simp only [Bcache.step] at hs
    split at hs
    · exact h.bwrite ‹_› hs
    · cases hs
  | iderwDone i =>
    simp only [Bcache.step] at hs
    split at hs <;> cases hs
    exact h.iderwDone ‹_›
  | ideintr =>
    cases hs
    exact h.ideintr
  | logWrite i b =>
    simp only [Bcache.step] at hs
    split at hs <;> cases hs
    exact h.logWrite b
  | brelse i b =>
    simp only [Bcache.step] at hs
    split at hs
    · exact h.brelse ‹_› hs
    · cases hs
  | brelseUnref i =>
    simp only [Bcache.step] at hs
    split at hs <;> cases hs
    exact h.brelseUnref ‹_›

/-! ## The results -/

/-- Process `i` is between its `bget` and its `brelse` of `b`. -/
def InUse (s : Bcache ι) (b : Fin nbuf) (i : ι) : Prop :=
  (s.buf b).holder = some i ∨ s.pc i = .acquiring b ∨ s.pc i = .releasing b

instance (s : Bcache ι) (b : Fin nbuf) : DecidablePred (s.InUse b) := fun i =>
  inferInstanceAs (Decidable ((s.buf b).holder = some i ∨ s.pc i = .acquiring b ∨
    s.pc i = .releasing b))

omit [DecidableEq ι] in
theorem uses_eq_card (s : Bcache ι) (b : Fin nbuf) :
    tally (BioPc.uses b) s.pc
      = (Finset.univ.filter fun i => s.pc i = .acquiring b ∨ s.pc i = .releasing b).card := by
  rw [Finset.card_filter]
  refine Finset.sum_congr rfl fun i _ => ?_
  cases s.pc i <;> simp [BioPc.uses]

theorem held_eq_card (s : Bcache ι) (b : Fin nbuf) :
    (s.buf b).held = (Finset.univ.filter fun i => (s.buf b).holder = some i).card := by
  unfold Buf.held
  cases (s.buf b).holder with
  | none => simp
  | some j => simp [Finset.filter_eq]

/-- `refcnt` counts the processes between `bget` and `brelse`; one that asks for a buffer it holds,
and waits for itself, counts twice. -/
theorem Inv.refcnt_eq (h : s.Inv) (b : Fin nbuf) :
    (s.buf b).refcnt = (Finset.univ.filter (s.InUse b)).card +
      (Finset.univ.filter fun i => (s.buf b).holder = some i ∧ s.pc i = .acquiring b).card := by
  have hunion : Finset.univ.filter (s.InUse b)
      = (Finset.univ.filter fun i => (s.buf b).holder = some i) ∪
        (Finset.univ.filter fun i => s.pc i = .acquiring b ∨ s.pc i = .releasing b) := by
    ext i
    simp [InUse]
  have hinter : (Finset.univ.filter fun i => (s.buf b).holder = some i ∧ s.pc i = .acquiring b)
      = (Finset.univ.filter fun i => (s.buf b).holder = some i) ∩
        (Finset.univ.filter fun i => s.pc i = .acquiring b ∨ s.pc i = .releasing b) := by
    ext i
    have := h.released i b
    simp only [Finset.mem_filter_univ, Finset.mem_inter]
    tauto
  rw [h.refcnt, hunion, hinter, Finset.card_union_add_card_inter, ← held_eq_card, ← uses_eq_card]

/-- Every buffer has the block it had. -/
def SameBlocks (s s' : Bcache ι) : Prop :=
  ∀ b, (s'.buf b).dev = (s.buf b).dev ∧ (s'.buf b).blockno = (s.buf b).blockno

omit [Fintype ι] [DecidableEq ι] in
theorem sameBlocks_update {list queue : List (Fin nbuf)} {pc : ι → BioPc}
    (hd : x.dev = (s.buf c).dev) (hb : x.blockno = (s.buf c).blockno) :
    s.SameBlocks ⟨update s.buf c x, list, queue, pc⟩ := by
  intro b
  by_cases hbc : b = c
  · subst hbc
    simp only [update_self]
    exact ⟨hd, hb⟩
  · simp only [update_of_ne hbc, and_self]

omit [Fintype ι] in
theorem iderw_keeps {i : ι} (hs : s.iderw i b = .ok s') : s'.list = s.list ∧ s.SameBlocks s' := by
  unfold iderw at hs
  split at hs
  · cases hs
  · split at hs <;> cases hs
    exact ⟨rfl, fun _ => ⟨rfl, rfl⟩⟩

omit [Fintype ι] in
/-- Only `brelse` changes the list. Only a miss in `bget` gives a buffer another block, and it takes
an unused one. -/
theorem step_keeps {a : BioAction ι} (hs : s.step a = .ok s') :
    ((∀ i, a ≠ .brelseUnref i) → s'.list = s.list) ∧ (s.SameBlocks s' ∨
      ∃ v, s.victim = some v ∧ ∀ b, b ≠ v → s'.buf b = s.buf b) := by
  cases a with
  | bget i dev blockno =>
    simp only [step] at hs
    split at hs
    · unfold bget at hs
      split at hs
      · cases hs
        exact ⟨fun _ => rfl, .inl (sameBlocks_update rfl rfl)⟩
      · split at hs
        · rename_i v hv
          cases hs
          exact ⟨fun _ => rfl, .inr ⟨v, hv, fun b hb => update_of_ne hb ..⟩⟩
        · cases hs
    · cases hs
  | acquiresleep i =>
    simp only [step] at hs
    split at hs <;> cases hs
    unfold acquiresleep
    split
    · exact ⟨fun _ => rfl, .inl fun _ => ⟨rfl, rfl⟩⟩
    · exact ⟨fun _ => rfl, .inl (sameBlocks_update rfl rfl)⟩
  | bread i =>
    simp only [step, bread] at hs
    split at hs
    · split at hs
      · cases hs
        exact ⟨fun _ => rfl, .inl fun _ => ⟨rfl, rfl⟩⟩
      · exact ⟨fun _ => (iderw_keeps hs).1, .inl (iderw_keeps hs).2⟩
    · cases hs
  | bwrite i b =>
    simp only [step, bwrite] at hs
    split at hs
    · split at hs
      · cases hs
      · have hdirty : s.SameBlocks (s.logWrite b) := sameBlocks_update rfl rfl
        obtain ⟨hlist, hsame⟩ := iderw_keeps hs
        exact ⟨fun _ => hlist, .inl fun c =>
          ⟨(hsame c).1.trans (hdirty c).1, (hsame c).2.trans (hdirty c).2⟩⟩
    · cases hs
  | iderwDone i =>
    simp only [step] at hs
    split at hs <;> cases hs
    unfold iderwDone
    split <;> exact ⟨fun _ => rfl, .inl fun _ => ⟨rfl, rfl⟩⟩
  | ideintr =>
    cases hs
    unfold ideintr
    split
    · exact ⟨fun _ => rfl, .inl fun _ => ⟨rfl, rfl⟩⟩
    · exact ⟨fun _ => rfl, .inl (sameBlocks_update rfl rfl)⟩
  | logWrite i b =>
    simp only [step] at hs
    split at hs <;> cases hs
    exact ⟨fun _ => rfl, .inl (sameBlocks_update rfl rfl)⟩
  | brelse i b =>
    simp only [step, brelse] at hs
    split at hs
    · split at hs <;> cases hs
      exact ⟨fun _ => rfl, .inl (sameBlocks_update rfl rfl)⟩
    · cases hs
  | brelseUnref i =>
    simp only [step] at hs
    split at hs <;> cases hs
    exact ⟨fun ha => absurd rfl (ha i), .inl (sameBlocks_update rfl rfl)⟩

omit [Fintype ι] in
theorem step_sameBlocks {a : BioAction ι} (hs : s.step a = .ok s') :
    s.SameBlocks s' ∨ ∃ v, s.victim = some v ∧ ∀ b, b ≠ v → s'.buf b = s.buf b :=
  (step_keeps hs).2

/-- **The buffer cache is coherent** in every state of every run by any number of processes: a
block of a device other than zero is in at most one buffer; whatever the next step is, a buffer
that is referenced or dirty keeps its block; and `refcnt` is the number of processes between `bget`
and `brelse` (one that asks for a buffer it holds is there twice). -/
theorem buffer_cache_coherent (as : List (BioAction ι)) (t : Bcache ι)
    (hr : run step (binit ι) as = .ok t) :
    (∀ dev blockno b c, dev ≠ 0#32 → (t.buf b).dev = dev → (t.buf b).blockno = blockno →
        (t.buf c).dev = dev → (t.buf c).blockno = blockno → b = c) ∧
      (∀ a t', t.step a = .ok t' → ∀ b, 0 < (t.buf b).refcnt ∨ (t.buf b).dirty = true →
        (t'.buf b).dev = (t.buf b).dev ∧ (t'.buf b).blockno = (t.buf b).blockno) ∧
      ∀ b, (t.buf b).refcnt = (Finset.univ.filter (t.InUse b)).card +
        (Finset.univ.filter fun i => (t.buf b).holder = some i ∧ t.pc i = .acquiring b).card := by
  have h : t.Inv := run_invariant_of_step Inv (fun _ _ _ h => h.step) inv_binit hr
  refine ⟨?_, ?_, h.refcnt_eq⟩
  · rintro _ _ b c hdev rfl rfl hd hb
    exact h.unique b c hdev hd.symm hb.symm
  · intro a t' hs b hb
    obtain hsame | ⟨v, hv, hother⟩ := step_sameBlocks hs
    · exact hsame b
    · have hbv : b ≠ v := by
        rintro rfl
        obtain ⟨hzero, hclean⟩ := victim_spec hv
        rw [hzero, hclean] at hb
        simp at hb
      rw [hother b hbv]
      exact ⟨rfl, rfl⟩

/-- Two processes share the buffer of a block; it stays theirs while it is dirty, and the next block
goes to another one. -/
theorem buffer_cache_coherent_shared_block :
    let as : List (BioAction (Fin 2)) :=
      [.bget 0 1#32 5#32, .bget 1 1#32 5#32, .acquiresleep 1, .bread 1, .ideintr, .iderwDone 1,
        .logWrite 1 0, .brelse 1 0, .brelseUnref 1, .bget 1 1#32 6#32]
    ∃ t, run step (binit (Fin 2)) as = .ok t ∧ (t.buf 0).dirty = true ∧ t.pc 1 = .acquiring 1 ∧
      (t.buf 0).refcnt = (Finset.univ.filter (t.InUse 0)).card +
        (Finset.univ.filter fun i => (t.buf 0).holder = some i ∧ t.pc i = .acquiring 0).card := by
  intro as
  obtain ⟨t, ht, hq⟩ := run_ok_of_eval step (binit (Fin 2)) as
    (fun t => (t.buf 0).dirty && decide (t.pc 1 = .acquiring 1)) (by decide +kernel)
  obtain ⟨hdirty, hpc⟩ := Bool.and_eq_true_iff.mp hq
  exact ⟨t, ht, hdirty, of_decide_eq_true hpc, (buffer_cache_coherent as t ht).2.2 0⟩

end Bcache

end Xv6Mmap
