import Xv6Mmap.Kalloc
import Xv6Mmap.Lib.Ring
import Xv6Mmap.Lib.Run

/-!
# Console input (`console.c:181-271`)

The ring that `consoleintr` fills and `consoleread` empties, with its three free-running indices:
`[r, w)` are the lines that were entered, `[w, e)` is the line being edited. `consoleintr` runs from
`acquire(&cons.lock)` to `release` in one step, with all the characters `getc` has for it (those of
`uartgetc` and `kbdgetc` are bytes). A process enters `consoleread` by a call, takes the lock, and
makes one `turn` of the loop at a time until it sleeps or returns; `sleep` gives up the lock in one
step, and a process that is woken takes it again. What is echoed, `procdump` and the lock of the
inode are left out: no index depends on them.

As ghosts, `typed` are all characters handled, `edit` is the line being edited as its editor sees
it, `entered` are the characters of all entered lines, `consumed` those that reads have taken, with
the process that took them.

* **`console_ring`**: the indices stay in order and at most `INPUT_BUF` apart, `[r, w)` holds what
  was entered and not yet consumed, reads consume it in order, a full ring has something to read,
  and no reader sleeps while there is.
-/

namespace Xv6Mmap

open Lib
open Function (update update_self update_of_ne)

/-- `INPUT_BUF`. -/
def inputBuf : Nat := 128

/-- `C(x)`. -/
def ctrl (x : Char) : Byte := BitVec.ofNat 8 (x.toNat - '@'.toNat)

def newline : Byte := 10#8

/-- `input`. -/
structure Input where
  buf : Nat → Byte
  /-- Read index. -/
  r : Word
  /-- Write index. -/
  w : Word
  /-- Edit index. -/
  e : Word

namespace Input

/-- `input.buf[input.e++ % INPUT_BUF] = c`. -/
def put (i : Input) (c : Byte) : Input :=
  { i with buf := update i.buf (i.e.toNat % inputBuf) c, e := i.e + 1#32 }

/-- The loop of the case `C('U')`, which turns at most `e - w` times. -/
def killLine : Nat → Input → Input
  | 0, i => i
  | k + 1, i =>
    if i.e ≠ i.w ∧ i.buf ((i.e - 1#32).toNat % inputBuf) ≠ newline then
      killLine k { i with e := i.e - 1#32 }
    else i

end Input

structure ConsProc where
  /-- `target` and `n` of the `consoleread` the process is in. -/
  pc : Option (Int × Int)
  killed : Bool
  /-- The process is `SLEEPING` on `&input.r`. -/
  asleep : Bool
  /-- What the process's reads have stored at `dst`, of all of them. -/
  dst : List Byte
  /-- What its last read returned. -/
  ret : Int

structure ConsState (ι : Type) where
  input : Input
  /-- Who holds `cons.lock`. -/
  lock : Option ι
  proc : ι → ConsProc
  typed : List Byte
  edit : List Byte
  entered : List Byte
  consumed : List (ι × Byte)

inductive ConsAction (ι : Type) where
  | consoleintr (cs : List Byte)
  | consoleread (p : ι) (n : Int)
  | acquire (p : ι)
  | turn (p : ι)
  | kill (p : ι)

namespace ConsState

def init (ι : Type) (buf : Nat → Byte) : ConsState ι where
  input := ⟨buf, 0#32, 0#32, 0#32⟩
  lock := none
  proc _ := ⟨none, false, false, [], 0⟩
  typed := []
  edit := []
  entered := []
  consumed := []

variable {ι : Type}

/-- `wakeup(&input.r)`. -/
def wakeup (s : ConsState ι) : ConsState ι :=
  { s with proc := fun p => { s.proc p with asleep := false } }

/-- `input.w = input.e; wakeup(&input.r)`. -/
def enter (s : ConsState ι) : ConsState ι :=
  { s with
    input := { s.input with w := s.input.e }
    entered := s.entered ++ s.edit
    edit := [] }.wakeup

/-- The default case of `consoleintr`, for a character that is to be stored. -/
def store (s : ConsState ι) (c : Byte) : ConsState ι :=
  let s := { s with input := s.input.put c, edit := s.edit ++ [c] }
  if c = newline ∨ c = ctrl 'D' ∨ s.input.e = s.input.r + BitVec.ofNat 32 inputBuf then s.enter
  else s

/-- `(c == '\r') ? '\n' : c`. -/
def translate (c : Byte) : Byte := if c = 13#8 then newline else c

/-- The `switch` of `consoleintr`. -/
def key (s : ConsState ι) (c : Byte) : ConsState ι :=
  let s := { s with typed := s.typed ++ [translate c] }
  if c = ctrl 'P' then s
  else if c = ctrl 'U' then
    { s with input := s.input.killLine (s.input.e - s.input.w).toNat, edit := [] }
  else if c = ctrl 'H' ∨ c = 0x7f#8 then
    if s.input.e ≠ s.input.w then
      { s with input := { s.input with e := s.input.e - 1#32 }, edit := s.edit.dropLast }
    else s
  else if c ≠ 0#8 ∧ (s.input.e - s.input.r).toNat < inputBuf then s.store (translate c)
  else s

/-- `consoleintr(getc)`, for a `getc` that yields `cs`. -/
def consoleintr (s : ConsState ι) (cs : List Byte) : ConsState ι := cs.foldl key s

variable [DecidableEq ι]

def setProc (s : ConsState ι) (p : ι) (x : ConsProc) : ConsState ι :=
  { s with proc := update s.proc p x }

/-- `release(&cons.lock); return ret`. -/
def leave (s : ConsState ι) (p : ι) (ret : Int) : ConsState ι :=
  { s with lock := none }.setProc p { s.proc p with pc := none, ret := ret }

/-- `sleep(&input.r, &cons.lock)`, up to the switch to another process. -/
def sleep (s : ConsState ι) (p : ι) : ConsState ι :=
  { s with lock := none }.setProc p { s.proc p with asleep := true }

/-- `c = input.buf[input.r++ % INPUT_BUF]` and what follows in the turn. -/
def take (s : ConsState ι) (p : ι) (target n : Int) : ConsState ι :=
  let c := s.input.buf (s.input.r.toNat % inputBuf)
  let r := s.input.r + 1#32
  if c = ctrl 'D' then
    if n < target then { s with input := { s.input with r := r - 1#32 } }.leave p (target - n)
    else
      { s with
        input := { s.input with r := r }
        consumed := s.consumed ++ [(p, c)] }.leave p (target - n)
  else
    let s := { s with
      input := { s.input with r := r }
      consumed := s.consumed ++ [(p, c)] }
    let s := s.setProc p
      { s.proc p with dst := (s.proc p).dst ++ [c], pc := some (target, n - 1) }
    if c = newline then s.leave p (target - (n - 1)) else s

/-- A turn of the loops of `consoleread`, or its return. -/
def consoleread (s : ConsState ι) (p : ι) (target n : Int) : ConsState ι :=
  if n ≤ 0 then s.leave p (target - n)
  else if s.input.r = s.input.w then
    if (s.proc p).killed then s.leave p (-1) else s.sleep p
  else s.take p target n

/-- An action, where it can be taken. -/
def step (s : ConsState ι) : ConsAction ι → Except Halt (ConsState ι)
  | .consoleintr cs =>
    match s.lock with
    | none => .ok (s.consoleintr cs)
    | some _ => .error .blocked
  | .consoleread p n =>
    match (s.proc p).pc with
    | none => .ok (s.setProc p { s.proc p with pc := some (n, n) })
    | some _ => .error .blocked
  | .acquire p =>
    if (s.proc p).pc ≠ none ∧ (s.proc p).asleep = false ∧ s.lock = none then
      .ok { s with lock := some p }
    else .error .blocked
  | .turn p =>
    if s.lock = some p then
      match (s.proc p).pc with
      | some (target, n) => .ok (s.consoleread p target n)
      | none => .error .blocked
    else .error .blocked
  | .kill p => .ok (s.setProc p { s.proc p with killed := true, asleep := false })

/-! ## The invariant -/

/-- What process `p` has taken, less the `^D`s that ended its reads. -/
def takenBy (s : ConsState ι) (p : ι) : List Byte :=
  ((s.consumed.filter fun x => x.1 = p).map Prod.snd).filter (· ≠ ctrl 'D')

/-- `line` was entered and not yet consumed. -/
structure Sound (s : ConsState ι) (line : List Byte) : Prop where
  ring : Ring.Holds inputBuf s.input.buf s.input.r s.input.e (line ++ s.edit)
  w_eq : s.input.w = s.input.r + BitVec.ofNat 32 line.length
  entered : s.entered = s.consumed.map Prod.snd ++ line
  /-- A full ring has been entered. -/
  full : line.length + s.edit.length = inputBuf → s.edit = []
  /-- `C('U')` is not stopped by an earlier line. -/
  edit : newline ∉ s.edit
  typed : (s.entered ++ s.edit).Sublist s.typed
  dst : ∀ p, (s.proc p).dst = s.takenBy p
  asleep : ∀ p, (s.proc p).asleep = true → line = []

theorem sound_init (buf : Nat → Byte) : (init ι buf).Sound [] where
  ring := Ring.holds_nil buf 0#32
  w_eq := rfl
  entered := rfl
  full _ := rfl
  edit := List.not_mem_nil
  typed := List.Sublist.refl _
  dst _ := rfl
  asleep _ h := nomatch h

theorem inputBuf_lt : inputBuf < 2 ^ 32 := by decide

theorem inputBuf_dvd : inputBuf ∣ 2 ^ 32 := by decide

section Sound

variable {s : ConsState ι} {line : List Byte}

theorem Sound.length_le (h : s.Sound line) : line.length + s.edit.length ≤ inputBuf := by
  have := h.ring.length_le
  rwa [List.length_append] at this

theorem Sound.entered_line (h : s.Sound line) :
    Ring.Holds inputBuf s.input.buf s.input.r s.input.w line where
  length_le := by
    have := h.length_le
    omega
  tail_eq := h.w_eq
  cell k hk := by
    rw [h.ring.cell k (by rw [List.length_append]; omega), List.getElem_append_left hk]

theorem Sound.e_sub_r (h : s.Sound line) :
    (s.input.e - s.input.r).toNat = line.length + s.edit.length := by
  rw [h.ring.toNat_sub inputBuf_lt, List.length_append]

theorem Sound.w_sub_r (h : s.Sound line) : (s.input.w - s.input.r).toNat = line.length :=
  h.entered_line.toNat_sub inputBuf_lt

theorem Sound.e_eq (h : s.Sound line) :
    s.input.e = s.input.w + BitVec.ofNat 32 s.edit.length := by
  rw [h.ring.tail_eq, h.w_eq, List.length_append, BitVec.ofNat_add, BitVec.add_assoc]

theorem Sound.e_sub_w (h : s.Sound line) :
    (s.input.e - s.input.w).toNat = s.edit.length := by
  have hle := h.length_le
  have hlt := inputBuf_lt
  rw [h.e_eq, BitVec.add_comm, BitVec.add_sub_cancel, BitVec.toNat_ofNat]
  exact Nat.mod_eq_of_lt (by omega)

theorem Sound.e_eq_w_iff (h : s.Sound line) : s.input.e = s.input.w ↔ s.edit = [] := by
  constructor
  · intro he
    have := h.e_sub_w
    rw [he, BitVec.sub_self] at this
    exact List.length_eq_zero_iff.mp this.symm
  · intro hnil
    rw [h.e_eq, hnil]
    exact BitVec.add_zero _

/-! ## Characters -/

/-- The loop of `C('U')` takes back the whole line being edited, since it holds no newline. -/
theorem killLine_eq (i : Input) (edit : List Byte)
    (hr : Ring.Holds inputBuf i.buf i.r i.e (line ++ edit))
    (hw : i.w = i.r + BitVec.ofNat 32 line.length) (hnl : newline ∉ edit) :
    i.killLine edit.length = { i with e := i.w } := by
  -- From the last character to the first.
  induction edit using List.reverseRecOn generalizing i with
  | nil =>
    rw [List.append_nil] at hr
    have he : i.e = i.w := by rw [hr.tail_eq, hw]
    obtain ⟨buf, r, w, e⟩ := i
    cases he
    rfl
  | append_singleton edit a ih =>
    rw [← List.append_assoc] at hr
    obtain ⟨hlast, hr'⟩ := hr.unpush inputBuf_dvd
    have ha : a ≠ newline := fun h => hnl (by simp [h])
    have hne : i.e ≠ i.w := by
      intro he
      have hle := hr.length_le
      have := (hr.tail_eq_iff inputBuf_lt (n := line.length) (by
        simp only [List.length_append] at hle
        omega)).mp (by rw [he, hw])
      simp at this
    rw [List.length_append, List.length_singleton, Input.killLine, if_pos ⟨hne, hlast ▸ ha⟩]
    exact ih { i with e := i.e - 1#32 } hr' hw fun h => hnl (by simp [h])

/-- What one character does: lines may be entered, and `[r, w)` is left alone. -/
structure Keyed (s s' : ConsState ι) (line line' : List Byte) : Prop where
  sound : s'.Sound line'
  r : s'.input.r = s.input.r
  le : line.length ≤ line'.length
  cells : ∀ k, k < line.length → s'.input.buf ((s.input.r.toNat + k) % inputBuf)
    = s.input.buf ((s.input.r.toNat + k) % inputBuf)

/-- A character is stored in a ring that is not full. -/
theorem Sound.store (h : s.Sound line) (hroom : line.length + s.edit.length < inputBuf) (c : Byte)
    (ht : (s.entered ++ (s.edit ++ [c])).Sublist s.typed) :
    ∃ line', Keyed s (s.store c) line line' := by
  have hlen : (line ++ s.edit).length < inputBuf := by rwa [List.length_append]
  have hring := h.ring.push inputBuf_dvd hlen c
  rw [List.append_assoc] at hring
  have hcells : ∀ k, k < line.length →
      (s.input.put c).buf ((s.input.r.toNat + k) % inputBuf)
        = s.input.buf ((s.input.r.toNat + k) % inputBuf) := fun k hk =>
    h.ring.cell_push inputBuf_dvd hlen c (by rw [List.length_append]; omega)
  unfold ConsState.store
  dsimp only
  split
  · -- The line is entered.
    refine ⟨line ++ (s.edit ++ [c]), ?_, rfl, by simp, hcells⟩
    refine ⟨?_, hring.tail_eq, ?_, fun _ => rfl, List.not_mem_nil, ?_, h.dst, fun p hp => nomatch hp⟩
    · show Ring.Holds inputBuf _ _ _ (line ++ (s.edit ++ [c]) ++ [])
      rw [List.append_nil]
      exact hring
    · show s.entered ++ (s.edit ++ [c]) = _
      rw [h.entered, List.append_assoc]
      rfl
    · show (s.entered ++ (s.edit ++ [c]) ++ []).Sublist s.typed
      rwa [List.append_nil]
  · rename_i hstay
    obtain ⟨hnl, -, hfull⟩ := by simpa only [not_or] using hstay
    refine ⟨line, ⟨hring, h.w_eq, h.entered, fun hlen' => ?_, ?_, ht, h.dst, h.asleep⟩, rfl,
      Nat.le_refl _, hcells⟩
    · refine absurd ?_ hfull
      refine (hring.tail_eq_iff inputBuf_lt (Nat.le_refl _)).mpr ?_
      rw [List.length_append]
      exact hlen'
    · have := h.edit
      show newline ∉ s.edit ++ [c]
      simp [this, Ne.symm hnl]

/-- The line being edited loses characters at its end, and `e` is moved back over them. -/
theorem Sound.erase (h : s.Sound line) {i : Input} {edit : List Byte} (hbuf : i.buf = s.input.buf)
    (hr : i.r = s.input.r) (hw : i.w = s.input.w)
    (hring : Ring.Holds inputBuf i.buf i.r i.e (line ++ edit)) (hpre : edit <+: s.edit) :
    Keyed s { s with input := i, edit := edit } line line where
  sound :=
    { ring := hring
      w_eq := by
        show i.w = i.r + _
        rw [hw, hr]
        exact h.w_eq
      entered := h.entered
      full := fun hfull => by
        have := hpre.length_le
        have hle := h.length_le
        have hnil := h.full (by
          have : line.length + edit.length = inputBuf := hfull
          omega)
        rw [hnil] at hpre
        exact List.prefix_nil.mp hpre
      edit := fun hnl => h.edit (hpre.subset hnl)
      typed := (List.Sublist.append_left hpre.sublist _).trans h.typed
      dst := h.dst
      asleep := h.asleep }
  r := hr
  le := Nat.le_refl _
  cells k _ := by
    show i.buf _ = _
    rw [hbuf]

theorem Keyed.refl (h : s.Sound line) : Keyed s s line line :=
  ⟨h, rfl, Nat.le_refl _, fun _ _ => rfl⟩

theorem Sound.key (h : s.Sound line) (c : Byte) : ∃ line', Keyed s (s.key c) line line' := by
  set t : ConsState ι := { s with typed := s.typed ++ [translate c] } with ht
  have hsound : t.Sound line :=
    ⟨h.ring, h.w_eq, h.entered, h.full, h.edit, h.typed.trans (List.sublist_append_left ..),
      h.dst, h.asleep⟩
  -- `t` and `s` have the same ring.
  have hof : ∀ {s' line'}, Keyed t s' line line' → Keyed s s' line line' := fun hk =>
    ⟨hk.sound, hk.r, hk.le, hk.cells⟩
  unfold ConsState.key
  rw [← ht]
  dsimp only
  split_ifs with hP hU hH hew hroom
  · exact ⟨line, hof (.refl hsound)⟩
  · refine ⟨line, hof ?_⟩
    have hkill := killLine_eq t.input t.edit hsound.ring hsound.w_eq hsound.edit
    rw [hsound.e_sub_w, hkill]
    refine hsound.erase rfl rfl rfl ?_ (List.nil_prefix)
    rw [List.append_nil]
    exact hsound.entered_line
  · refine ⟨line, hof ?_⟩
    have hne : t.edit ≠ [] := fun hnil => hew (hsound.e_eq_w_iff.mpr hnil)
    have hring := hsound.ring
    rw [← List.dropLast_append_getLast hne, ← List.append_assoc] at hring
    exact hsound.erase (i := { t.input with e := t.input.e - 1#32 }) rfl rfl rfl
      (hring.unpush inputBuf_dvd).2 (List.dropLast_prefix _)
  · exact ⟨line, hof (.refl hsound)⟩
  · rw [hsound.e_sub_r] at hroom
    obtain ⟨line', hk⟩ := hsound.store hroom.2 (translate c) (by
      rw [← List.append_assoc]
      exact h.typed.append (List.Sublist.refl _))
    exact ⟨line', hof hk⟩
  · exact ⟨line, hof (.refl hsound)⟩

theorem Sound.consoleintr (h : s.Sound line) (cs : List Byte) :
    ∃ line', Keyed s (s.consoleintr cs) line line' := by
  induction cs generalizing s line with
  | nil => exact ⟨line, .refl h⟩
  | cons c cs ih =>
    obtain ⟨line1, h1⟩ := h.key c
    obtain ⟨line2, h2⟩ := ih h1.sound
    refine ⟨line2, h2.sound, h2.r.trans h1.r, h1.le.trans h2.le, fun k hk => ?_⟩
    have := h2.cells k (Nat.lt_of_lt_of_le hk h1.le)
    rw [h1.r] at this
    exact this.trans (h1.cells k hk)

/-! ## Reads -/

theorem Sound.setLock (h : s.Sound line) (l : Option ι) : { s with lock := l }.Sound line :=
  ⟨h.ring, h.w_eq, h.entered, h.full, h.edit, h.typed, h.dst, h.asleep⟩

theorem Sound.setProc (h : s.Sound line) {p : ι} {x : ConsProc} (hd : x.dst = (s.proc p).dst)
    (ha : x.asleep = true → line = []) : (s.setProc p x).Sound line where
  ring := h.ring
  w_eq := h.w_eq
  entered := h.entered
  full := h.full
  edit := h.edit
  typed := h.typed
  dst q := by
    show (update s.proc p x q).dst = s.takenBy q
    by_cases hq : q = p
    · subst hq
      rw [update_self, hd, h.dst]
    · rw [update_of_ne hq, h.dst]
  asleep q := by
    by_cases hq : q = p
    · subst hq
      simpa [ConsState.setProc] using ha
    · simpa [ConsState.setProc, hq] using h.asleep q

theorem Sound.leave (h : s.Sound line) (p : ι) (ret : Int) : (s.leave p ret).Sound line :=
  (h.setLock none).setProc rfl (h.asleep p)

theorem Sound.advance {c : Byte} (h : s.Sound (c :: line)) (p : ι) {x : ConsProc}
    (hd : x.dst = (s.proc p).dst ++ if c = ctrl 'D' then [] else [c])
    (ha : x.asleep = (s.proc p).asleep) :
    ({ s with
      input := { s.input with r := s.input.r + 1#32 }
      consumed := s.consumed ++ [(p, c)] }.setProc p x).Sound line where
  ring := (h.ring.pop inputBuf_dvd (List.cons_ne_nil _ _)).2
  w_eq := (h.entered_line.pop inputBuf_dvd (List.cons_ne_nil _ _)).2.tail_eq
  entered := by
    show s.entered = (s.consumed ++ [(p, c)]).map Prod.snd ++ line
    rw [h.entered]
    simp
  full hfull := by
    have := h.length_le
    have hlen : line.length + s.edit.length = inputBuf := hfull
    rw [List.length_cons] at this
    omega
  edit := h.edit
  typed := h.typed
  dst q := by
    have hq := h.dst q
    show (update s.proc p x q).dst
      = (((s.consumed ++ [(p, c)]).filter fun x => x.1 = q).map Prod.snd).filter (· ≠ ctrl 'D')
    by_cases hqp : q = p
    · subst hqp
      rw [update_self, hd, hq, takenBy]
      by_cases hc : c = ctrl 'D' <;> simp [hc]
    · rw [update_of_ne hqp, hq, takenBy]
      simp [Ne.symm hqp]
  asleep q hq := by
    have hawake : ∀ q, (s.proc q).asleep = false := fun q => by
      by_contra hasleep
      exact absurd (h.asleep q (by simpa using hasleep)) (List.cons_ne_nil _ _)
    have : (update s.proc p x q).asleep = false := by
      by_cases hqp : q = p
      · subst hqp
        rw [update_self, ha, hawake]
      · rw [update_of_ne hqp, hawake]
    exact absurd (this.symm.trans hq) (by simp)

theorem Sound.take {c : Byte} (h : s.Sound (c :: line)) (p : ι) (target n : Int) :
    ∃ line', (s.take p target n).Sound line' := by
  have hc : s.input.buf (s.input.r.toNat % inputBuf) = c :=
    (h.ring.cell 0 (by simp)).trans rfl
  unfold ConsState.take
  simp only [hc]
  split_ifs with hD hn hnl
  · refine ⟨c :: line, ?_⟩
    rw [BitVec.add_sub_cancel]
    exact h.leave p _
  · exact ⟨line, (h.advance p (x := { s.proc p with pc := none, ret := target - n })
      (by simp [hD]) rfl).setLock none⟩
  · have hadv := h.advance p
      (x := { s.proc p with dst := (s.proc p).dst ++ [c], pc := some (target, n - 1) })
      (by simp [hD]) rfl
    exact ⟨line, hadv.leave p _⟩
  · exact ⟨line, h.advance p (by simp [hD]) rfl⟩

theorem Sound.consoleread (h : s.Sound line) (p : ι) (target n : Int) :
    ∃ line', (s.consoleread p target n).Sound line' := by
  unfold ConsState.consoleread
  split_ifs with hn hrw hk
  · exact ⟨line, h.leave p _⟩
  · exact ⟨line, h.leave p _⟩
  · exact ⟨line, (h.setLock none).setProc rfl fun _ =>
      (h.entered_line.empty_iff inputBuf_lt).mp hrw⟩
  · cases line with
    | nil => exact absurd ((h.entered_line.empty_iff inputBuf_lt).mpr rfl) hrw
    | cons c line => exact h.take p target n

theorem consoleread_buf (s : ConsState ι) (p : ι) (target n : Int) :
    (s.consoleread p target n).input.buf = s.input.buf := by
  unfold ConsState.consoleread ConsState.take
  split_ifs <;> first | rfl | (dsimp only; split_ifs <;> rfl)

/-! ## Runs -/

/-- The characters of `[r, w)` are not altered. -/
def Kept (s : ConsState ι) (_ : ConsAction ι) (s' : ConsState ι) : Prop :=
  ∀ k, k < (s.input.w - s.input.r).toNat → s'.input.buf ((s.input.r.toNat + k) % inputBuf)
    = s.input.buf ((s.input.r.toNat + k) % inputBuf)

theorem Sound.step {s' : ConsState ι} {a : ConsAction ι} (h : s.Sound line)
    (hs : s.step a = .ok s') : (∃ line', s'.Sound line') ∧ Kept s a s' := by
  cases a with
  | consoleintr cs =>
    simp only [ConsState.step] at hs
    split at hs <;> cases hs
    obtain ⟨line', hk⟩ := h.consoleintr cs
    exact ⟨⟨line', hk.sound⟩, fun k hlt => hk.cells k (h.w_sub_r ▸ hlt)⟩
  | consoleread p n =>
    simp only [ConsState.step] at hs
    split at hs <;> cases hs
    exact ⟨⟨line, h.setProc rfl (h.asleep p)⟩, fun _ _ => rfl⟩
  | acquire p =>
    simp only [ConsState.step] at hs
    split at hs <;> cases hs
    exact ⟨⟨line, h.setLock _⟩, fun _ _ => rfl⟩
  | turn p =>
    simp only [ConsState.step] at hs
    split at hs
    · split at hs <;> cases hs
      exact ⟨h.consoleread p _ _, fun _ _ => by rw [consoleread_buf]⟩
    · cases hs
  | kill p =>
    cases hs
    exact ⟨⟨line, h.setProc rfl nofun⟩, fun _ _ => rfl⟩

end Sound

/-- **The console's ring.** After every run of interrupts and reads: the indices are in order and at
most `INPUT_BUF` apart, as counters that wrap; what was entered is what reads have consumed followed
by `[r, w)`; what each process has stored is what it consumed, without the `^D`s; what was entered
and what is being edited was typed, in this order; a full ring has been entered, so that it can be
read; and no process sleeps in `consoleread` while there is something to read. And no step alters
`[r, w)`. -/
theorem console_ring (buf : Nat → Byte) (as : List (ConsAction ι)) :
    Along step Kept (init ι buf) as ∧ ∀ t, run step (init ι buf) as = .ok t →
      (t.input.w - t.input.r).toNat ≤ (t.input.e - t.input.r).toNat ∧
      (t.input.e - t.input.r).toNat ≤ inputBuf ∧
      (∃ text, t.entered = t.consumed.map Prod.snd ++ text ∧
        text.length = (t.input.w - t.input.r).toNat ∧
        ∀ k, (hk : k < text.length) →
          t.input.buf ((t.input.r.toNat + k) % inputBuf) = text[k]) ∧
      (∀ p, (t.proc p).dst = t.takenBy p) ∧
      (t.entered ++ t.edit).Sublist t.typed ∧
      ((t.input.e - t.input.r).toNat = inputBuf → t.input.w = t.input.e ∧ t.input.r ≠ t.input.w) ∧
      (∀ p, (t.proc p).asleep = true → t.input.r = t.input.w) := by
  have hinit : ∃ line, (init ι buf).Sound line := ⟨[], sound_init buf⟩
  have hkept : Guarded step (fun s _ => ∃ line, s.Sound line) (init ι buf) as :=
    guarded_of_invariant (fun s : ConsState ι => ∃ line, s.Sound line)
      (fun _ _ _ ⟨_, h⟩ (_ : True) hs => (h.step hs).1) (fun _ _ h _ => h) hinit
      (guarded_of_forall (fun _ _ => trivial) _ _)
  refine ⟨along_of_guarded (fun _ _ _ ⟨_, h⟩ hs => (h.step hs).2) hkept, fun t ht => ?_⟩
  obtain ⟨line, h⟩ := run_invariant_of_step (fun s : ConsState ι => ∃ line, s.Sound line)
    (fun _ _ _ ⟨_, h⟩ hs => (h.step hs).1) hinit ht
  have he := h.e_sub_r
  have hw := h.w_sub_r
  have hempty := h.entered_line.empty_iff inputBuf_lt
  refine ⟨by omega, he ▸ h.length_le, ⟨line, h.entered, hw.symm, h.entered_line.cell⟩, h.dst,
    h.typed, fun hfull => ?_, fun p hp => hempty.mpr (h.asleep p hp)⟩
  have hedit := h.full (he ▸ hfull)
  refine ⟨(h.e_eq_w_iff.mpr hedit).symm, fun hrw => ?_⟩
  rw [he, hedit, hempty.mp hrw] at hfull
  exact absurd hfull (by decide)

/-- A reader sleeps, `ab`, a backspace, `c` and return are typed, and the reader gets `ac` and the
newline. -/
theorem console_ring_line :
    let as : List (ConsAction (Fin 2)) :=
      [.consoleread 1 9, .acquire 1, .turn 1, .consoleintr [97#8, 98#8, 0x7f#8, 99#8, 13#8],
        .acquire 1, .turn 1, .turn 1, .turn 1]
    ∃ t, run step (init (Fin 2) fun _ => 0#8) as = .ok t ∧
      (t.proc 1).dst = [97#8, 99#8, newline] ∧ (t.proc 1).ret = 3 ∧ t.takenBy 1 = (t.proc 1).dst := by
  intro as
  obtain ⟨t, ht, hq⟩ := run_ok_of_eval step (init (Fin 2) fun _ => 0#8) as
    (fun t => decide ((t.proc 1).dst = [97#8, 99#8, newline] ∧ (t.proc 1).ret = 3))
    (by decide +kernel)
  obtain ⟨hdst, hret⟩ := of_decide_eq_true hq
  exact ⟨t, ht, hdst, hret, (((console_ring (fun _ => 0#8) as).2 t ht).2.2.2.1 1).symm⟩

end ConsState

end Xv6Mmap
