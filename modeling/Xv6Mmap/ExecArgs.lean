import Xv6Mmap.ExecImage
import Xv6Mmap.Lib.Buffer

/-!
# The arguments of a program (`exec.c:71-88`)

`exec` copies the argument strings to the top of the stack, each below the one before and rounded
down to a multiple of four, and below them the frame that `main` finds: a return address, `argc`,
`argv` and the pointers. The strings are placed by masking `sp` one at a time, the pointer `argv` is
computed from the last `sp`; `main` only sees that the two agree if every word is where it looks.

* `readFrame` is what a program does with its first `esp`, through its own page table.
* As long as it all fits the stack page, every copy is one store into one page (`copyout_page`), and
  `Laid` says what has been stored where, string by string (`pushStrings_lays`).
* **`exec_args_round_trip`**: `main` gets the strings that were passed to `exec`.
-/

namespace Xv6Mmap

open Lib

/-! ## Stores to one page -/

/-- A copy that stays within the page of its first byte. -/
theorem copyout_page {k : Kmem} {d : PgDir} {va : Word} {buf : List Byte} (hgo : ¬ d.Stops va)
    (hne : buf ≠ []) (hfit : va.toNat % 4096 + buf.length ≤ 4096) :
    copyout k d va buf
      = .ok (true, k.store (physPage (d.entry (vpn va))) (va.toNat % 4096) buf) := by
  obtain ⟨b, bs, rfl⟩ := List.exists_cons_of_ne_nil hne
  have hn : min (4096 - va.toNat % 4096) (b :: bs).length = (b :: bs).length := by omega
  unfold copyout
  rw [List.length_cons, copyoutLoop_turn hgo]
  dsimp only
  rw [hn, List.take_length, List.drop_length, copyoutLoop_nil]

theorem Kmem.store_holds (k : Kmem) (v : Word) (o : Nat) (bs : List Byte) :
    Holds ((k.store v o bs).mem v) o bs := by
  intro i hi
  unfold Kmem.store
  dsimp only
  rw [Function.update_self, if_pos (by omega), Nat.add_sub_cancel_left, List.getD_eq_getElem _ _ hi]

theorem Kmem.store_outside (k : Kmem) (v : Word) {o x : Nat} {bs : List Byte}
    (h : x < o ∨ o + bs.length ≤ x) : (k.store v o bs).mem v x = k.mem v x := by
  unfold Kmem.store
  dsimp only
  rw [Function.update_self, if_neg (by omega)]

namespace Exec

/-! ## What a program reads -/

/-- The byte that a program with page table `d` reads at `a`; `none` is a page fault. -/
def userByte (k : Kmem) (d : PgDir) (a : Word) : Option Byte :=
  if present (d.entry (vpn a)) && userPte (d.entry (vpn a)) then
    some (k.mem (d.loc a).1 (d.loc a).2)
  else none

/-- The word that it reads at `a`. -/
def userWord (k : Kmem) (d : PgDir) (a : Word) : Option Word := do
  let b₀ ← userByte k d a
  let b₁ ← userByte k d (addr a 1)
  let b₂ ← userByte k d (addr a 2)
  let b₃ ← userByte k d (addr a 3)
  return uintAt [b₀, b₁, b₂, b₃] 0

/-- The string at `a`, of less than `fuel` bytes. -/
def userString (k : Kmem) (d : PgDir) : Nat → Word → Option (List Byte)
  | 0, _ => none
  | fuel + 1, a => do
    let b ← userByte k d a
    if b = 0#8 then return []
    else
      let rest ← userString k d fuel (addr a 1)
      return b :: rest

/-- The strings `argv[i]`, …, `argv[i + n - 1]`, where `argv[i + n]` is null. -/
def readArgv (k : Kmem) (d : PgDir) (argv : Word) : Nat → Nat → Option (List (List Byte))
  | 0, i => do
    let p ← userWord k d (addr argv (4 * i))
    if p = 0#32 then return [] else none
  | n + 1, i => do
    let p ← userWord k d (addr argv (4 * i))
    let str ← userString k d 4096 p
    let rest ← readArgv k d argv n (i + 1)
    return str :: rest

/-- What `main` finds at its first `esp`: the return address and its arguments. -/
def readFrame (k : Kmem) (d : PgDir) (sp : Word) : Option (Word × List (List Byte)) := do
  let ret ← userWord k d sp
  let argc ← userWord k d (addr sp 4)
  let argv ← userWord k d (addr sp 8)
  let args ← readArgv k d argv argc.toNat 0
  return (ret, args)

/-! ## Bytes and words -/

theorem uintAt_uintBytes (w : Word) : uintAt (uintBytes w) 0 = w := by
  have hw := w.isLt
  apply BitVec.eq_of_toNat_eq
  simp only [uintAt, uintBytes, Fs.word, Fs.wordAt, BitVec.toNat_ofNat, List.getD_cons_zero,
    List.getD_cons_succ, Nat.zero_add, Nat.mul_zero, BitVec.toNat_setWidth,
    BitVec.toNat_ushiftRight, Nat.shiftRight_eq_div_pow]
  omega

theorem length_flatMap_uintBytes (ws : List Word) :
    (ws.flatMap uintBytes).length = 4 * ws.length := by
  induction ws with
  | nil => rfl
  | cons w ws ih =>
    rw [List.flatMap_cons, List.length_append, ih, List.length_cons]
    change 4 + _ = _
    omega

theorem holds_word {m : Nat → Byte} {p : Nat} {ws : List Word} (h : Holds m p (ws.flatMap uintBytes))
    {i : Nat} (hi : i < ws.length) : Holds m (p + 4 * i) (uintBytes ws[i]) := by
  induction ws generalizing p i with
  | nil => exact absurd hi (Nat.not_lt_zero i)
  | cons w ws ih =>
    rw [List.flatMap_cons] at h
    obtain ⟨hw, hws⟩ := holds_append.mp h
    cases i with
    | zero => exact hw
    | succ i =>
      have := ih hws (Nat.lt_of_succ_lt_succ hi)
      rw [List.getElem_cons_succ]
      rwa [show p + 4 * (i + 1) = p + (uintBytes w).length + 4 * i by
        change _ = p + 4 + 4 * i
        omega]

/-- `len` rounded up to a multiple of four. -/
def up4 (len : Nat) : Nat := (len + 3) / 4 * 4

theorem and_not_three_toNat (x : Word) : (x &&& ~~~3#32).toNat = x.toNat / 4 * 4 :=
  and_not_low_toNat x (n := 2) (by decide)

/-- `sp = (sp - len) & ~3` from a multiple of four. -/
theorem mask_toNat {sp : Word} {len : Nat} (h4 : sp.toNat % 4 = 0) (hlen : len ≤ sp.toNat) :
    ((sp - BitVec.ofNat 32 len) &&& ~~~3#32).toNat = sp.toNat - up4 len := by
  have hlt := sp.isLt
  rw [and_not_three_toNat, BitVec.toNat_sub, BitVec.toNat_ofNat]
  unfold up4
  omega

/-! ## The stack page -/

/-- The user page of the addresses from `base` on, which lives in `pg`. -/
structure StackPage (d : PgDir) (base : Nat) (pg : Word) : Prop where
  aligned : base % 4096 = 0
  below : base < 0x80000000
  user : d.userPage (base / 4096)
  phys : physPage (d.entry (base / 4096)) = pg
  ne_zero : pg ≠ 0#32

section Page

variable {d : PgDir} {base : Nat} {pg : Word} {k : Kmem} {a : Word} {x : Nat}

theorem StackPage.at (h : StackPage d base pg) (ha : a.toNat = base + x) (hx : x < 4096) :
    vpn a = base / 4096 ∧ a.toNat % 4096 = x := by
  have := h.aligned
  unfold vpn
  omega

theorem addr_toNat (h : StackPage d base pg) (ha : a.toNat = base + x) {i : Nat}
    (hx : x + i ≤ 4096) : (addr a i).toNat = base + (x + i) := by
  have := h.below
  unfold addr
  rw [BitVec.toNat_add, BitVec.toNat_ofNat]
  omega

theorem StackPage.goes (h : StackPage d base pg) (ha : a.toNat = base + x) (hx : x < 4096) :
    ¬ d.Stops a := by
  unfold PgDir.Stops
  rw [(h.at ha hx).1, h.phys, not_not]
  exact ⟨h.user, h.ne_zero⟩

theorem StackPage.byte (h : StackPage d base pg) (ha : a.toNat = base + x) (hx : x < 4096) :
    userByte k d a = some (k.mem pg x) := by
  obtain ⟨hv, ho⟩ := h.at ha hx
  unfold userByte PgDir.loc
  rw [hv, ho, h.phys, h.user.1, h.user.2]
  rfl

theorem StackPage.word {w : Word} (h : StackPage d base pg) (ha : a.toNat = base + x)
    (hx : x + 4 ≤ 4096) (hw : Holds (k.mem pg) x (uintBytes w)) : userWord k d a = some w := by
  have hb : ∀ i (hi : i < 4), userByte k d (addr a i) = some ((uintBytes w).get ⟨i, hi⟩) := fun i hi => by
    rw [h.byte (addr_toNat h ha (by omega)) (by omega)]
    exact congrArg some (hw i hi)
  have h0 := hb 0 (by decide)
  rw [addr_zero] at h0
  unfold userWord
  rw [h0, hb 1 (by decide), hb 2 (by decide), hb 3 (by decide)]
  exact congrArg some (uintAt_uintBytes w)

theorem StackPage.string (h : StackPage d base pg) {str : List Byte} {fuel : Nat}
    (ha : a.toNat = base + x) (hx : x + str.length + 1 ≤ 4096)
    (hs : Holds (k.mem pg) x (str ++ [0#8])) (hnul : 0#8 ∉ str) (hfuel : str.length < fuel) :
    userString k d fuel a = some str := by
  induction str generalizing a x fuel with
  | nil =>
    obtain ⟨fuel, rfl⟩ := Nat.exists_eq_succ_of_ne_zero (Nat.ne_zero_of_lt hfuel)
    rw [userString, h.byte ha (by omega), (holds_cons.mp hs).1]
    rfl
  | cons y str ih =>
    obtain ⟨fuel, rfl⟩ := Nat.exists_eq_succ_of_ne_zero (Nat.ne_zero_of_lt hfuel)
    rw [List.mem_cons, not_or] at hnul
    rw [List.length_cons] at hx hfuel
    obtain ⟨hy, hrest⟩ := holds_cons.mp hs
    have hih : userString k d fuel (addr a 1) = some str :=
      ih (addr_toNat h ha (by omega)) (by omega) hrest hnul.2 (by omega)
    rw [userString, h.byte ha (by omega), hy, Option.bind_eq_bind, Option.bind_some,
      if_neg (Ne.symm hnul.1), hih]
    rfl

theorem StackPage.copy {σ : Type} {s : State σ} (h : StackPage d base pg) (hd : s.pgdir = some d)
    (ha : a.toNat = base + x) (buf : List Byte) (hne : buf ≠ []) (hx : x + buf.length ≤ 4096) :
    copyTo a buf s = .ok (true, { s with kmem := s.kmem.store pg x buf }) := by
  have hpos := List.length_pos_of_ne_nil hne
  obtain ⟨hv, ho⟩ := h.at ha (by omega)
  unfold copyTo onDir
  rw [hd]
  dsimp only
  rw [copyout_page (h.goes ha (by omega)) hne (by omega), hv, ho, h.phys]
  rfl

end Page

/-! ## The strings -/

/-- The room that the strings take. -/
def room (strs : List (List Byte)) : Nat := (strs.map fun str => up4 (str.length + 1)).sum

/-- The strings stand in the page `m` below offset `o`, each below the one before, and `ptrs` are
their addresses. -/
def Laid (m : Nat → Byte) (base : Nat) : Nat → List (List Byte) → List Word → Prop
  | _, [], ptrs => ptrs = []
  | o, str :: strs, ptrs => ∃ p ps, ptrs = p :: ps ∧ p.toNat = base + (o - up4 (str.length + 1)) ∧
    Holds m (o - up4 (str.length + 1)) (str ++ [0#8]) ∧ Laid m base (o - up4 (str.length + 1)) strs ps

theorem le_up4 (n : Nat) : n ≤ up4 n ∧ up4 n % 4 = 0 := by
  unfold up4
  omega

theorem room_cons (str : List Byte) (strs : List (List Byte)) :
    room (str :: strs) = up4 (str.length + 1) + room strs := by
  unfold room
  rw [List.map_cons, List.sum_cons]

section Strings

variable {σ : Type} {d : PgDir} {base : Nat} {pg : Word} {m m' : Nat → Byte}

variable {strs : List (List Byte)} {o : Nat} {ptrs : List Word}

/-- What is stored below the strings does not change them. -/
theorem Laid.congr (h : Laid m base o strs ptrs) (hroom : room strs ≤ o)
    (hsame : ∀ x, o - room strs ≤ x → m' x = m x) : Laid m' base o strs ptrs := by
  induction strs generalizing o ptrs with
  | nil => exact h
  | cons str strs ih =>
    rw [room_cons] at hroom hsame
    obtain ⟨p, ps, rfl, hp, hs, hrest⟩ := h
    refine ⟨p, ps, rfl, hp, hs.congr fun i hi _ => hsame i (by omega), ih hrest (by omega) ?_⟩
    exact fun x hx => hsame x (by omega)

/-- **The loop over the strings**, as long as they fit the page: each is stored below the last. -/
theorem pushStrings_lays (h : StackPage d base pg) :
    ∀ (strs : List (List Byte)) (argc : Nat) {sp : Word} {o : Nat} {s : State σ},
      s.pgdir = some d → sp.toNat = base + o → o % 4 = 0 → o ≤ 4096 → argc + strs.length ≤ maxArg →
      room strs ≤ o →
      ∃ last ptrs s', pushStrings strs argc sp s = .ok (some (last, ptrs), s') ∧
        s'.pgdir = some d ∧ last.toNat = base + (o - room strs) ∧
        Laid (s'.kmem.mem pg) base o strs ptrs ∧
        ∀ x, o ≤ x → s'.kmem.mem pg x = s.kmem.mem pg x := by
  intro strs
  induction strs with
  | nil =>
    intro argc sp o s hd hsp _ _ _ _
    exact ⟨sp, [], s, rfl, hd, hsp, rfl, fun _ _ => rfl⟩
  | cons str strs ih =>
    intro argc sp o s hd hsp h4 ho hargc hroom
    rw [room_cons] at hroom ⊢
    rw [List.length_cons] at hargc
    obtain ⟨hle, hup⟩ := le_up4 (str.length + 1)
    have hal := h.aligned
    obtain ⟨sp', hsp'⟩ :
    ∃ sp', sp' = (sp - BitVec.ofNat 32 (str.length + 1)) &&& ~~~3#32 := ⟨_, rfl⟩
    have hspN : sp'.toNat = base + (o - up4 (str.length + 1)) := by
      rw [hsp', mask_toNat (by omega) (by omega)]
      omega
    have hlen : (str ++ [0#8]).length = str.length + 1 := by rw [List.length_append]; rfl
    have hcopy := h.copy hd hspN (str ++ [0#8]) (by simp) (by omega)
    obtain ⟨last, ptrs, s', hrun, hd', hlast, hlaid, hkept⟩ := ih (argc + 1)
      (s := { s with kmem := s.kmem.store pg (o - up4 (str.length + 1)) (str ++ [0#8]) })
      hd hspN (by omega) (by omega) (by omega) (by omega)
    refine ⟨last, sp' :: ptrs, s', ?_, hd', by omega, ⟨sp', ptrs, rfl, hspN, ?_, hlaid⟩,
      fun x hx => ?_⟩
    · rw [pushStrings, if_neg (by omega), ← hsp', stateT_bind, hcopy]
      simp only [if_true]
      rw [stateT_bind, hrun]
      rfl
    · exact (s.kmem.store_holds pg _ _).congr fun i hi _ => hkept i hi
    · rw [hkept x (by omega)]
      exact s.kmem.store_outside pg (.inr (by omega))

/-- The strings as regions of memory. -/
def regions (strs : List (List Byte)) (ptrs : List Word) : List (Nat × Nat) :=
  List.zipWith (fun str p => (p.toNat, str.length + 1)) strs ptrs

/-- The strings are apart from each other and below offset `o`. -/
theorem Laid.apart (h : Laid m base o strs ptrs) (hroom : room strs ≤ o) :
    (regions strs ptrs).Pairwise (fun r r' => r.1 + r.2 ≤ r'.1 ∨ r'.1 + r'.2 ≤ r.1) ∧
      ∀ r ∈ regions strs ptrs, base + (o - room strs) ≤ r.1 ∧ r.1 + r.2 ≤ base + o := by
  induction strs generalizing o ptrs with
  | nil => exact ⟨.nil, nofun⟩
  | cons str strs ih =>
    rw [room_cons] at hroom ⊢
    obtain ⟨p, ps, rfl, hp, -, hrest⟩ := h
    obtain ⟨hpair, hin⟩ := ih hrest (by omega)
    have hle := (le_up4 (str.length + 1)).1
    refine ⟨.cons (fun r hr => .inr ?_) hpair, fun r hr => ?_⟩
    · have := hin r hr
      dsimp only
      omega
    · rcases List.mem_cons.mp hr with rfl | hr
      · dsimp only
        omega
      · have := hin r hr
        omega

theorem Laid.length_eq (h : Laid m base o strs ptrs) : ptrs.length = strs.length := by
  induction strs generalizing o ptrs with
  | nil =>
    obtain rfl : ptrs = [] := h
    rfl
  | cons str strs ih =>
    obtain ⟨p, ps, rfl, -, -, hrest⟩ := h
    rw [List.length_cons, List.length_cons, ih hrest]

theorem readArgv_laid {k : Kmem} (h : StackPage d base pg) {argv : Word} {y : Nat}
    (hargv : argv.toNat = base + y) :
    ∀ (strs : List (List Byte)) {o i : Nat} {ptrs : List Word}, (∀ str ∈ strs, 0#8 ∉ str) →
      o ≤ 4096 → room strs ≤ o → y + 4 * (i + strs.length + 1) ≤ 4096 →
      Laid (k.mem pg) base o strs ptrs →
      Holds (k.mem pg) (y + 4 * i) ((ptrs ++ [0#32]).flatMap uintBytes) →
      readArgv k d argv strs.length i = some strs := by
  intro strs
  induction strs with
  | nil =>
    intro o i ptrs _ _ _ hy hlaid hholds
    obtain rfl : ptrs = [] := hlaid
    rw [List.length_nil] at hy ⊢
    rw [readArgv, h.word (addr_toNat h hargv (by omega)) (by omega) (holds_word hholds (i := 0) (by simp))]
    rfl
  | cons str strs ih =>
    intro o i ptrs hnul ho hroom hy hlaid hholds
    obtain ⟨p, ps, rfl, hp, hs, hrest⟩ := hlaid
    rw [room_cons] at hroom
    rw [List.length_cons] at hy ⊢
    have hle := (le_up4 (str.length + 1)).1
    have hword := h.word (addr_toNat h hargv (by omega)) (by omega)
      (holds_word hholds (i := 0) (by simp))
    have hstr : userString k d 4096 p = some str :=
      h.string hp (by omega) hs (hnul str List.mem_cons_self) (by omega)
    have htail : Holds (k.mem pg) (y + 4 * (i + 1)) ((ps ++ [0#32]).flatMap uintBytes) := by
      rw [List.cons_append, List.flatMap_cons] at hholds
      exact (holds_append.mp hholds).2
    have hih := ih (fun t ht => hnul t (List.mem_cons_of_mem _ ht)) (by omega) (by omega) (by omega)
      hrest htail
    rw [readArgv, hword]
    simp only [List.cons_append, List.getElem_cons_zero, Option.bind_eq_bind, Option.bind_some, hstr,
      hih]
    rfl

end Strings

/-! ## The frame -/

theorem length_ustack (sp : Word) (ptrs : List Word) :
    (ustack sp ptrs).length = 4 + ptrs.length := by
  unfold ustack
  rw [List.length_cons, List.length_cons, List.length_cons, List.length_append, List.length_singleton]
  omega

section Frame

variable {σ : Type} {d : PgDir} {base : Nat} {pg : Word} {argv : List (List Byte)} {sz : Word}
  {s : State σ}

/-- The strings from the top of the page down, and the frame below them. -/
theorem pushArgs_lays (h : StackPage d base pg) (hd : s.pgdir = some d)
    (hsz : sz.toNat = base + 4096) (hargc : argv.length ≤ maxArg)
    (hfit : room argv + 4 * (4 + argv.length) ≤ 4096) :
    ∃ sp last ptrs s', pushArgs argv sz s = .ok (some sp, s') ∧ s'.pgdir = some d ∧
      last.toNat = base + (4096 - room argv) ∧
      sp.toNat = base + (4096 - room argv - 4 * (4 + argv.length)) ∧
      Laid (s'.kmem.mem pg) base 4096 argv ptrs ∧
      Holds (s'.kmem.mem pg) (4096 - room argv - 4 * (4 + argv.length))
        ((ustack last ptrs).flatMap uintBytes) := by
  obtain ⟨last, ptrs, s1, hrun, hd1, hlast, hlaid, -⟩ := pushStrings_lays h argv 0 (s := s) hd hsz
    (by decide) le_rfl (by omega) (by omega)
  have hptrs := hlaid.length_eq
  have hlen : ((ustack last ptrs).flatMap uintBytes).length = 4 * (4 + argv.length) := by
    rw [length_flatMap_uintBytes, length_ustack, hptrs]
  obtain ⟨sp, hsp⟩ : ∃ sp, sp = last - BitVec.ofNat 32 ((3 + ptrs.length + 1) * 4) := ⟨_, rfl⟩
  have hspN : sp.toNat = base + (4096 - room argv - 4 * (4 + argv.length)) := by
    have := last.isLt
    rw [hsp, BitVec.toNat_sub, BitVec.toNat_ofNat, hptrs]
    omega
  have hcopy := h.copy hd1 hspN ((ustack last ptrs).flatMap uintBytes)
    (List.ne_nil_of_length_pos (by omega)) (by omega)
  refine ⟨sp, last, ptrs, { s1 with kmem := s1.kmem.store pg _ _ }, ?_, hd1, hlast, hspN, ?_,
    s1.kmem.store_holds pg _ _⟩
  · unfold pushArgs
    rw [stateT_bind, hrun]
    simp only
    rw [← hsp, stateT_bind, hcopy]
    rfl
  · exact hlaid.congr (by omega) fun x hx => s1.kmem.store_outside pg (.inr (by omega))

theorem readFrame_laid {k : Kmem} (h : StackPage d base pg) (hargc : argv.length ≤ maxArg)
    (hnul : ∀ str ∈ argv, 0#8 ∉ str) (hfit : room argv + 4 * (4 + argv.length) ≤ 4096)
    {sp last : Word} {ptrs : List Word} (hlast : last.toNat = base + (4096 - room argv))
    (hsp : sp.toNat = base + (4096 - room argv - 4 * (4 + argv.length)))
    (hlaid : Laid (k.mem pg) base 4096 argv ptrs)
    (hframe : Holds (k.mem pg) (4096 - room argv - 4 * (4 + argv.length))
      ((ustack last ptrs).flatMap uintBytes)) :
    readFrame k d sp = some (0xFFFFFFFF#32, argv) := by
  have hptrs := hlaid.length_eq
  have hlen := length_ustack last ptrs
  have hword : ∀ i (hi : i < (ustack last ptrs).length),
      userWord k d (addr sp (4 * i)) = some (ustack last ptrs)[i] := fun i hi =>
    h.word (addr_toNat h hsp (by omega)) (by omega) (holds_word hframe hi)
  have h0 := hword 0 (by omega)
  rw [Nat.mul_zero, addr_zero] at h0
  obtain ⟨av, hav⟩ : ∃ av, av = last - BitVec.ofNat 32 ((ptrs.length + 1) * 4) := ⟨_, rfl⟩
  have havN : av.toNat = base + (4096 - room argv - 4 * (4 + argv.length) + 12) := by
    have := last.isLt
    rw [hav, BitVec.toNat_sub, BitVec.toNat_ofNat, hptrs]
    omega
  have hargs : readArgv k d av argv.length 0 = some argv := by
    refine readArgv_laid h havN argv hnul le_rfl (by omega) (by omega) hlaid ?_
    have hsplit : (ustack last ptrs).flatMap uintBytes
        = [0xFFFFFFFF#32, BitVec.ofNat 32 ptrs.length, av].flatMap uintBytes ++
          (ptrs ++ [0#32]).flatMap uintBytes := by
      rw [← List.flatMap_append, ustack, hav]
      rfl
    rw [hsplit] at hframe
    exact (holds_append.mp hframe).2
  have hargcN : (BitVec.ofNat 32 ptrs.length).toNat = argv.length := by
    rw [BitVec.toNat_ofNat, hptrs]
    unfold maxArg at hargc
    omega
  unfold readFrame
  rw [h0, hword 1 (by omega), hword 2 (by omega)]
  change (readArgv k d (last - BitVec.ofNat 32 ((ptrs.length + 1) * 4))
    (BitVec.ofNat 32 ptrs.length).toNat 0).bind _ = _
  rw [← hav, hargcN, hargs]
  rfl

end Frame

/-! ## The round trip -/

theorem stackPage_of_stacked {k0 k : Kmem} {c : Nat} {d : PgDir} (h : Stacked k0 c k d)
    (him : k0.image.Linked) (hk : k0.Sound) :
    StackPage d (4096 * (c - 1)) (physPage (d.entry (c - 1))) := by
  have htwo := h.two
  have hfew := h.few
  have hdiv : 4096 * (c - 1) / 4096 = c - 1 := by omega
  obtain ⟨a, ha⟩ : ∃ a : Word, vpn a = c - 1 := by
    refine ⟨BitVec.ofNat 32 (4096 * (c - 1)), ?_⟩
    unfold vpn
    rw [BitVec.toNat_ofNat]
    omega
  have hgo := not_not.mp ((h.stops_iff him hk (show vpn a < c by omega)).not.mpr (by omega))
  rw [ha] at hgo
  exact ⟨by omega, by omega, by rw [hdiv]; exact hgo.1, by rw [hdiv], hgo.2⟩

/-- **The arguments survive `exec`**: into whatever image has been loaded, strings that fit the stack
page together with the frame are copied without an error, and `main` finds them at the final `sp`
with a null pointer after the last. The frame and the strings are apart from each other and inside
the stack page. -/
theorem exec_args_round_trip (k : Kmem) (m : Fs.Node) (sz : Word) (s : State Fs.Node)
    (argv : List (List Byte)) (him : k.image.Linked) (hk : k.Sound) (hnd : k.freelist.Nodup)
    (hload : loadImage readNode ⟨k, none, m, []⟩ = .ok (some sz, s)) (hargc : argv.length ≤ 31)
    (hnul : ∀ str ∈ argv, 0#8 ∉ str) (hfit : room argv + 4 * (4 + argv.length) ≤ 4096) :
    ∃ sp ptrs s' d, pushArgs argv sz s = .ok (some sp, s') ∧ s'.pgdir = some d ∧
      readFrame s'.kmem d sp = some (0xFFFFFFFF#32, argv) ∧
      ptrs.length = argv.length ∧
      (∀ i (hi : i < ptrs.length), userWord s'.kmem d (addr sp (4 * (3 + i))) = some ptrs[i]) ∧
      ((sp.toNat, 4 * (4 + argv.length)) :: regions argv ptrs).Pairwise
        (fun r r' => r.1 + r.2 ≤ r'.1 ∨ r'.1 + r'.2 ≤ r.1) ∧
      ∀ r ∈ (sp.toNat, 4 * (4 + argv.length)) :: regions argv ptrs,
        sz.toNat - 4096 ≤ r.1 ∧ r.1 + r.2 ≤ sz.toNat := by
  obtain ⟨d, c, hd, hszN, hst⟩ :=
    (((loadImage_ready him hk hnd (readNode_reads m)).ok hload).2 sz rfl).space
  have hpage := stackPage_of_stacked hst him hk
  have htwo := hst.two
  have hmax : argv.length ≤ maxArg := Nat.le_trans hargc (by decide)
  obtain ⟨sp, last, ptrs, s', hrun, hd', hlast, hsp, hlaid, hframe⟩ :=
    pushArgs_lays hpage hd (show sz.toNat = 4096 * (c - 1) + 4096 by omega) hmax hfit
  have hptrs := hlaid.length_eq
  have hlen := length_ustack last ptrs
  obtain ⟨hpair, hin⟩ := hlaid.apart (by omega)
  refine ⟨sp, ptrs, s', d, hrun, hd', ?_, hptrs, fun i hi => ?_, .cons (fun r hr => .inl ?_) hpair,
    fun r hr => ?_⟩
  · exact readFrame_laid hpage hmax hnul hfit hlast hsp hlaid hframe
  · have hword := hpage.word (k := s'.kmem) (addr_toNat hpage hsp (by omega)) (by omega)
      (holds_word hframe (show 3 + i < (ustack last ptrs).length by omega))
    rw [hword]
    refine congrArg some ?_
    simp only [ustack, show 3 + i = i + 1 + 1 + 1 by omega, List.getElem_cons_succ]
    exact List.getElem_append_left hi
  · have := hin r hr
    dsimp only
    omega
  · rcases List.mem_cons.mp hr with rfl | hr
    · dsimp only
      omega
    · have := hin r hr
      omega

/-- An executable without segments. -/
def bareElf : Fs.Node where
  type := .file
  nlink := 1
  bytes := [0x7F#8, 0x45#8, 0x4C#8, 0x46#8] ++ List.replicate 48 0#8

/-- Seventy pages are enough for an image that is only a stack. -/
theorem loadImage_bare (k : Kmem) (him : k.image.Linked) (hk : k.Sound) (hnd : k.freelist.Nodup)
    (hlen : 70 ≤ k.freelist.length) :
    ∃ s, loadImage readNode ⟨k, none, bareElf, []⟩ = .ok (some 0x2000#32, s) := by
  have hcard : (copyTabs 0#32).card = 64 := card_copyTabs (by decide)
  rcases setupkvm_builds him hk 0#32 with ⟨d, k1, hset, hb, hin, htr⟩ | ⟨-, -, -, hlt⟩
  swap
  · omega
  have habs : ∀ n < 0x80000, present (d.entry n) = false := fun n hn => by
    rw [← PgDir.translate_eq_none, htr, kernelMap_user him hn]
  have hfree : 5 ≤ k1.freelist.length := by
    have hall := hb.length
    have huser : d.userCount = 0 := PgDir.userCount_of_iff (by omega) fun n hn => by
      rw [habs n (by omega)]
      exact iff_of_false Bool.false_ne_true (Nat.not_lt_zero n)
    have := hin.tabCount_le
    rw [huser, Multiset.card_zero] at hall
    omega
  have hneed : d.growNeed 0#32 0x2000#32 ≤ k1.freelist.length := by
    have hmiss : d.missing 0 2 ≤ 2 :=
      (Finset.card_filter_le _ _).trans (Finset.card_image_le.trans (by rw [Nat.card_Ico]))
    change 2 - 0 + d.missing 0 2 ≤ _
    omega
  have hsub : ∀ v ∈ k1.freelist, v ∈ k.freelist := fun v hv => hb.mem_of_free hv
  have hnd1 : k1.freelist.Nodup := by
    have hle : (k1.freelist : Multiset Word) ≤ k.freelist := by
      rw [hb.pages, zero_add]
      exact Multiset.le_add_left _ _
    exact Multiset.coe_nodup.mp (Multiset.nodup_of_le hle (Multiset.coe_nodup.mpr hnd))
  rcases @allocuvm_spec k1 d 0#32 0x2000#32 (by rw [hb.image]; exact him) (fun v hv => by rw [hb.image]; exact hk v (hsub v hv)) hnd1
      (by decide) (by decide) (fun n _ hn => habs n (Nat.lt_trans hn (by decide))) with
    ⟨-, data, tabs, k2, d2, halloc, hup, hgrows⟩ | ⟨hlt, -⟩
  swap
  · omega
  have htab : d2.hasTab 0 = true := by
    have hdata : data.length = 2 := by
      rw [show upPage 0#32 = 0 from rfl, show upPage 0x2000#32 = 2 from rfl] at hup
      omega
    refine PgDir.hasTab_of_present ?_
    have hin := hgrows.inside 0 (by omega)
    rw [show upPage 0#32 + 0 = 0 from rfl] at hin
    rw [hin]
    exact present_userEntry _
  refine ⟨⟨k2, some (d2.setEntry 0 (d2.entry 0 &&& ~~~pteU)), bareElf, []⟩, ?_⟩
  have hset' : (setPgdir : ExecM Fs.Node Bool) ⟨k, none, bareElf, []⟩
      = .ok (true, ⟨k1, some d, bareElf, []⟩) := by
    unfold setPgdir
    rw [hset]
    rfl
  have hread : onFile (readNode 0 Fs.elfhdrSize) ⟨k, none, bareElf, []⟩
      = .ok ((52, bareElf.bytes), ⟨k, none, bareElf, []⟩) := rfl
  have hfile : loadFile readNode ⟨k, none, bareElf, []⟩
      = .ok (some (ElfHdr.ofBytes bareElf.bytes, 0#32), ⟨k1, some d, bareElf, []⟩) := by
    unfold loadFile
    rw [stateT_bind, hread]
    simp only
    rw [if_neg (by decide), if_neg (by decide), stateT_bind, hset']
    simp only [if_true]
    rw [show (ElfHdr.ofBytes bareElf.bytes).phnum.toNat = 0 by decide]
    rfl
  have hclear : clearpteu d2 (0x2000#32 - 2#32 * pgSize)
      = .ok (d2.setEntry 0 (d2.entry 0 &&& ~~~pteU)) := if_pos htab
  have hstack : (allocStack 0#32 : ExecM Fs.Node (Option Word)) ⟨k1, some d, bareElf, []⟩
      = .ok (some 0x2000#32,
          ⟨k2, some (d2.setEntry 0 (d2.entry 0 &&& ~~~pteU)), bareElf, []⟩) := by
    have hsz : pgRoundUp 0#32 = 0#32 := rfl
    have halloc' : (onDir (fun k d => allocuvm k d 0#32 (0#32 + 2#32 * pgSize)) : ExecM Fs.Node Word)
        ⟨k1, some d, bareElf, []⟩ = .ok (0x2000#32, ⟨k2, some d2, bareElf, []⟩) := by
      unfold onDir
      dsimp only
      rw [show 0#32 + 2#32 * pgSize = 0x2000#32 from rfl, halloc]
    unfold allocStack
    rw [hsz, stateT_bind, halloc']
    simp only
    rw [if_neg (by decide), stateT_bind]
    unfold onDir
    dsimp only
    rw [hclear]
    rfl
  unfold loadImage
  rw [stateT_bind, hfile]
  exact hstack

/-- The arguments `ls` and the empty string. -/
theorem exec_args_round_trip_ls :
    ∃ s, loadImage readNode ⟨Kmem.initial 100, none, bareElf, []⟩ = .ok (some 0x2000#32, s) ∧
      ∃ sp ptrs s' d, pushArgs [[0x6C#8, 0x73#8], []] 0x2000#32 s = .ok (some sp, s') ∧
        s'.pgdir = some d ∧
        readFrame s'.kmem d sp = some (0xFFFFFFFF#32, [[0x6C#8, 0x73#8], []]) ∧ ptrs.length = 2 ∧
        (∀ i (hi : i < ptrs.length), userWord s'.kmem d (addr sp (4 * (3 + i))) = some ptrs[i]) ∧
        ((sp.toNat, 24) :: regions [[0x6C#8, 0x73#8], []] ptrs).Pairwise
          (fun r r' => r.1 + r.2 ≤ r'.1 ∨ r'.1 + r'.2 ≤ r.1) ∧
        ∀ r ∈ (sp.toNat, 24) :: regions [[0x6C#8, 0x73#8], []] ptrs,
          0x2000 - 4096 ≤ r.1 ∧ r.1 + r.2 ≤ 0x2000 := by
  have hk : (Kmem.initial 100).Sound := Kmem.initial_sound (by decide)
  have hnd : (Kmem.initial 100).freelist.Nodup := Kmem.initial_nodup (by decide)
  obtain ⟨s, hload⟩ := loadImage_bare (Kmem.initial 100) KernelImage.sample_linked hk hnd (by decide)
  exact ⟨s, hload, exec_args_round_trip (Kmem.initial 100) bareElf 0x2000#32 s [[0x6C#8, 0x73#8], []]
    KernelImage.sample_linked hk hnd hload (by decide) (by decide) (by decide)⟩

end Exec

end Xv6Mmap
