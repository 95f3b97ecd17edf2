import Mathlib.Data.List.Range
import Xv6Mmap.Dealloc
import Xv6Mmap.Indices

/-!
# The info calls (`sysfile.c:897-972`, `syscall.c:16-70`)

`sys_getwmapinfo` and `sys_getpgdirinfo` fill a structure of the caller through a pointer that they
take from `argptr`. A structure is the array of its words here, and what a call writes is the list
of its stores, each with the index of the word, in the order in which the code makes them.

* `pgdirinfoStores_eq`: the double loop over directory and tables is one pass over the user pages in
  ascending order, and `Recorded` says what the stores leave in the structure.
* **`getpgdirinfo_reports_iff`**: the addresses that are called physical are the kernel's addresses
  of the pages, and a count of zero is never stored.
* `infoCall` is what both calls do with their argument.
* **`infoCalls_safe_iff`**: when everything they write is in the caller's memory.
-/

namespace Xv6Mmap

open Function (update update_self update_of_ne)

/-! ## Stores into a structure -/

/-- Stores of 32-bit words into a structure: index and value, the first one first. -/
abbrev Stores := List (Nat × Word)

/-- The words of a structure after some stores. -/
def Stores.apply (st : Stores) (w : Nat → Word) : Nat → Word :=
  st.foldl (fun w s => update w s.1 s.2) w

theorem Stores.apply_append (st st' : Stores) (w : Nat → Word) :
    Stores.apply (st ++ st') w = Stores.apply st' (Stores.apply st w) :=
  List.foldl_append

/-- `MAX_UPAGE_INFO`. -/
def maxUpageInfo : Nat := 32

/-! ## `sys_getpgdirinfo` -/

/-- `PGADDR(d, t, 0)`. -/
def pgAddrOf (d t : Nat) : Word := BitVec.ofNat 32 d <<< 22 ||| BitVec.ofNat 32 t <<< 12 ||| 0#32

/-- Directory entry `i`, as `walkpgdir` writes it: zero, or the table with `PTE_P | PTE_W | PTE_U`. -/
def PgDir.pdeWord (d : PgDir) (i : Nat) : Word :=
  match d.pde i with
  | none => 0#32
  | some t => v2p t.page ||| pteP ||| pteW ||| pteU

/-- Present and user-accessible, as `sys_getpgdirinfo` tests a directory or page table entry. -/
def userFlags (e : Word) : Bool := hasFlag (pteFlags e) pteP && hasFlag (pteFlags e) pteU

/-- A page is found, the `count`-th so far: `va[count]` and `pa[count]` while there is room, and
`n_upages` after the increment. -/
def recordPage (s : Nat × Stores) (va pa : Word) : Nat × Stores :=
  (s.1 + 1,
    s.2 ++ (if s.1 < maxUpageInfo then [(1 + s.1, va), (1 + maxUpageInfo + s.1, pa)] else [])
      ++ [(0, BitVec.ofNat 32 (s.1 + 1))])

/-- The loop over the entries of the table of directory entry `i`. -/
def scanTable (i : Nat) (t : PgTab) (s : Nat × Stores) : Nat × Stores :=
  (List.range 1024).foldl
    (fun s j =>
      let pte := t.pte j
      if userFlags pte then recordPage s (pgAddrOf i j) (p2v (pteAddr pte)) else s) s

/-- What `sys_getpgdirinfo()` stores through a non-null pointer. -/
@[irreducible] def pgdirinfoStores (d : PgDir) : Stores :=
  ((List.range 1024).foldl
    (fun s i =>
      if userFlags (d.pdeWord i) then
        match d.pde i with
        | none => s
        | some t => scanTable i t s
      else s) (0, [])).2

/-! ### The pages in order -/

/-- The directory entry and the page table entry of virtual page `n` are present and
user-accessible. -/
def PgDir.userMapped (d : PgDir) (n : Nat) : Bool :=
  userFlags (d.pdeWord (n / 1024)) && userFlags (d.entry n)

/-- The virtual pages that are present and user-accessible, in ascending order. -/
@[irreducible] def PgDir.userVpns (d : PgDir) : List Nat := (List.range 1048576).filter d.userMapped

/-- The address of virtual page `n`. -/
def pageAddr (n : Nat) : Word := BitVec.ofNat 32 (4096 * n)

theorem userFlags_zero : userFlags 0#32 = false := by decide

theorem pgAddrOf_eq {i j : Nat} (hi : i < 1024) (hj : j < 1024) :
    pgAddrOf i j = pageAddr (1024 * i + j) := by
  apply BitVec.eq_of_toNat_eq
  unfold pgAddrOf pageAddr
  rw [BitVec.or_zero, BitVec.toNat_or, BitVec.toNat_shiftLeft, BitVec.toNat_shiftLeft,
    BitVec.toNat_ofNat, BitVec.toNat_ofNat, BitVec.toNat_ofNat, Nat.shiftLeft_eq, Nat.shiftLeft_eq,
    Nat.mod_eq_of_lt (show i < 2 ^ 32 by omega), Nat.mod_eq_of_lt (show j < 2 ^ 32 by omega),
    Nat.mod_eq_of_lt (show i * 2 ^ 22 < 2 ^ 32 by omega),
    Nat.mod_eq_of_lt (show j * 2 ^ 12 < 2 ^ 32 by omega), ← Nat.shiftLeft_eq i,
    ← Nat.shiftLeft_add_eq_or_of_lt (by omega), Nat.shiftLeft_eq]
  omega

theorem foldl_range_nested {σ : Type} (f : σ → Nat → σ) (b : Nat) (s : σ) :
    ∀ a, (List.range a).foldl (fun s i => (List.range b).foldl (fun s j => f s (b * i + j)) s) s
      = (List.range (b * a)).foldl f s
  | 0 => rfl
  | a + 1 => by
    rw [List.range_succ, List.foldl_append, foldl_range_nested f b s a, Nat.mul_succ,
      List.range_add, List.foldl_append, List.foldl_map]
    rfl

theorem foldl_skip {σ : Type} {f : σ → Nat → σ} {l : List Nat} {s : σ}
    (h : ∀ j ∈ l, ∀ s, f s j = s) : l.foldl f s = s := by
  induction l with
  | nil => rfl
  | cons j l ih =>
    rw [List.foldl_cons, h j List.mem_cons_self]
    exact ih fun i hi => h i (List.mem_cons_of_mem j hi)

theorem userFlags_eq (e : Word) : userFlags e = (present e && userPte e) := by
  unfold userFlags present userPte hasFlag pteFlags
  rw [BitVec.and_assoc, BitVec.and_assoc, show 0xFFF#32 &&& pteP = pteP by decide,
    show 0xFFF#32 &&& pteU = pteU by decide]

theorem userFlags_pdeWord (d : PgDir) (i : Nat) :
    userFlags (d.pdeWord i) = (d.pde i).isSome := by
  unfold PgDir.pdeWord
  cases d.pde i with
  | none => exact userFlags_zero
  | some t =>
    rw [userFlags_eq]
    unfold present userPte hasFlag
    rw [Option.isSome_some, Bool.and_eq_true, bne_iff_ne, bne_iff_ne]
    constructor
    · intro h
      have := congrArg (fun x : Word => x.getLsbD 0) h
      simp [pteP] at this
    · intro h
      have := congrArg (fun x : Word => x.getLsbD 2) h
      simp [pteU] at this

theorem PgDir.userMapped_eq (d : PgDir) (n : Nat) :
    d.userMapped n = (present (d.entry n) && userPte (d.entry n)) := by
  unfold PgDir.userMapped
  rw [userFlags_pdeWord, userFlags_eq]
  cases htab : (d.pde (n / 1024)).isSome with
  | true => exact Bool.true_and _
  | false => rw [PgDir.entry_of_not_hasTab htab, present_zero, Bool.false_and, Bool.false_and]

theorem scanTable_eq (d : PgDir) (i : Nat) (hi : i < 1024) (s : Nat × Stores) :
    (if userFlags (d.pdeWord i) then
      match d.pde i with
      | none => s
      | some t => scanTable i t s
    else s) =
    (List.range 1024).foldl (fun s j =>
      if d.userMapped (1024 * i + j) then
        recordPage s (pageAddr (1024 * i + j)) (physPage (d.entry (1024 * i + j)))
      else s) s := by
  have hdiv : ∀ j ∈ List.range 1024, (1024 * i + j) / 1024 = i := fun j hj => by
    have := List.mem_range.mp hj
    omega
  rw [userFlags_pdeWord]
  cases ht : d.pde i with
  | none =>
    refine (foldl_skip fun j hj s => ?_).symm
    unfold PgDir.userMapped
    rw [hdiv j hj, userFlags_pdeWord, ht]
    rfl
  | some t =>
    refine List.foldl_ext _ _ _ fun s j hj => ?_
    have hentry : d.entry (1024 * i + j) = t.pte j := by
      unfold PgDir.entry
      rw [hdiv j hj, ht]
      dsimp only
      rw [Nat.mul_add_mod, Nat.mod_eq_of_lt (List.mem_range.mp hj)]
    unfold PgDir.userMapped
    rw [hdiv j hj, userFlags_pdeWord, ht, hentry, pgAddrOf_eq hi (List.mem_range.mp hj)]
    rfl

theorem pgdirinfoStores_eq (d : PgDir) :
    pgdirinfoStores d =
      (d.userVpns.foldl (fun s n => recordPage s (pageAddr n) (physPage (d.entry n))) (0, [])).2 := by
  unfold pgdirinfoStores PgDir.userVpns
  rw [List.foldl_filter]
  refine congrArg Prod.snd ((List.foldl_ext _ _ _ fun s i hi => ?_).trans
    (foldl_range_nested (fun s n => if d.userMapped n then
      recordPage s (pageAddr n) (physPage (d.entry n)) else s) 1024 (0, []) 1024))
  exact scanTable_eq d i (List.mem_range.mp hi) s

/-- The stores for the pages `ns`, on a structure with the words `w`. -/
structure Recorded (d : PgDir) (ns : List Nat) (w : Nat → Word) (s : Nat × Stores) : Prop where
  count : s.1 = ns.length
  nUpages : s.2.apply w 0 = if ns = [] then w 0 else BitVec.ofNat 32 ns.length
  va : ∀ k < 32, s.2.apply w (1 + k) = if h : k < ns.length then pageAddr ns[k] else w (1 + k)
  pa : ∀ k < 32, s.2.apply w (33 + k) =
    if h : k < ns.length then physPage (d.entry ns[k]) else w (33 + k)
  index : ∀ x ∈ s.2, x.1 < 65
  empty : s.2 = [] ↔ ns = []

theorem Recorded.nil (d : PgDir) (w : Nat → Word) : Recorded d [] w (0, []) :=
  ⟨rfl, rfl, fun _ _ => rfl, fun _ _ => rfl, nofun, iff_of_true rfl rfl⟩

variable {ns : List Nat}

theorem getElem_snoc {n k : Nat} (f : Nat → Word) (x : Word) :
    (if h : k < (ns ++ [n]).length then f (ns ++ [n])[k] else x) =
      if k = ns.length then f n else if h : k < ns.length then f ns[k] else x := by
  have hlen : (ns ++ [n]).length = ns.length + 1 := List.length_append
  by_cases hk : k = ns.length
  · subst hk
    rw [dif_pos (by omega), if_pos rfl, List.getElem_concat_length rfl]
  · rw [if_neg hk]
    by_cases hlt : k < ns.length
    · rw [dif_pos (by omega), dif_pos hlt, List.getElem_append_left hlt]
    · rw [dif_neg (by omega), dif_neg hlt]

theorem recordPage_apply (s : Nat × Stores) (va pa : Word) (w : Nat → Word) (j : Nat) :
    (recordPage s va pa).2.apply w j =
      if j = 0 then BitVec.ofNat 32 (s.1 + 1)
      else if s.1 < 32 ∧ j = 33 + s.1 then pa
      else if s.1 < 32 ∧ j = 1 + s.1 then va else s.2.apply w j := by
  unfold recordPage
  dsimp only
  rw [Stores.apply_append, Stores.apply_append, show maxUpageInfo = 32 from rfl]
  change update _ 0 _ j = _
  by_cases hj : j = 0
  · rw [hj, update_self, if_pos rfl]
  rw [update_of_ne hj, if_neg hj]
  by_cases hroom : s.1 < 32
  · rw [if_pos hroom]
    change update (update (Stores.apply s.2 w) (1 + s.1) va) (1 + 32 + s.1) pa j
      = _
    rw [show 1 + 32 + s.1 = 33 + s.1 by omega]
    by_cases hpa : j = 33 + s.1
    · rw [hpa, update_self, if_pos ⟨hroom, rfl⟩]
    · rw [update_of_ne hpa, if_neg fun h => hpa h.2]
      by_cases hva : j = 1 + s.1
      · rw [hva, update_self, if_pos ⟨hroom, rfl⟩]
      · rw [update_of_ne hva, if_neg fun h => hva h.2]
  · rw [if_neg hroom, if_neg fun h => hroom h.1, if_neg fun h => hroom h.1]
    rfl

variable {d : PgDir}

theorem Recorded.snoc {w : Nat → Word} {s : Nat × Stores} (h : Recorded d ns w s) (n : Nat) :
    Recorded d (ns ++ [n]) w (recordPage s (pageAddr n) (physPage (d.entry n))) := by
  have hcount := h.count
  have hlen : (ns ++ [n]).length = ns.length + 1 := List.length_append
  have hne : ns ++ [n] ≠ [] := by simp
  refine ⟨?_, ?_, fun k hk => ?_, fun k hk => ?_, fun x hx => ?_, ?_⟩
  · rw [hlen, ← hcount]
    rfl
  · rw [recordPage_apply, if_pos rfl, if_neg hne, hlen, hcount]
  · rw [recordPage_apply, if_neg (by omega), if_neg (by omega), getElem_snoc, h.va k hk]
    by_cases he : k = ns.length
    · rw [if_pos (by omega), if_pos he]
    · rw [if_neg (by omega), if_neg he]
  · rw [recordPage_apply, if_neg (by omega), getElem_snoc fun m => physPage (d.entry m), h.pa k hk]
    by_cases he : k = ns.length
    · rw [if_pos (by omega), if_pos he]
    · rw [if_neg (by omega), if_neg (by omega), if_neg he]
  · unfold recordPage at hx
    dsimp only at hx
    rw [List.mem_append, List.mem_append, List.mem_singleton] at hx
    rcases hx with (hx | hx) | rfl
    · exact h.index x hx
    · split at hx
      · rename_i hroom
        have : s.1 < 32 := hroom
        simp only [List.mem_cons, List.not_mem_nil, or_false] at hx
        rcases hx with rfl | rfl
        · show 1 + s.1 < 65
          omega
        · show 1 + 32 + s.1 < 65
          omega
      · cases hx
    · exact Nat.succ_pos 64
  · refine iff_of_false ?_ hne
    unfold recordPage
    simp

theorem recorded_foldl (d : PgDir) (w : Nat → Word) (ns : List Nat) :
    Recorded d ns w
      (ns.foldl (fun s n => recordPage s (pageAddr n) (physPage (d.entry n))) (0, [])) := by
  induction ns using List.reverseRecOn with
  | nil => exact .nil d w
  | append_singleton ns n ih =>
    rw [List.foldl_append]
    exact ih.snoc n

variable {st : Stores}

theorem Recorded.of_stores
    (h : st = (ns.foldl (fun s n => recordPage s (pageAddr n) (physPage (d.entry n))) (0, [])).2)
    (w : Nat → Word) : ∃ n, Recorded d ns w (n, st) := by
  rw [h]
  exact ⟨_, recorded_foldl d w ns⟩

/-- **What `sys_getpgdirinfo` stores.** -/
theorem pgdirinfoStores_recorded (d : PgDir) (w : Nat → Word) :
    ∃ n, Recorded d d.userVpns w (n, pgdirinfoStores d) :=
  Recorded.of_stores (pgdirinfoStores_eq d) w

/-! ### An exact report -/

/-- The words `w'` are an exact report of the user pages of `d`, written over `w`: their number, and
for the first 32 of them the virtual and the physical address; the rest is as before. -/
structure PgDir.Reports (d : PgDir) (w w' : Nat → Word) : Prop where
  nUpages : w' 0 = BitVec.ofNat 32 d.userVpns.length
  va : ∀ k < 32, w' (1 + k) =
    if h : k < d.userVpns.length then pageAddr d.userVpns[k] else w (1 + k)
  pa : ∀ k < 32, w' (33 + k) =
    if h : k < d.userVpns.length then pteAddr (d.entry d.userVpns[k]) else w (33 + k)
  rest : ∀ j, 65 ≤ j → w' j = w j

theorem Stores.apply_of_not_mem {w : Nat → Word} {j : Nat} (h : ∀ x ∈ st, x.1 ≠ j) :
    st.apply w j = w j := by
  unfold Stores.apply
  induction st generalizing w with
  | nil => rfl
  | cons x st ih =>
    rw [List.foldl_cons, ih fun y hy => h y (List.mem_cons_of_mem x hy)]
    exact update_of_ne (h x List.mem_cons_self).symm ..

theorem physPage_ne (e : Word) : physPage e ≠ pteAddr e := by
  unfold physPage p2v kernBase
  bv_omega

/-- **What `sys_getpgdirinfo` reports**: the number of user pages, if there are any, their virtual
addresses, and in place of the physical addresses the kernel's addresses of the pages. So the report
is exact for an address space without user pages and a structure that has a zero there already. -/
theorem getpgdirinfo_reports_iff (d : PgDir) (w : Nat → Word) :
    (d.Reports w ((pgdirinfoStores d).apply w) ↔ d.userVpns = [] ∧ w 0 = 0#32) ∧
    (pgdirinfoStores d).apply w 0 =
      (if d.userVpns = [] then w 0 else BitVec.ofNat 32 d.userVpns.length) ∧
    (∀ k < 32, (pgdirinfoStores d).apply w (1 + k) =
      if h : k < d.userVpns.length then pageAddr d.userVpns[k] else w (1 + k)) ∧
    (∀ k < 32, (pgdirinfoStores d).apply w (33 + k) =
      if h : k < d.userVpns.length then p2v (pteAddr (d.entry d.userVpns[k])) else w (33 + k)) ∧
    ∀ j, 65 ≤ j → (pgdirinfoStores d).apply w j = w j := by
  obtain ⟨n, h⟩ := pgdirinfoStores_recorded d w
  have hrest : ∀ j, 65 ≤ j → (pgdirinfoStores d).apply w j = w j := fun j hj =>
    Stores.apply_of_not_mem fun x hx => by
      have := h.index x hx
      omega
  refine ⟨⟨fun hr => ?_, fun ⟨hnil, hzero⟩ => ?_⟩, h.nUpages, h.va, h.pa, hrest⟩
  · have hnil : d.userVpns = [] := by
      by_contra hne
      have hlen := List.length_pos_of_ne_nil hne
      have hpa := hr.pa 0 (by decide)
      rw [h.pa 0 (by decide), dif_pos hlen, dif_pos hlen] at hpa
      exact physPage_ne _ hpa
    have hcount := hr.nUpages
    rw [h.nUpages, if_pos hnil, hnil] at hcount
    exact ⟨hnil, hcount⟩
  · have hno : ∀ k, ¬ k < d.userVpns.length := fun k => by
      rw [hnil]
      exact Nat.not_lt_zero k
    refine ⟨?_, h.va, fun k hk => ?_, hrest⟩
    · rw [h.nUpages, if_pos hnil, hnil, hzero]
      rfl
    · rw [h.pa k hk, dif_neg (hno k), dif_neg (hno k)]

theorem PgDir.mem_userVpns {n : Nat} :
    n ∈ d.userVpns ↔ n < 1048576 ∧ d.userMapped n = true := by
  unfold PgDir.userVpns
  rw [List.mem_filter, List.mem_range]

theorem PgDir.sample_userVpns : PgDir.sample.userVpns = [3] := by
  have hnd : PgDir.sample.userVpns.Nodup := by
    unfold PgDir.userVpns
    exact List.nodup_range.filter _
  refine List.perm_singleton.mp ((List.perm_ext_iff_of_nodup hnd (List.nodup_singleton 3)).mpr ?_)
  intro n
  rw [PgDir.mem_userVpns, PgDir.userMapped_eq, List.mem_singleton]
  constructor
  · rintro ⟨-, h⟩
    exact PgDir.sample_present (Bool.and_eq_true_iff.mp h).1
  · rintro rfl
    exact ⟨by decide, by decide⟩

/-- The page at physical address `0x0DFF0000` is reported at `0x8DFF0000`. -/
theorem getpgdirinfo_reports_kernel_address :
    (pgdirinfoStores .sample).apply (fun _ => 0#32) 33 = 0x8DFF0000#32 ∧
      pteAddr (PgDir.sample.entry 3) = 0x0DFF0000#32 ∧
      ¬ PgDir.sample.Reports (fun _ => 0#32) ((pgdirinfoStores .sample).apply fun _ => 0#32) := by
  obtain ⟨n, h⟩ := pgdirinfoStores_recorded .sample fun _ => 0#32
  have hlen : 0 < PgDir.sample.userVpns.length := by
    rw [PgDir.sample_userVpns]
    exact Nat.one_pos
  have hpage : PgDir.sample.userVpns[0] = 3 := by
    simp only [PgDir.sample_userVpns]
    rfl
  have hpa := h.pa 0 (by decide)
  rw [dif_pos hlen, hpage] at hpa
  refine ⟨hpa.trans (by decide), by decide, fun hr => ?_⟩
  have hphys := hr.pa 0 (by decide)
  rw [dif_pos hlen, hpage, hpa] at hphys
  exact physPage_ne _ hphys

/-! ## Arguments -/

/-- A process in a system call: its size, its saved stack pointer, and the int at each address. -/
structure UserCall where
  sz : Word
  esp : Word
  int : Word → Word

/-- `fetchint(addr, ip)`. -/
def fetchint (c : UserCall) (addr : Word) : Option Word :=
  if c.sz ≤ addr ∨ c.sz < addr + 4#32 then none else some (c.int addr)

/-- `argint(n, ip)`. -/
def argint (c : UserCall) (n : Word) : Option Word := fetchint c (c.esp + 4#32 + 4#32 * n)

/-- `argptr(n, pp, size)`. -/
def argptr (c : UserCall) (n size : Word) : Option Word :=
  match argint c n with
  | none => none
  | some i => if size.toInt < 0 ∨ c.sz ≤ i ∨ c.sz < i + size then none else some i

/-- What an info call does: its result, the pointer it goes by, and the words it writes. -/
structure InfoReturn where
  ret : Word
  ptr : Word
  writes : List (Word × Word)

/-- An info call that makes the stores `st`. The result of `argptr` is not looked at: if it fails,
the pointer is whatever the uninitialised variable holds. The size is that of a pointer. -/
def infoCall (c : UserCall) (garbage : Word) (st : Stores) : InfoReturn :=
  let ptr := (argptr c 0#32 4#32).getD garbage
  if ptr = 0#32 then ⟨failed, ptr, []⟩
  else ⟨success, ptr, st.map fun s => (ptr + BitVec.ofNat 32 (4 * s.1), s.2)⟩

/-- `sys_getpgdirinfo()`. -/
def sysGetpgdirinfo (c : UserCall) (garbage : Word) (d : PgDir) : InfoReturn :=
  infoCall c garbage (pgdirinfoStores d)

/-- What `sys_getwmapinfo()` stores through a non-null pointer. -/
def wmapinfoStores (m : Maps) : Stores :=
  (0, BitVec.ofInt 32 m.total) :: (List.range m.total.toNat).flatMap fun i =>
    [(1 + i, m.wmapinfo.addr i), (17 + i, m.wmapinfo.length i),
      (33 + i, m.wmapinfo.nLoadedPages i)]

/-- `sys_getwmapinfo()`, from the argument on. -/
def sysGetwmapinfoAt (c : UserCall) (garbage : Word) (m : Maps) : InfoReturn :=
  infoCall c garbage (wmapinfoStores m)

/-! ### The words of `struct wmapinfo` -/

theorem mem_wmapinfoStores {m : Maps} {x : Nat × Word} :
    x ∈ wmapinfoStores m ↔ x = (0, BitVec.ofInt 32 m.total) ∨
      ∃ i < m.total.toNat, x = (1 + i, m.wmapinfo.addr i) ∨ x = (17 + i, m.wmapinfo.length i) ∨
        x = (33 + i, m.wmapinfo.nLoadedPages i) := by
  unfold wmapinfoStores
  simp only [List.mem_cons, List.mem_flatMap, List.mem_range, List.not_mem_nil, or_false]

/-! ## Writing inside the caller's memory -/

/-- `argptr` accepted `ptr`, and the whole structure of 65 words is in the caller's memory. -/
def Validated (c : UserCall) (ptr : Word) : Prop :=
  argptr c 0#32 4#32 = some ptr ∧ ptr.toNat + 260 ≤ c.sz.toNat

/-- The call fails without a write, or every byte it writes is below the process size and the
pointer was validated for the whole structure. -/
def InfoSafe (c : UserCall) (r : InfoReturn) : Prop :=
  (r.ret = failed ∧ r.writes = []) ∨
    ((∀ x ∈ r.writes, ∀ b < 4, (x.1 + BitVec.ofNat 32 b).toNat < c.sz.toNat) ∧
      (r.writes ≠ [] → Validated c r.ptr))

/-- The pointer that the calls go by is null, or it was validated. -/
def PtrOk (c : UserCall) (garbage : Word) : Prop :=
  (argptr c 0#32 4#32).getD garbage = 0#32 ∨ Validated c ((argptr c 0#32 4#32).getD garbage)

theorem infoCall_safe_iff {c : UserCall} {garbage : Word} (hst : ∀ x ∈ st, x.1 < 65) :
    InfoSafe c (infoCall c garbage st) ↔ st = [] ∨ PtrOk c garbage := by
  unfold InfoSafe infoCall PtrOk
  dsimp only
  set ptr := (argptr c 0#32 4#32).getD garbage
  by_cases hnull : ptr = 0#32
  · rw [if_pos hnull]
    exact iff_of_true (.inl ⟨rfl, rfl⟩) (.inr (.inl hnull))
  rw [if_neg hnull]
  dsimp only
  simp only [hnull, false_or, ne_eq, List.map_eq_nil_iff]
  constructor
  · rintro (⟨hfail, -⟩ | ⟨-, hval⟩)
    · cases hfail
    · by_cases hnil : st = []
      · exact .inl hnil
      · exact .inr (hval hnil)
  rintro (rfl | hval)
  · exact .inr ⟨nofun, fun h => absurd rfl h⟩
  · refine .inr ⟨fun x hx b hb => ?_, fun _ => hval⟩
    obtain ⟨y, hy, rfl⟩ := List.mem_map.mp hx
    have hi := hst y hy
    have hend := hval.2
    have hlt := c.sz.isLt
    dsimp only
    rw [BitVec.toNat_add, BitVec.toNat_add, BitVec.toNat_ofNat, BitVec.toNat_ofNat]
    omega

theorem wmapinfoStores_index {m : Maps} (hm : m.Counted) : ∀ x ∈ wmapinfoStores m, x.1 < 65 := by
  intro x hx
  obtain ⟨hlo, hhi⟩ := hm
  rw [show (maxWmmapInfo : Int) = 16 from rfl] at hhi
  rcases mem_wmapinfoStores.mp hx with rfl | ⟨i, hi, rfl | rfl | rfl⟩
  · exact Nat.succ_pos 64
  all_goals
    dsimp only
    omega

/-- **When the info calls are safe**: for every size, stack and argument, if the pointer they go by is
null or `argptr` accepted it and the whole structure fits. `sys_getpgdirinfo` also writes nothing
where there is no user page. -/
theorem infoCalls_safe_iff (c : UserCall) (garbage : Word) (m : Maps) (d : PgDir)
    (hm : m.Counted) :
    (InfoSafe c (sysGetwmapinfoAt c garbage m) ↔ PtrOk c garbage) ∧
    (InfoSafe c (sysGetpgdirinfo c garbage d) ↔ d.userVpns = [] ∨ PtrOk c garbage) := by
  constructor
  · unfold sysGetwmapinfoAt
    rw [infoCall_safe_iff (wmapinfoStores_index hm)]
    exact or_iff_right (List.cons_ne_nil _ _)
  · obtain ⟨n, h⟩ := pgdirinfoStores_recorded d fun _ => 0#32
    unfold sysGetpgdirinfo
    rw [infoCall_safe_iff h.index, h.empty]

/-- A process of two pages that passes the address `arg`. -/
def UserCall.passing (arg : Word) : UserCall := ⟨0x2000#32, 0x1F00#32, fun _ => arg⟩

/-- A structure that ends where the memory of the process ends. -/
theorem infoCalls_safe_iff_end :
    InfoSafe (.passing 0x1EFC#32) (sysGetwmapinfoAt (.passing 0x1EFC#32) 0x80100000#32 Maps.init) ∧
    InfoSafe (.passing 0x1EFC#32) (sysGetpgdirinfo (.passing 0x1EFC#32) 0x80100000#32 .sample) := by
  have h := infoCalls_safe_iff (.passing 0x1EFC#32) 0x80100000#32 Maps.init .sample
    ⟨le_rfl, by decide⟩
  have hok : PtrOk (.passing 0x1EFC#32) 0x80100000#32 := .inr ⟨by decide, by decide⟩
  exact ⟨h.1.mpr hok, h.2.mpr (.inr hok)⟩

theorem pgdirinfoStores_sample :
    pgdirinfoStores .sample = [(1, 0x3000#32), (33, 0x8DFF0000#32), (0, 1#32)] := by
  rw [pgdirinfoStores_eq, PgDir.sample_userVpns]
  decide

/-- The last word of the process as argument: `n_upages` fits, and `va[0]` is written behind the
memory of the process. An address that `argptr` refuses: the structure is written to wherever the
uninitialised pointer points. -/
theorem infoCalls_write_outside :
    ((0x2000#32, 0x3000#32) ∈
        (sysGetpgdirinfo (.passing 0x1FFC#32) 0x80100000#32 .sample).writes ∧
      ¬ InfoSafe (.passing 0x1FFC#32)
        (sysGetpgdirinfo (.passing 0x1FFC#32) 0x80100000#32 .sample)) ∧
    (0x80100000#32, 0#32) ∈
        (sysGetwmapinfoAt (.passing 0xFFFFFFFF#32) 0x80100000#32 Maps.init).writes ∧
      ¬ InfoSafe (.passing 0xFFFFFFFF#32)
        (sysGetwmapinfoAt (.passing 0xFFFFFFFF#32) 0x80100000#32 Maps.init) := by
  refine ⟨⟨?_, ?_⟩, by decide, ?_⟩
  · unfold sysGetpgdirinfo
    rw [pgdirinfoStores_sample]
    decide
  · unfold sysGetpgdirinfo
    rw [pgdirinfoStores_sample, infoCall_safe_iff (by decide)]
    rintro (hnil | hnull | ⟨-, hfit⟩)
    · cases hnil
    · exact absurd hnull (by decide)
    · exact absurd hfit (by decide)
  · unfold sysGetwmapinfoAt
    rw [infoCall_safe_iff (by decide)]
    rintro (hnil | hnull | ⟨harg, -⟩)
    · cases hnil
    · exact absurd hnull (by decide)
    · exact absurd harg (by decide)

end Xv6Mmap
