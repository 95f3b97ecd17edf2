import Xv6Mmap.Calls
import Xv6Mmap.Grow

/-!
# Growing and shrinking a process (`proc.c:193-212`)

`growproc` adds a signed number of bytes to the size of a process. Zero is a size and the failure
result of `allocuvm` and `deallocuvm` at once, the sum is computed modulo `2 ^ 32`, and the range
that a failed `allocuvm` gives back reaches up to the size asked for, over whatever lies there.

* `GrowExact` says what a caller of `sbrk` relies on: the size becomes the sum and the pages follow
  it, or nothing changes.
* `allocLoop_present`: a page that is already mapped in the range is the end of the growth, in a
  panic or by being freed.
* **`growproc_exact_iff`**: the calls that are exact are those that stay above size zero when they
  shrink the process and whose new pages are free when they grow it.
-/

namespace Xv6Mmap

/-- The checks of `switchuvm(p)`. -/
def switchuvm (p : Proc) : Except Halt Unit :=
  if p.kstack = 0#32 then .error (.panic "switchuvm: no kstack")
  else if p.pgdir.page = 0#32 then .error (.panic "switchuvm: no pgdir")
  else .ok ()

/-- The end of `growproc`: the size is stored and the page table reloaded. -/
def setSize (k : Kmem) (p : Proc) (d : PgDir) (sz : Word) : Except Halt (Bool × Kmem × Proc) :=
  match switchuvm { p with pgdir := d, sz := sz } with
  | .error e => .error e
  | .ok () => .ok (true, k, { p with pgdir := d, sz := sz })

/-- `growproc(n)` called by `p`; `true` for `0`, `false` for `-1`. -/
def growproc (k : Kmem) (p : Proc) (n : Word) : Except Halt (Bool × Kmem × Proc) :=
  if 0 < n.toInt then
    match allocuvm k p.pgdir p.sz (p.sz + n) with
    | .error e => .error e
    | .ok (sz, k, d) =>
      if sz = 0#32 then .ok (false, k, { p with pgdir := d }) else setSize k p d sz
  else if n.toInt < 0 then
    match deallocuvm k p.pgdir p.sz (p.sz + n) with
    | .error e => .error e
    | .ok (sz, k, d) =>
      if sz = 0#32 then .ok (false, k, { p with pgdir := d }) else setSize k p d sz
  else setSize k p p.pgdir p.sz

/-! ## What a caller relies on -/

/-- A running process whose pages below `MIN_ADDR` are those of `[0, PGROUNDUP(sz))`. -/
structure Growable (k : Kmem) (p : Proc) : Prop where
  linked : k.image.Linked
  sound : k.Sound
  nodup : k.freelist.Nodup
  kstack : p.kstack ≠ 0#32
  page : p.pgdir.page ≠ 0#32
  isPage : ∀ n < 0x80000, present (p.pgdir.entry n) = true →
    k.image.isPage (physPage (p.pgdir.entry n)) = true
  below : ∀ n, (n < 0x60000 ∧ present (p.pgdir.entry n) = true) ↔ n < upPage p.sz

/-- The pages of `p'` follow its size, and above them and above `MIN_ADDR` nothing has changed. -/
structure Resized (p p' : Proc) : Prop where
  pages : ∀ m < max 0x60000 (upPage p'.sz),
    present (p'.pgdir.entry m) = true ↔ m < upPage p'.sz
  above : ∀ m, max 0x60000 (upPage p'.sz) ≤ m → p'.pgdir.entry m = p.pgdir.entry m

/-- `growproc(n)` returns, with the size `sz + n` and the pages for it or with nothing changed. -/
def GrowExact (k : Kmem) (p : Proc) (n : Word) : Prop :=
  match growproc k p n with
  | .error _ => False
  | .ok (true, _, p') =>
    (p'.sz.toNat : Int) = p.sz.toNat + n.toInt ∧ p'.sz < kernBase ∧ Resized p p'
  | .ok (false, _, p') =>
    p'.sz = p.sz ∧ ∀ m, present (p'.pgdir.entry m) = present (p.pgdir.entry m)

/-- The calls that are exact: a shrinking one leaves something or finds nothing, a growing one goes
past `KERNBASE` or over pages that are not mapped. -/
def GrowSafe (p : Proc) (n : Word) : Prop :=
  n.toInt = 0 ∨
  (0 < n.toInt ∧ (kernBase ≤ p.sz + n ∨
    ∀ q, upPage p.sz ≤ q → q < upPage (p.sz + n) → present (p.pgdir.entry q) = false)) ∨
  (n.toInt < 0 ∧ (p.sz = 0#32 ∨ -n.toInt < p.sz.toNat))

variable {d : PgDir}

theorem setSize_eq {k : Kmem} {p : Proc} {sz : Word} (hs : p.kstack ≠ 0#32) (hd : d.page ≠ 0#32) :
    setSize k p d sz = .ok (true, k, { p with pgdir := d, sz := sz }) := by
  unfold setSize switchuvm
  rw [if_neg hs, if_neg hd]

/-! ## Growing over a mapped page -/

variable {oldsz newsz : Word} {q : Nat}

theorem deallocuvm_absent {k k' : Kmem} {d' : PgDir} {r : Word} (hsz : oldsz ≤ kernBase)
    (hlo : upPage newsz ≤ q) (hhi : q < upPage oldsz)
    (h : deallocuvm k d oldsz newsz = .ok (r, k', d')) : present (d'.entry q) = false := by
  have hle : newsz ≤ oldsz := by
    rw [BitVec.le_def]
    unfold upPage at hlo hhi
    omega
  rw [deallocuvm_eq_each hsz hle] at h
  split at h
  · cases h
  · next heach =>
    cases h
    exact deallocEach_clears heach q (.inr ⟨hlo, by omega⟩)

/-- With a mapped page `q` ahead the loop ends in a panic, or the page is freed. -/
theorem allocLoop_present (hlt : newsz < kernBase) (hlo : upPage oldsz ≤ q)
    (hhi : q < upPage newsz) :
    ∀ (fuel : Nat) {k : Kmem} {d : PgDir} {a r : Word} {k' : Kmem} {d' : PgDir},
      a.toNat % 4096 = 0 → vpn a ≤ q → present (d.entry q) = true →
      allocLoop oldsz newsz fuel k d a = .ok (r, k', d') →
      r = 0#32 ∧ present (d'.entry q) = false := by
  have hltN : newsz.toNat < 0x80000000 := BitVec.lt_def.mp hlt
  have hle : newsz ≤ kernBase := BitVec.le_of_lt hlt
  intro fuel
  induction fuel with
  | zero => exact fun _ _ _ h => by cases h
  | succ fuel ih =>
    intro k d a r k' d' hal hva hp h
    have hgo : a < newsz := (lt_iff_vpn_lt hal).mpr (by omega)
    have hgoN := BitVec.lt_def.mp hgo
    rw [allocLoop, if_pos hgo] at h
    split at h
    · split at h
      · cases h
      · rename_i hde
        cases h
        exact ⟨rfl, deallocuvm_absent hle hlo hhi hde⟩
    split at h
    · cases h
    · -- the page of this turn was not mapped, so `q` is still to come
      rename_i hmap
      obtain ⟨d1, hw, ⟨hb, -⟩ | ⟨-, habs, rfl⟩⟩ := mappages_page_cases hal hmap
      · cases hb
      obtain ⟨hentry, -⟩ := walkpgdir_entry hw
      have hne : vpn a ≠ q := by
        rintro rfl
        rw [hentry, hp] at habs
        cases habs
      have hnext := toNat_add_pgSize (a := a) (by omega)
      have hvpn := vpn_add_pgSize (a := a) (by omega)
      refine ih (by omega) (by omega) ?_ h
      rw [PgDir.entry_setEntry_of_ne (by omega), hentry, hp]
    · split at h
      · cases h
      · rename_i hde
        split at h <;> cases h
        exact ⟨rfl, deallocuvm_absent hle hlo hhi hde⟩

theorem allocuvm_present {k k' : Kmem} {d' : PgDir} {r : Word} (hle : oldsz ≤ newsz)
    (hlt : newsz < kernBase) (hlo : upPage oldsz ≤ q) (hhi : q < upPage newsz)
    (hp : present (d.entry q) = true) (h : allocuvm k d oldsz newsz = .ok (r, k', d')) :
    r = 0#32 ∧ present (d'.entry q) = false := by
  have hltN : newsz.toNat < 0x80000000 := BitVec.lt_def.mp hlt
  have hleN := BitVec.le_def.mp hle
  have hup := pgRoundUp_eq (show oldsz.toNat ≤ 0x80000000 by omega)
  have hvpn := vpn_pgRoundUp (show oldsz.toNat ≤ 0x80000000 by omega)
  unfold allocuvm at h
  rw [if_neg (BitVec.not_le.mpr hlt), if_neg (BitVec.not_lt.mpr hle)] at h
  exact allocLoop_present hlt hlo hhi 1048577 (by omega) (by omega) hp h

/-! ## The three cases -/

section Growable

variable {k : Kmem} {p : Proc} {n : Word}

theorem Growable.upPage_le (h : Growable k p) : upPage p.sz ≤ 0x60000 := by
  by_contra hgt
  have := (h.below 0x60000).mpr (by omega)
  omega

theorem Growable.present_iff (h : Growable k p) {m : Nat} (hm : m < 0x60000) :
    present (p.pgdir.entry m) = true ↔ m < upPage p.sz :=
  ⟨fun hp => (h.below m).mp ⟨hm, hp⟩, fun hlt => ((h.below m).mpr hlt).2⟩

theorem Growable.resized_self (h : Growable k p) : Resized p p := by
  have hle := h.upPage_le
  refine ⟨fun m hm => h.present_iff (by omega), fun _ _ => rfl⟩

variable {sz : Word} {k' : Kmem} {d' : PgDir}

/-- The pages after `allocuvm` has mapped all that the size `sz` asks for. -/
theorem Growable.resized_grow (h : Growable k p) {data tabs : List Word}
    (hlen : upPage p.sz + data.length = upPage sz)
    (hgrows : Grows k p.pgdir (upPage p.sz) data tabs k' d') :
    Resized p { p with pgdir := d', sz := sz } := by
  have hle := h.upPage_le
  refine ⟨fun m hm => ?_, fun m hm => hgrows.outside m (by dsimp only at hm; omega)⟩
  dsimp only at hm ⊢
  by_cases hnew : upPage p.sz ≤ m ∧ m < upPage sz
  · have hin := hgrows.inside (m - upPage p.sz) (by omega)
    rw [show upPage p.sz + (m - upPage p.sz) = m by omega] at hin
    rw [hin, present_userEntry]
    exact iff_of_true rfl hnew.2
  · rw [hgrows.outside m (by omega), h.present_iff (by omega)]
    omega

theorem Growable.shrunk (h : Growable k p) (hsz : upPage sz ≤ upPage p.sz) (hback : GivenBack k p.pgdir
      (p.pgdir.presentFrom (upPage sz) (upPage p.sz - upPage sz)) k' d') (m : Nat) :
    d'.entry m = if upPage sz ≤ m ∧ m < upPage p.sz then 0#32 else p.pgdir.entry m := by
  have hle := h.upPage_le
  split
  · refine hback.cleared m (List.mem_filter.mpr ⟨List.mem_range'_1.mpr (by omega), ?_⟩)
    exact (h.present_iff (by omega)).mpr (by omega)
  · refine hback.kept m fun hmem => ?_
    have := List.mem_range'_1.mp (List.mem_of_mem_filter hmem)
    omega

theorem Growable.resized_shrink (h : Growable k p) (hsz : upPage sz ≤ upPage p.sz) (hback : GivenBack k p.pgdir
      (p.pgdir.presentFrom (upPage sz) (upPage p.sz - upPage sz)) k' d') :
    Resized p { p with pgdir := d', sz := sz } := by
  have hle := h.upPage_le
  refine ⟨fun m hm => ?_, fun m hm => ?_⟩
  · dsimp only at hm ⊢
    rw [h.shrunk hsz hback]
    split
    · rw [present_zero]
      exact iff_of_false Bool.false_ne_true (by omega)
    · rw [h.present_iff (by omega)]
      omega
  · dsimp only at hm ⊢
    rw [h.shrunk hsz hback, if_neg (by omega)]

theorem not_growExact_of_present (hn : 0 < n.toInt) (hle : p.sz ≤ p.sz + n)
    (hlt : p.sz + n < kernBase) {q : Nat} (hlo : upPage p.sz ≤ q) (hhi : q < upPage (p.sz + n))
    (hp : present (p.pgdir.entry q) = true) : ¬ GrowExact k p n := by
  intro hexact
  unfold GrowExact growproc at hexact
  rw [if_pos hn] at hexact
  cases ha : allocuvm k p.pgdir p.sz (p.sz + n) with
  | error e =>
    rw [ha] at hexact
    exact hexact
  | ok r =>
    obtain ⟨sz, k', d'⟩ := r
    obtain ⟨rfl, habs⟩ := allocuvm_present hle hlt hlo hhi hp ha
    rw [ha] at hexact
    have := hexact.2 q
    rw [hp] at this
    exact Bool.false_ne_true (habs.symm.trans this)

/-- Growing: exact unless a page of the new range is mapped. -/
theorem Growable.exact_grow (h : Growable k p) (hn : 0 < n.toInt) :
    GrowExact k p n ↔ kernBase ≤ p.sz + n ∨
      ∀ q, upPage p.sz ≤ q → q < upPage (p.sz + n) → present (p.pgdir.entry q) = false := by
  have hle := h.upPage_le
  have hsum : ((p.sz + n).toNat : Int) = p.sz.toNat + n.toInt := by
    rw [BitVec.toInt_eq_toNat_cond] at hn ⊢
    have := n.isLt
    unfold upPage at hle
    split at hn
    · rw [if_pos (by assumption), BitVec.toNat_add]
      omega
    · omega
  by_cases hbase : kernBase ≤ p.sz + n
  · have hzero : allocuvm k p.pgdir p.sz (p.sz + n) = .ok (0#32, k, p.pgdir) := if_pos hbase
    unfold GrowExact growproc
    rw [if_pos hn, hzero]
    exact ⟨fun _ => .inl hbase, fun _ => ⟨rfl, fun _ => rfl⟩⟩
  have hlt : p.sz + n < kernBase := BitVec.not_le.mp hbase
  have hold : p.sz ≤ p.sz + n := by
    rw [BitVec.le_def]
    omega
  simp only [hbase, false_or]
  constructor
  · intro hexact q hlo hhi
    rw [← Bool.not_eq_true]
    exact fun hp => not_growExact_of_present hn hold hlt hlo hhi hp hexact
  intro habs
  unfold GrowExact growproc
  rw [if_pos hn]
  rcases allocuvm_spec h.linked h.sound h.nodup hold hlt habs with
    ⟨-, data, tabs, k', d', hok, hlen, hgrows⟩ | ⟨-, tabs, k', d', hok, hback⟩
  · have hne : p.sz + n ≠ 0#32 := fun he => by
      rw [he] at hsum
      have : ((0#32 : Word).toNat : Int) = 0 := rfl
      omega
    rw [hok]
    dsimp only
    rw [if_neg hne, setSize_eq h.kstack (hgrows.page ▸ h.page)]
    exact ⟨hsum, hlt, h.resized_grow hlen hgrows⟩
  · rw [hok]
    refine ⟨rfl, fun m => ?_⟩
    rw [← PgDir.isSome_translate, hback.translate, PgDir.isSome_translate]

theorem Growable.exact_shrink (h : Growable k p) (hn : n.toInt < 0) :
    GrowExact k p n ↔ p.sz = 0#32 ∨ -n.toInt < p.sz.toNat := by
  have hle := h.upPage_le
  have hszN : p.sz.toNat ≤ 0x60000000 := by
    unfold upPage at hle
    omega
  have hneg : n.toInt = (n.toNat : Int) - 2 ^ 32 := by
    rw [BitVec.toInt_eq_toNat_cond] at hn ⊢
    split at hn
    · omega
    · rw [if_neg (by assumption)]
      rfl
  have hnlt := n.isLt
  have hsum := BitVec.toNat_add p.sz n
  have hzero : (0#32 : Word).toNat = 0 := rfl
  unfold GrowExact growproc
  rw [if_neg (by omega), if_pos hn]
  by_cases hwrap : p.sz ≤ p.sz + n
  · -- the sum is below zero, and as an unsigned number above the size
    have hsame : deallocuvm k p.pgdir p.sz (p.sz + n) = .ok (p.sz, k, p.pgdir) := if_pos hwrap
    rw [hsame]
    dsimp only
    rw [BitVec.le_def] at hwrap
    by_cases hz : p.sz = 0#32
    · rw [if_pos hz]
      exact iff_of_true ⟨rfl, fun _ => rfl⟩ (.inl hz)
    have hpos : 0 < p.sz.toNat := Nat.pos_of_ne_zero fun he => hz (BitVec.eq_of_toNat_eq he)
    rw [if_neg hz, setSize_eq h.kstack h.page]
    refine iff_of_false (fun hexact => ?_) ?_
    · have := hexact.1
      dsimp only at this
      omega
    · rintro (he | hlt)
      · exact hz he
      · omega
  · have hlt : p.sz + n < p.sz := BitVec.not_le.mp hwrap
    have hltN := BitVec.lt_def.mp hlt
    have hup : upPage (p.sz + n) ≤ upPage p.sz := by
      unfold upPage
      omega
    obtain ⟨k', d', heach, hback⟩ := deallocEach_givesBack h.linked rfl
      (p := upPage (p.sz + n)) (d := p.pgdir) (n := upPage p.sz - upPage (p.sz + n))
      fun q _ hlt hp => h.isPage q (by omega) hp
    have hde : deallocuvm k p.pgdir p.sz (p.sz + n) = .ok (p.sz + n, k', d') := by
      rw [deallocuvm_eq_each (by omega) (BitVec.le_of_lt hlt), heach]
    rw [hde]
    dsimp only
    by_cases hz : p.sz + n = 0#32
    · -- everything was freed, and the size zero is taken for a failure
      rw [if_pos hz]
      rw [hz, hzero] at hsum hltN
      have hpages : 0 < upPage p.sz := by
        unfold upPage
        omega
      refine iff_of_false (fun hexact => ?_) ?_
      · have hfirst := hexact.2 0
        dsimp only at hfirst
        rw [h.shrunk hup hback, if_pos ⟨by rw [hz]; exact Nat.le_refl 0, hpages⟩, present_zero,
          (h.present_iff (by omega)).mpr hpages] at hfirst
        cases hfirst
      · rintro (he | hlt')
        · rw [he, hzero] at hltN
          omega
        · omega
    · have hpos : 0 < (p.sz + n).toNat := Nat.pos_of_ne_zero fun he => hz (BitVec.eq_of_toNat_eq he)
      rw [if_neg hz, setSize_eq h.kstack (hback.page ▸ h.page)]
      refine iff_of_true ⟨?_, ?_, h.resized_shrink hup hback⟩ (.inr (by omega))
      · dsimp only
        omega
      · rw [BitVec.lt_def]
        have : kernBase.toNat = 0x80000000 := rfl
        dsimp only
        omega

end Growable

/-- **When `sbrk` is exact**: a call of `growproc` returns and keeps its promise exactly if it does
not shrink the process to nothing or below, and no page it would grow over is mapped. -/
theorem growproc_exact_iff (k : Kmem) (p : Proc) (n : Word) (h : Growable k p) :
    GrowExact k p n ↔ GrowSafe p n := by
  unfold GrowSafe
  rcases lt_trichotomy n.toInt 0 with hn | hn | hn
  · rw [h.exact_shrink hn]
    simp only [hn, hn.ne, hn.not_gt, true_and, false_and, false_or]
  · refine iff_of_true ?_ (.inl hn)
    unfold GrowExact growproc
    rw [if_neg (by omega), if_neg (by omega), setSize_eq h.kstack h.page]
    refine ⟨by rw [hn, Int.add_zero], ?_, h.resized_self⟩
    have hle := h.upPage_le
    have : kernBase.toNat = 0x80000000 := rfl
    unfold upPage at hle
    rw [BitVec.lt_def]
    dsimp only
    omega
  · rw [h.exact_grow hn]
    simp only [hn, hn.ne', hn.not_gt, true_and, false_and, false_or, or_false]

/-- A process of one page with a page mapped at `MIN_ADDR`. -/
def Proc.onePage : Proc where
  __ := Proc.unused
  sz := 0x1000#32
  kstack := 0x8DFF5000#32
  state := .running
  pgdir :=
    ((((PgDir.empty 0x8DFF4000#32).addTab 0 0x8DFF3000#32).addTab 0x180 0x8DFF2000#32).setEntry 0
      (userEntry 0x8DFF1000#32)).setEntry 0x60000 (userEntry 0x8DFF0000#32)

theorem Proc.onePage_entry (n : Nat) :
    Proc.onePage.pgdir.entry n =
      if n = 0 then userEntry 0x8DFF1000#32
      else if n = 0x60000 then userEntry 0x8DFF0000#32 else 0#32 := by
  unfold Proc.onePage
  dsimp only
  by_cases hm : n = 0x60000
  · rw [hm, PgDir.entry_setEntry_self rfl]
    rfl
  · rw [PgDir.entry_setEntry_of_ne hm, if_neg hm]
    by_cases hn : n = 0
    · rw [hn, PgDir.entry_setEntry_self rfl]
      rfl
    · rw [PgDir.entry_setEntry_of_ne hn, if_neg hn, PgDir.entry_addTab rfl, PgDir.entry_addTab rfl]
      rfl

theorem Proc.onePage_present {n : Nat} :
    present (Proc.onePage.pgdir.entry n) = true ↔ n = 0 ∨ n = 0x60000 := by
  rw [Proc.onePage_entry]
  split
  · exact iff_of_true (present_userEntry _) (.inl (by assumption))
  · split
    · exact iff_of_true (present_userEntry _) (.inr (by assumption))
    · rw [present_zero]
      exact iff_of_false Bool.false_ne_true (by omega)

theorem Proc.onePage_growable : Growable (Kmem.initial 2) Proc.onePage where
  linked := KernelImage.sample_linked
  sound := Kmem.initial_sound (by decide)
  nodup := Kmem.initial_nodup (by decide)
  kstack := by decide
  page := by decide
  isPage n _ h := by
    rcases Proc.onePage_present.mp h with rfl | rfl
    · decide
    · decide
  below n := by
    rw [Proc.onePage_present, show upPage Proc.onePage.sz = 1 from rfl]
    omega

/-- Giving back half of the only page is exact. -/
theorem growproc_exact_iff_half : GrowExact (Kmem.initial 2) Proc.onePage 0xFFFFF800#32 :=
  (growproc_exact_iff (Kmem.initial 2) Proc.onePage 0xFFFFF800#32 Proc.onePage_growable).mpr
    (.inr (.inr ⟨by decide, .inr (by decide)⟩))

/-- Three calls that are not: `sbrk(-4096)` frees the only page and reports a failure,
`sbrk(-8192)` reports success and does nothing, and `sbrk(0x60000000)` fails for lack of memory and
frees the page at `MIN_ADDR`. -/
theorem growproc_not_exact :
    ¬ GrowExact (Kmem.initial 2) Proc.onePage 0xFFFFF000#32 ∧
    ¬ GrowExact (Kmem.initial 2) Proc.onePage 0xFFFFE000#32 ∧
    ¬ GrowExact (Kmem.initial 2) Proc.onePage 0x60000000#32 := by
  refine ⟨fun h => absurd (h.2 0) (by decide), fun h => absurd h.1 (by decide), ?_⟩
  rw [Proc.onePage_growable.exact_grow (n := 0x60000000#32) (by decide)]
  rintro (hbase | habs)
  · exact absurd hbase (by decide)
  · exact absurd (habs 0x60000 (by decide) (by decide)) (by decide)

end Xv6Mmap
