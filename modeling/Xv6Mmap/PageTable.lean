import Xv6Mmap.Vm

/-!
# Page table lemmas

What the loops of `vm.c` do, one lemma a function: which entries they write, which tables they add.

* `PgDir.entry_setEntry` and `PgDir.entry_addTab` are the two ways a directory changes.
* `walkpgdir_ends` and `mappages_page`: a walk finds a table or adds an empty one; mapping one
  aligned page writes one entry. Nothing later unfolds `walkpgdir` or the loop of `mappages`.
-/

namespace Xv6Mmap

open Function (update update_self update_of_ne)

/-! ## Entries -/

namespace PgDir

/-- A directory with an empty table at index `i`. -/
def addTab (d : PgDir) (i : Nat) (page : Word) : PgDir :=
  { d with pde := update d.pde i (some ⟨page, fun _ => 0#32⟩) }

variable {d : PgDir} {n m : Nat} {w : Word}

theorem entry_empty (page : Word) (n : Nat) : (PgDir.empty page).entry n = 0#32 := rfl

theorem entry_of_not_hasTab (h : d.hasTab n = false) : d.entry n = 0#32 := by
  unfold hasTab at h
  unfold entry
  rw [Option.isSome_eq_false_iff, Option.isNone_iff_eq_none] at h
  rw [h]

theorem hasTab_of_present (h : present (d.entry n) = true) : d.hasTab n = true := by
  by_contra hn
  rw [Bool.not_eq_true] at hn
  rw [entry_of_not_hasTab hn, present_zero] at h
  cases h

theorem hasTab_congr (h : n / 1024 = m / 1024) : d.hasTab n = d.hasTab m := by
  unfold hasTab
  rw [h]

theorem entry_setEntry_self (h : d.hasTab n = true) : (d.setEntry n w).entry n = w := by
  unfold hasTab at h
  obtain ⟨t, ht⟩ := Option.isSome_iff_exists.mp h
  simp only [setEntry, ht, entry, update_self]

theorem entry_setEntry_of_ne (h : m ≠ n) : (d.setEntry n w).entry m = d.entry m := by
  unfold setEntry
  cases ht : d.pde (n / 1024) with
  | none => rfl
  | some t =>
    unfold entry
    by_cases hi : m / 1024 = n / 1024
    · have hne : m % 1024 ≠ n % 1024 := by omega
      simp only [hi, update_self, ht, update_of_ne hne]
    · simp only [update_of_ne hi]

theorem hasTab_setEntry : (d.setEntry n w).hasTab m = d.hasTab m := by
  unfold setEntry hasTab
  cases ht : d.pde (n / 1024) with
  | none => rfl
  | some t =>
    by_cases hi : m / 1024 = n / 1024
    · simp only [hi, update_self, ht, Option.isSome_some]
    · simp only [update_of_ne hi]

theorem tabPage_setEntry (i : Nat) :
    ((d.setEntry n w).pde i).map PgTab.page = (d.pde i).map PgTab.page := by
  unfold setEntry
  cases ht : d.pde (n / 1024) with
  | none => rfl
  | some t =>
    by_cases hi : i = n / 1024
    · subst hi
      simp only [update_self, ht, Option.map_some]
    · simp only [update_of_ne hi]

theorem page_setEntry : (d.setEntry n w).page = d.page := by
  unfold setEntry
  split <;> rfl

theorem entry_addTab {i : Nat} {page : Word} (h : d.pde i = none) :
    (d.addTab i page).entry n = d.entry n := by
  unfold addTab entry
  by_cases hi : n / 1024 = i
  · subst hi
    simp only [update_self, h]
  · simp only [update_of_ne hi]

theorem hasTab_addTab {i : Nat} {page : Word} :
    (d.addTab i page).hasTab n = (decide (n / 1024 = i) || d.hasTab n) := by
  unfold addTab hasTab
  by_cases hi : n / 1024 = i
  · subst hi
    simp only [update_self, Option.isSome_some, decide_true, Bool.true_or]
  · simp only [update_of_ne hi, hi, decide_false, Bool.false_or]

end PgDir

/-! ## `walkpgdir` -/

variable {k k' : Kmem}

theorem kalloc_eq_some {who : Caller} {v : Word} (h : kalloc k who = some (v, k')) :
    ∃ rest, k.freelist = v :: rest ∧
      k' = { k with freelist := rest, log := .alloc v who :: k.log } := by
  unfold kalloc at h
  cases hf : k.freelist with
  | nil => simp [hf] at h
  | cons p rest =>
    simp only [hf, Option.some.injEq, Prod.mk.injEq] at h
    obtain ⟨rfl, rfl⟩ := h
    exact ⟨rest, rfl, rfl⟩

theorem kalloc_eq_none {who : Caller} (h : kalloc k who = none) : k.freelist = [] := by
  unfold kalloc at h
  split at h
  · assumption
  · cases h

theorem kfree_eq_ok {v : Word} (h : kfree k v = .ok k') :
    k.image.isPage v = true ∧
      k' = { k.memset v 1#8 with freelist := v :: k.freelist, log := .free v :: k.log } := by
  unfold kfree at h
  split at h
  · rename_i hp
    cases h
    exact ⟨hp, rfl⟩
  · cases h

/-- A walk with `alloc` set: the table is there, or there is no page for it, or it is added. -/
inductive WalkEnds (k : Kmem) (d : PgDir) (va : Word) : Bool → Kmem → PgDir → Prop
  | found (htab : d.hasTab (vpn va) = true) : WalkEnds k d va true k d
  | full (hnone : d.pde (vpn va / 1024) = none) (ha : kalloc k .pgtab = none) :
      WalkEnds k d va false k d
  | added (page : Word) (k1 : Kmem) (hnone : d.pde (vpn va / 1024) = none)
      (ha : kalloc k .pgtab = some (page, k1)) :
      WalkEnds k d va true (k1.memset page 0#8) (d.addTab (vpn va / 1024) page)

variable {d' : PgDir} {va : Word}

theorem walkpgdir_ends {d : PgDir} {b : Bool} (h : walkpgdir k d va true = (b, k', d')) :
    WalkEnds k d va b k' d' := by
  unfold walkpgdir at h
  rw [pdx_eq] at h
  cases ht : d.pde (vpn va / 1024) with
  | some t =>
    rw [ht] at h
    cases h
    exact .found (by rw [PgDir.hasTab, ht]; rfl)
  | none =>
    rw [ht] at h
    cases ha : kalloc k .pgtab with
    | none =>
      rw [ha] at h
      cases h
      exact .full ht ha
    | some r =>
      rw [ha] at h
      cases h
      exact .added r.1 r.2 ht ha

/-- A walk maps nothing, and leaves a table if it returns a pointer. -/
theorem walkpgdir_entry {d : PgDir} {b : Bool} (h : walkpgdir k d va true = (b, k', d')) :
    (∀ n, d'.entry n = d.entry n) ∧ (b = true → d'.hasTab (vpn va) = true) := by
  cases walkpgdir_ends h with
  | found htab => exact ⟨fun _ => rfl, fun _ => htab⟩
  | full => exact ⟨fun _ => rfl, nofun⟩
  | added page k1 hnone =>
    refine ⟨fun _ => PgDir.entry_addTab hnone, fun _ => ?_⟩
    rw [PgDir.hasTab_addTab, decide_eq_true rfl, Bool.true_or]

theorem walkpgdir_lookup (k : Kmem) (d : PgDir) (va : Word) :
    walkpgdir k d va false = (d.hasTab (vpn va), k, d) := by
  unfold walkpgdir PgDir.hasTab
  rw [pdx_eq]
  cases d.pde (vpn va / 1024) with
  | some t => rfl
  | none => rfl

/-! ## `mappages` -/

theorem mapLoop_succ (last perm : Word) (fuel : Nat) (k : Kmem) (d : PgDir) (a pa : Word) :
    mapLoop last perm (fuel + 1) k d a pa =
      match walkpgdir k d a true with
      | (false, k, d) => .ok (false, k, d)
      | (true, k, d) =>
        if present (d.entry (vpn a)) then .error (.panic "remap")
        else if a = last then .ok (true, k, d.setEntry (vpn a) (pa ||| perm ||| pteP))
        else mapLoop last perm fuel k (d.setEntry (vpn a) (pa ||| perm ||| pteP)) (a + pgSize)
          (pa + pgSize) := by
  rfl

theorem pgRoundDown_of_aligned (h : va.toNat % 4096 = 0) : pgRoundDown va = va := by
  apply BitVec.eq_of_toNat_eq
  rw [pgRoundDown_toNat]
  omega

theorem mappages_page (h : va.toNat % 4096 = 0) (k : Kmem) (d : PgDir) (pa perm : Word) :
    mappages k d va pgSize pa perm =
      match walkpgdir k d va true with
      | (false, k, d) => .ok (false, k, d)
      | (true, k, d) =>
        if present (d.entry (vpn va)) then .error (.panic "remap")
        else .ok (true, k, d.setEntry (vpn va) (pa ||| perm ||| pteP)) := by
  have hlast : pgRoundDown (va + pgSize - 1#32) = va := by
    have := va.isLt
    have hend : (va + pgSize - 1#32).toNat = va.toNat + 4095 := by
      unfold pgSize
      bv_omega
    apply BitVec.eq_of_toNat_eq
    rw [pgRoundDown_toNat, hend]
    omega
  unfold mappages
  rw [hlast, pgRoundDown_of_aligned h, mapLoop_succ]
  simp only [if_true]

/-- Mapping one aligned page, from its result: the walk, and one entry if there is a table. -/
theorem mappages_page_cases {pa perm : Word} {d : PgDir} {b : Bool} (hal : va.toNat % 4096 = 0)
    (h : mappages k d va pgSize pa perm = .ok (b, k', d')) :
    ∃ d1, walkpgdir k d va true = (b, k', d1) ∧
      ((b = false ∧ d' = d1) ∨
        (b = true ∧ present (d1.entry (vpn va)) = false ∧
          d' = d1.setEntry (vpn va) (pa ||| perm ||| pteP))) := by
  rw [mappages_page hal] at h
  rcases hw : walkpgdir k d va true with ⟨w, k1, d1⟩
  rw [hw] at h
  cases w with
  | false =>
    cases h
    exact ⟨_, rfl, .inl ⟨rfl, rfl⟩⟩
  | true =>
    dsimp only at h
    by_cases hp : present (d1.entry (vpn va)) = true
    · rw [if_pos hp] at h
      cases h
    · rw [if_neg hp] at h
      cases h
      exact ⟨d1, rfl, .inr ⟨rfl, Bool.not_eq_true _ ▸ hp, rfl⟩⟩

/-- What `kfree` is given for an entry. -/
def physPage (pte : Word) : Word := p2v (pteAddr pte)

/-! ## `copyuvm` -/

theorem copyLoop_cases {pgdir d : PgDir} {sz i : Word} {fuel : Nat} {o : Option PgDir}
    (h : copyLoop pgdir sz (fuel + 1) k d i = .ok (o, k')) :
    (¬ i < sz ∧ o = some d ∧ k' = k) ∨
      i < sz ∧
        ((kalloc k .user = none ∧ o = none ∧ freevm k d = .ok k') ∨
          ∃ mem k1 mapped k2 d2, kalloc k .user = some (mem, k1) ∧
            mappages (k1.memmove mem (p2v (pteAddr (pgdir.entry (vpn i))))) d i pgSize (v2p mem)
              (pteFlags (pgdir.entry (vpn i))) = .ok (mapped, k2, d2) ∧
            ((mapped = true ∧ copyLoop pgdir sz fuel k2 d2 (i + pgSize) = .ok (o, k')) ∨
              (mapped = false ∧ o = none ∧
                ∃ k3, kfree k2 mem = .ok k3 ∧ freevm k3 d2 = .ok k'))) := by
  rw [copyLoop] at h
  by_cases hlt : i < sz
  · rw [if_pos hlt] at h
    refine .inr ⟨hlt, ?_⟩
    split at h
    · dsimp only at h
      split at h
      · rcases ha : kalloc k .user with _ | ⟨mem, k1⟩ <;> rw [ha] at h <;> dsimp only at h
        · rcases hf : freevm k d with _ | k1 <;> rw [hf] at h <;> cases h
          exact .inl ⟨rfl, rfl, rfl⟩
        · rcases hmap : mappages (k1.memmove mem (p2v (pteAddr (pgdir.entry (vpn i))))) d i pgSize
              (v2p mem) (pteFlags (pgdir.entry (vpn i))) with _ | ⟨_ | _, k2, d2⟩ <;>
            rw [hmap] at h
          · cases h
          · dsimp only at h
            rcases hf : kfree k2 mem with _ | k3 <;> rw [hf] at h
            · cases h
            dsimp only at h
            rcases hv : freevm k3 d2 with _ | k4 <;> rw [hv] at h <;> cases h
            exact .inr ⟨mem, k1, false, k2, d2, rfl, hmap, .inr ⟨rfl, rfl, k3, hf, hv⟩⟩
          · exact .inr ⟨mem, k1, true, k2, d2, rfl, hmap, .inl ⟨rfl, h⟩⟩
      · cases h
    · cases h
  · rw [if_neg hlt] at h
    cases h
    exact .inl ⟨hlt, rfl, rfl⟩

end Xv6Mmap
