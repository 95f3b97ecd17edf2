import Xv6Mmap.Progress

/-!
# What a page table stands for (`vm.c:33-81`)

A two-level page table is a finite map from virtual pages to physical pages with flags:
`PgDir.translate`. Mapping a range is an update of that map, with as many pages taken from the
allocator as the range lacks page tables (`PgDir.missing`).

**`mappages_refines_map`**: `mappages` is the update of the map, for every range that does not wrap,
up to the last page of the address space.
-/

namespace Xv6Mmap

/-! ## `mappages` as an update of a map -/

/-- The two-level translation of virtual page `n`: the physical address and the flags. -/
def PgDir.translate (d : PgDir) (n : Nat) : Option (Word × Word) :=
  if present (d.entry n) then some (pteAddr (d.entry n), pteFlags (d.entry n)) else none

/-- The last page of a range. -/
def lastPage (va size : Word) : Nat := (va.toNat + size.toNat - 1) / 4096

theorem and_fff_of_lt {x : Word} (hx : x.toNat < 4096) : x &&& 0xFFF#32 = x := by
  apply BitVec.eq_of_toNat_eq
  rw [BitVec.toNat_and, show (0xFFF#32 : Word).toNat = 2 ^ 12 - 1 from rfl,
    Nat.and_two_pow_sub_one_eq_mod]
  exact Nat.mod_eq_of_lt hx

theorem pteFlags_or {pa perm : Word} (hpa : pa.toNat % 4096 = 0) (hperm : perm.toNat < 4096) :
    pteFlags (pa ||| perm ||| pteP) = perm ||| pteP := by
  have hzero : pa &&& 0xFFF#32 = 0#32 := by
    apply BitVec.eq_of_toNat_eq
    rw [BitVec.toNat_and, show (0xFFF#32 : Word).toNat = 2 ^ 12 - 1 from rfl,
      Nat.and_two_pow_sub_one_eq_mod]
    exact hpa
  unfold pteFlags
  rw [BitVec.and_or_distrib_right, BitVec.and_or_distrib_right, hzero, and_fff_of_lt hperm,
    and_fff_of_lt (by decide), BitVec.zero_or]

theorem PgDir.translate_of_entry {d : PgDir} {n : Nat} {pa perm : Word}
    (he : d.entry n = pa ||| perm ||| pteP) (hpa : pa.toNat % 4096 = 0) (hperm : perm.toNat < 4096) :
    d.translate n = some (pa, perm ||| pteP) := by
  unfold PgDir.translate
  rw [he, if_pos (present_or pa perm), pteAddr_or hpa hperm, pteFlags_or hpa hperm]

theorem PgDir.translate_congr {d d' : PgDir} {n : Nat} (he : d'.entry n = d.entry n) :
    d'.translate n = d.translate n := by
  unfold PgDir.translate
  rw [he]

theorem PgDir.isSome_translate (d : PgDir) (n : Nat) :
    (d.translate n).isSome = present (d.entry n) := by
  unfold PgDir.translate
  split
  · rename_i hp
    exact hp.symm
  · rename_i hp
    exact (Bool.not_eq_true _ ▸ hp).symm

theorem aligned_add_pages {pa : Word} (hpa : pa.toNat % 4096 = 0) (i : Nat) :
    (pa + BitVec.ofNat 32 (4096 * i)).toNat % 4096 = 0 := by
  rw [BitVec.toNat_add, BitVec.toNat_ofNat]
  omega

/-- **`mappages` refines a finite map**: it ends with `0`, the pages of the range are mapped one
after another from `pa` on with the flags `perm | PTE_P`, and no other translation changes. -/
theorem mappages_refines_map (k : Kmem) (d : PgDir) (va size pa perm : Word)
    (hsize : 1 ≤ size.toNat) (hend : va.toNat + size.toNat ≤ 2 ^ 32) (hpa : pa.toNat % 4096 = 0)
    (hperm : perm.toNat < 4096)
    (hfree : ∀ n, vpn va ≤ n → n ≤ lastPage va size → present (d.entry n) = false)
    (hroom : d.missing (vpn va) (lastPage va size + 1) ≤ k.freelist.length) :
    ∃ k' d', mappages k d va size pa perm = .ok (true, k', d') ∧
      ∀ n, d'.translate n =
        if vpn va ≤ n ∧ n ≤ lastPage va size then
          some (pa + BitVec.ofNat 32 (4096 * (n - vpn va)), perm ||| pteP)
        else d.translate n := by
  have hlast : (pgRoundDown (va + size - 1#32)).toNat = 4096 * lastPage va size := by
    have htop : (va + size - 1#32).toNat = va.toNat + size.toNat - 1 := by bv_omega
    rw [pgRoundDown_toNat, htop, lastPage, Nat.mul_comm]
  have hfirst : (pgRoundDown va).toNat = 4096 * vpn va := by
    rw [pgRoundDown_toNat, vpn, Nat.mul_comm]
  have hvpn : vpn (pgRoundDown va) = vpn va := by
    rw [vpn, hfirst]
    omega
  obtain ⟨j, hj⟩ : ∃ j, lastPage va size = vpn va + j := by
    refine ⟨lastPage va size - vpn va, ?_⟩
    unfold lastPage vpn
    omega
  have hlt := (pgRoundDown (va + size - 1#32)).isLt
  obtain ⟨k', d', hloop, -, hmapped⟩ := @mapLoop_took (pgRoundDown (va + size - 1#32)) perm j
    1048576 k d (pgRoundDown va) pa (by omega) (by omega) (by omega)
    (fun i hi => hfree _ (by omega) (by omega)) (by rw [hvpn, ← hj]; exact hroom)
  rw [hvpn] at hmapped
  refine ⟨k', d', hloop, fun n => ?_⟩
  split
  case isTrue hn =>
    have hin := hmapped.inside (n - vpn va) (by omega)
    rw [show vpn va + (n - vpn va) = n by omega] at hin
    exact PgDir.translate_of_entry hin (aligned_add_pages hpa _) hperm
  case isFalse hn => exact PgDir.translate_congr (hmapped.outside n (by omega))

/-- A range from the middle of a page to the top of the address space. -/
theorem mappages_refines_map_top :
    ∃ k' d', mappages (Kmem.initial 1) (PgDir.empty 0#32) 0xFFFFEFFF#32 0x1001#32 0x5000#32 pteW
        = .ok (true, k', d') ∧
      ∀ n, d'.translate n =
        if vpn 0xFFFFEFFF#32 ≤ n ∧ n ≤ lastPage 0xFFFFEFFF#32 0x1001#32 then
          some (0x5000#32 + BitVec.ofNat 32 (4096 * (n - vpn 0xFFFFEFFF#32)), pteW ||| pteP)
        else (PgDir.empty 0#32).translate n :=
  mappages_refines_map (Kmem.initial 1) (PgDir.empty 0#32) 0xFFFFEFFF#32 0x1001#32 0x5000#32 pteW
    (by decide) (by decide) (by decide) (by decide)
    (fun n _ _ => by rw [PgDir.entry_empty, present_zero]) (by decide)

end Xv6Mmap
