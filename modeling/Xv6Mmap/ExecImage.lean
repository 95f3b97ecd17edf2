import Xv6Mmap.CopyUvm
import Xv6Mmap.Exec
import Xv6Mmap.FsInode

/-!
# What `exec` loads (`exec.c:32-69`)

The addresses and sizes of the segments come from the file. What makes loading them safe is that
`allocuvm` keeps all of `[0, sz)` mapped, whatever the order of the segments, and that a segment lies
below the `sz` that `allocuvm` returned for it. Nothing above can be mapped twice, since there is
less physical memory than there are pages below `MIN_ADDR` (`Kmem.Sound.length_le`).

* `Image` is the state of the new address space with its first `c` pages mapped, on top of the
  account of `Account.lean`.
* `allocLoop_image`, `loaduvmLoop_loads`, `loadSegments_loads`: what one turn of each loop keeps, and
  what the loop keeps.
* **`exec_loads_safely`**: for every content of a file and every amount of free memory.
-/

namespace Xv6Mmap

open Lib

/-! ## The account, page by page -/

section Account

variable {k₀ k k' : Kmem} {hand : Multiset Word} {d : PgDir} {n : Nat} {w : Word}

theorem PgDir.held_unmap (hn : n < 0x60000) (hp : present (d.entry n) = true) :
    d.held = {physPage (d.entry n)} + (d.setEntry n 0#32).held := by
  have huser : d.userPages = {physPage (d.entry n)} + (d.setEntry n 0#32).userPages := by
    unfold PgDir.userPages
    refine holdings_gain (Finset.mem_range.mpr hn)
      (fun m _ hm => (PgDir.userAt_congr (PgDir.entry_setEntry_of_ne hm)).symm) ?_
    have hself : (d.setEntry n 0#32).entry n = 0#32 :=
      PgDir.entry_setEntry_self (PgDir.hasTab_of_present hp)
    rw [PgDir.userAt_of_present hp, PgDir.userAt_of_absent (by rw [hself, present_zero]), add_zero]
  unfold PgDir.held
  rw [huser, PgDir.page_setEntry, PgDir.tabPages_congr PgDir.tabPage_setEntry]
  abel

theorem PgDir.held_setFlags (hp : present (d.entry n) = true) (hw : present w = true)
    (hphys : physPage w = physPage (d.entry n)) : (d.setEntry n w).held = d.held := by
  have huser : (d.setEntry n w).userPages = d.userPages := by
    unfold PgDir.userPages
    refine holdings_congr fun m _ => ?_
    by_cases hm : m = n
    · have hself : (d.setEntry n w).entry n = w :=
        PgDir.entry_setEntry_self (PgDir.hasTab_of_present hp)
      rw [hm, PgDir.userAt_of_present hp, PgDir.userAt_of_present (by rw [hself]; exact hw), hself,
        hphys]
    · exact PgDir.userAt_congr (PgDir.entry_setEntry_of_ne hm)
  unfold PgDir.held
  rw [huser, PgDir.page_setEntry, PgDir.tabPages_congr PgDir.tabPage_setEntry]

theorem Builds.unmap (h : Builds k₀ hand k d) (hn : n < 0x60000) (hp : present (d.entry n) = true)
    (hf : kfree k (physPage (d.entry n)) = .ok k') : Builds k₀ hand k' (d.setEntry n 0#32) := by
  refine Builds.giveBack ⟨h.image, ?_, h.bytes⟩ hf
  rw [h.pages, PgDir.held_unmap hn hp]
  abel

theorem Builds.setFlags (h : Builds k₀ hand k d) (hp : present (d.entry n) = true)
    (hw : present w = true) (hphys : physPage w = physPage (d.entry n)) :
    Builds k₀ hand k (d.setEntry n w) :=
  ⟨h.image, by rw [PgDir.held_setFlags hp hw hphys]; exact h.pages, h.bytes⟩

theorem Builds.isPage (h : Builds k₀ hand k d) (hk : k₀.Sound) (hn : n < 0x60000)
    (hp : present (d.entry n) = true) : k₀.image.isPage (physPage (d.entry n)) = true :=
  hk _ (h.mem_of_held (PgDir.mem_held.mpr
    (.inr (.inr (PgDir.mem_userPages.mpr ⟨n, hn, hp, rfl⟩)))))

theorem Builds.deallocEach (him : k₀.image.Linked) (hk : k₀.Sound) :
    ∀ {m p : Nat} {k : Kmem} {d : PgDir}, Builds k₀ hand k d →
      (∀ q, p ≤ q → q < p + m → present (d.entry q) = true → q < 0x60000) →
      ∃ k' d', deallocEach m k d p = .ok (k', d') ∧ Builds k₀ hand k' d'
  | 0, p, k, d, h, _ => ⟨k, d, rfl, h⟩
  | m + 1, p, k, d, h, hlow => by
    rw [Xv6Mmap.deallocEach]
    split
    case isFalse => exact h.deallocEach him hk fun q hq hlt => hlow q (by omega) (by omega)
    case isTrue hp =>
      have hpage := h.isPage hk (hlow p le_rfl (by omega) hp) hp
      have hf : kfree k (physPage (d.entry p)) = .ok _ := if_pos (by rw [h.image]; exact hpage)
      rw [if_neg (him.ne_zero hpage), show p2v (pteAddr (d.entry p)) = physPage (d.entry p) from rfl,
        hf]
      refine (h.unmap (hlow p le_rfl (by omega) hp) hp hf).deallocEach him hk fun q hq hlt hpres => ?_
      rw [PgDir.entry_setEntry_of_ne (by omega)] at hpres
      exact hlow q (by omega) (by omega) hpres

theorem Builds.deallocuvm {oldsz newsz : Word} (h : Builds k₀ hand k d) (him : k₀.image.Linked)
    (hk : k₀.Sound) (hsz : oldsz.toNat ≤ 0x80000000) (hle : newsz ≤ oldsz)
    (hlow : ∀ q < upPage oldsz, present (d.entry q) = true → q < 0x60000) :
    ∃ k' d', deallocuvm k d oldsz newsz = .ok (newsz, k', d') ∧ Builds k₀ hand k' d' := by
  obtain ⟨k', d', heach, hb⟩ := h.deallocEach him hk (m := upPage oldsz - upPage newsz)
    (p := upPage newsz) fun q hq hlt hp => hlow q (by omega) hp
  refine ⟨k', d', ?_, hb⟩
  rw [deallocuvm_eq_each hsz hle, heach]

theorem Kmem.Sound.length_le (hk : k.Sound) (hnd : k.freelist.Nodup) (him : k.image.Linked) :
    k.freelist.length ≤ 57344 := by
  have hpage : ∀ v ∈ k.freelist, v.toNat % 4096 = 0 ∧ 0x80000000 ≤ v.toNat ∧
      v.toNat < 0x8E000000 := fun v hv => by
    have hv := hk v hv
    have hb := him.bounds
    simp only [KernelImage.isPage, Bool.and_eq_true, decide_eq_true_eq, BitVec.le_def,
      BitVec.lt_def] at hv
    have hlt := hv.2
    have hvN := v.isLt
    unfold v2p kernBase phystop at hlt
    rw [BitVec.toNat_sub] at hlt
    change (2 ^ 32 - 0x80000000 + v.toNat) % 2 ^ 32 < 0xE000000 at hlt
    omega
  have hinj : Set.InjOn (fun v : Word => v.toNat / 4096 - 0x80000) (k.freelist.toFinset : Set Word) := by
    intro v hv w hw he
    have hv := hpage v (List.mem_toFinset.mp hv)
    have hw := hpage w (List.mem_toFinset.mp hw)
    have he : v.toNat / 4096 - 0x80000 = w.toNat / 4096 - 0x80000 := he
    exact BitVec.eq_of_toNat_eq (by omega)
  rw [← List.toFinset_card_of_nodup hnd, ← Finset.card_range 57344]
  refine Finset.card_le_card_of_injOn _ (fun v hv => ?_) hinj
  have hv := hpage v (List.mem_toFinset.mp hv)
  exact Finset.mem_coe.mpr (Finset.mem_range.mpr (by omega))

end Account

/-! ## The new address space -/

/-- The first `c` pages are user pages, the others are as `setupkvm` left them. -/
structure Image (k₀ : Kmem) (c : Nat) (k : Kmem) (d : PgDir) : Prop where
  builds : Builds k₀ 0 k d
  user : ∀ n < c, d.entry n = userEntry (physPage (d.entry n))
  rest : ∀ n, c ≤ n → d.translate n = kernelMap k₀.image n
  few : c ≤ 0x60000

section Image

variable {k₀ k : Kmem} {d : PgDir} {c : Nat} {oldsz newsz : Word}

theorem Image.present_iff (h : Image k₀ c k d) (him : k₀.image.Linked) {n : Nat}
    (hn : n < 0x80000) : present (d.entry n) = true ↔ n < c := by
  by_cases hc : n < c
  · rw [h.user n hc]
    exact iff_of_true (present_or _ _) hc
  · have := h.rest n (by omega)
    rw [kernelMap_user him hn, PgDir.translate_eq_none] at this
    rw [this]
    exact iff_of_false Bool.false_ne_true hc

theorem Image.present (h : Image k₀ c k d) {n : Nat} (hn : n < c) : present (d.entry n) = true := by
  rw [h.user n hn]
  exact present_or _ _

theorem Image.count (h : Image k₀ c k d) (him : k₀.image.Linked) (hk : k₀.Sound)
    (hnd : k₀.freelist.Nodup) : c ≤ 57344 := by
  have hlen := h.builds.length
  have huser : d.userCount = c := PgDir.userCount_of_iff h.few fun n hn =>
    h.present_iff him (by omega)
  have := hk.length_le hnd him
  omega

theorem Image.held (h : Image k₀ c k d) {n : Nat} (hn : n < c) :
    physPage (d.entry n) ∈ k₀.freelist := by
  have := h.few
  exact h.builds.mem_of_held (PgDir.mem_held.mpr (.inr (.inr
    (PgDir.mem_userPages.mpr ⟨n, by omega, h.present hn, rfl⟩))))

/-- One turn of the loop of `allocuvm`, with a page and a table for it. -/
theorem Image.snoc {k1 k2 : Kmem} {d2 : PgDir} {mem va : Word} (h : Image k₀ c k d)
    (him : k₀.image.Linked) (hk : k₀.Sound) (hnd : k₀.freelist.Nodup)
    (ha : kalloc k .user = some (mem, k1))
    (hw : walkpgdir (k1.memset mem 0#8) d va true = (true, k2, d2)) (hwalked : d.Walked d2 c) :
    Image k₀ (c + 1) k2 (d2.setEntry c (userEntry mem)) := by
  have hc := h.count him hk hnd
  have hmem : mem ∈ k₀.freelist := h.builds.mem_of_kalloc ha
  have hphys : physPage (userEntry mem) = mem :=
    physPage_userEntry (KernelImage.aligned_of_isPage (hk _ hmem))
  have habs : Xv6Mmap.present (d2.entry c) = false := by
    rw [hwalked.entry, ← Bool.not_eq_true, h.present_iff him (by omega)]
    omega
  have hb : Builds k₀ ({mem} + 0) k2 d2 := ((h.builds.take ha).write hmem _).walk hw
  have hself : (d2.setEntry c (userEntry mem)).entry c = userEntry mem :=
    PgDir.entry_setEntry_self hwalked.hasTab
  have hother : ∀ n, n ≠ c → (d2.setEntry c (userEntry mem)).entry n = d.entry n := fun n hn => by
    rw [PgDir.entry_setEntry_of_ne hn, hwalked.entry]
  refine ⟨?_, fun n hn => ?_, fun n hn => ?_, by omega⟩
  · exact Builds.setEntry_user (by rw [hphys]; exact hb) (by omega) hwalked.hasTab habs
      (present_or _ _)
  · by_cases he : n = c
    · rw [he, hself, hphys]
    · rw [hother n he]
      exact h.user n (by omega)
  · rw [PgDir.translate_congr (hother n (by omega))]
    exact h.rest n (by omega)

theorem allocLoop_image (him : k₀.image.Linked) (hk : k₀.Sound) (hnd : k₀.freelist.Nodup)
    (hle : oldsz ≤ newsz) (hlt : newsz < kernBase) :
    ∀ (j fuel : Nat) {k : Kmem} {d : PgDir} {a : Word}, j < fuel → a.toNat % 4096 = 0 →
      vpn a + j = upPage newsz → Image k₀ (vpn a) k d →
      (∃ k' d', allocLoop oldsz newsz fuel k d a = .ok (newsz, k', d') ∧
        Image k₀ (upPage newsz) k' d') ∨
      ∃ k' d', allocLoop oldsz newsz fuel k d a = .ok (0#32, k', d') ∧ Builds k₀ 0 k' d' := by
  have hltN : newsz.toNat < 0x80000000 := BitVec.lt_def.mp hlt
  have hup := upPage_le (Nat.le_of_lt hltN)
  intro j
  induction j with
  | zero =>
    intro fuel k d a hfuel hal hend h
    obtain ⟨fuel, rfl⟩ : ∃ f, fuel = f + 1 := ⟨fuel - 1, by omega⟩
    have hstop : ¬ a < newsz := (lt_iff_vpn_lt hal).not.mpr (by omega)
    refine .inl ⟨k, d, ?_, by rwa [← hend, Nat.add_zero]⟩
    rw [allocLoop, if_neg hstop]
  | succ j ih =>
    intro fuel k d a hfuel hal hend h
    obtain ⟨fuel, rfl⟩ : ∃ f, fuel = f + 1 := ⟨fuel - 1, by omega⟩
    have hgo : a < newsz := (lt_iff_vpn_lt hal).mpr (by omega)
    have hgoN := BitVec.lt_def.mp hgo
    have hlow : ∀ q < upPage newsz, present (d.entry q) = true → q < 0x60000 := fun q hq hp => by
      have := (h.present_iff him (show q < 0x80000 by omega)).mp hp
      have := h.few
      omega
    rw [allocLoop, if_pos hgo]
    cases ha : kalloc k .user with
    | none =>
      obtain ⟨k', d', hde, hb⟩ := h.builds.deallocuvm him hk (Nat.le_of_lt hltN) hle hlow
      exact .inr ⟨k', d', by rw [hde], hb⟩
    | some r =>
      obtain ⟨mem, k1⟩ := r
      have hmem : mem ∈ k₀.freelist := h.builds.mem_of_kalloc ha
      have hb1 : Builds k₀ ({mem} + 0) (k1.memset mem 0#8) d := (h.builds.take ha).write hmem _
      dsimp only
      rw [mappages_page hal]
      rcases hb1.walk_cases a with ⟨k2, d2, hw, hb2, hwalked⟩ | ⟨hw, -, -⟩
      · have habs : present (d2.entry (vpn a)) = false := by
          rw [hwalked.entry, ← Bool.not_eq_true, h.present_iff him (by omega)]
          omega
        have hnext := toNat_add_pgSize (a := a) (by omega)
        have hvpn := vpn_add_pgSize (a := a) (by omega)
        have hsnoc := h.snoc him hk hnd ha hw hwalked
        rw [hw]
        simp only [habs, Bool.false_eq_true, if_false]
        exact ih fuel (by omega) (by omega) (by omega) (by rw [hvpn]; exact hsnoc)
      · -- no page for the table: the range is given back, then the data page
        rw [hw]
        dsimp only
        obtain ⟨k', d', hde, hb⟩ := hb1.deallocuvm him hk (Nat.le_of_lt hltN) hle hlow
        have hfree : kfree k' mem = .ok _ := if_pos (by rw [hb.image]; exact hk mem hmem)
        exact .inr ⟨_, d', by rw [hde]; dsimp only; rw [hfree], hb.giveBack hfree⟩

/-- `allocuvm` from the end of the image: all of `[0, r)` is mapped for the `r` it returns, the larger
of the two sizes; or it returns zero. -/
theorem allocuvm_image (him : k₀.image.Linked) (hk : k₀.Sound) (hnd : k₀.freelist.Nodup)
    (hold : oldsz < kernBase) (h : Image k₀ (upPage oldsz) k d) (newsz : Word) :
    ∃ r k' d', allocuvm k d oldsz newsz = .ok (r, k', d') ∧ Builds k₀ 0 k' d' ∧
      (r ≠ 0#32 → r.toNat = max oldsz.toNat newsz.toNat ∧ r < kernBase ∧
        Image k₀ (upPage r) k' d') := by
  have holdN : oldsz.toNat < 0x80000000 := BitVec.lt_def.mp hold
  unfold allocuvm
  by_cases hbig : kernBase ≤ newsz
  · rw [if_pos hbig]
    exact ⟨_, _, _, rfl, h.builds, fun hne => absurd rfl hne⟩
  rw [if_neg hbig]
  have hlt : newsz < kernBase := by rwa [BitVec.not_le] at hbig
  by_cases hless : newsz < oldsz
  · rw [if_pos hless]
    have := BitVec.lt_def.mp hless
    exact ⟨_, _, _, rfl, h.builds, fun _ => ⟨by omega, hold, h⟩⟩
  rw [if_neg hless]
  have hle : oldsz ≤ newsz := BitVec.not_lt.mp hless
  have hleN := BitVec.le_def.mp hle
  have hltN : newsz.toNat < 0x80000000 := BitVec.lt_def.mp hlt
  have hup := upPage_le (Nat.le_of_lt hltN)
  have hmono : upPage oldsz ≤ upPage newsz := by
    unfold upPage
    omega
  have hround := pgRoundUp_eq (Nat.le_of_lt holdN)
  have hvpn := vpn_pgRoundUp (Nat.le_of_lt holdN)
  rcases allocLoop_image him hk hnd hle hlt (upPage newsz - upPage oldsz) 1048577
      (a := pgRoundUp oldsz) (by omega) (by omega) (by omega) (by rw [hvpn]; exact h) with
    ⟨k', d', hloop, hi⟩ | ⟨k', d', hloop, hb⟩
  · exact ⟨_, _, _, hloop, hi.builds, fun _ => ⟨by omega, hlt, hi⟩⟩
  · exact ⟨_, _, _, hloop, hb, fun hne => absurd rfl hne⟩

end Image

theorem userEntry_clear {mem : Word} (h : mem.toNat % 4096 = 0) :
    userEntry mem &&& ~~~pteU = v2p mem ||| pteW ||| pteP := by
  have hself : v2p mem &&& ~~~0xFFF#32 = v2p mem := by
    apply BitVec.eq_of_toNat_eq
    rw [and_not_fff_toNat]
    have := v2p_aligned h
    omega
  unfold userEntry
  rw [← hself, BitVec.or_assoc, BitVec.and_or_distrib_right, BitVec.and_assoc, BitVec.or_assoc,
    show ~~~0xFFF#32 &&& ~~~pteU = ~~~0xFFF#32 by decide, BitVec.or_assoc]
  rfl

/-- The finished address space of `c` pages: page `c - 2` is inaccessible. -/
structure Stacked (k₀ : Kmem) (c : Nat) (k : Kmem) (d : PgDir) : Prop where
  builds : Builds k₀ 0 k d
  two : 2 ≤ c
  user : ∀ n < c, n ≠ c - 2 → d.entry n = userEntry (physPage (d.entry n))
  guard : present (d.entry (c - 2)) = true ∧ userPte (d.entry (c - 2)) = false
  rest : ∀ n, c ≤ n → d.translate n = kernelMap k₀.image n
  few : c ≤ 0x60000

theorem Image.stacked {k₀ k : Kmem} {c : Nat} {d : PgDir} (h : Image k₀ c k d) (hk : k₀.Sound)
    (hc : 2 ≤ c) :
    Stacked k₀ c k (d.setEntry (c - 2) (d.entry (c - 2) &&& ~~~pteU)) := by
  have hmem := KernelImage.aligned_of_isPage (hk _ (h.held (show c - 2 < c by omega)))
  have hw := h.user (c - 2) (by omega)
  have hp := h.present (show c - 2 < c by omega)
  have hclear : d.entry (c - 2) &&& ~~~pteU
      = v2p (physPage (d.entry (c - 2))) ||| pteW ||| pteP := by
    conv_lhs => rw [hw]
    exact userEntry_clear hmem
  have hself : (d.setEntry (c - 2) (d.entry (c - 2) &&& ~~~pteU)).entry (c - 2)
      = d.entry (c - 2) &&& ~~~pteU := PgDir.entry_setEntry_self (PgDir.hasTab_of_present hp)
  have hother : ∀ n, n ≠ c - 2 → (d.setEntry (c - 2) (d.entry (c - 2) &&& ~~~pteU)).entry n
      = d.entry n := fun n hn => PgDir.entry_setEntry_of_ne hn
  refine ⟨h.builds.setFlags hp ?_ ?_, hc, fun n hn hne => ?_, ⟨?_, ?_⟩, fun n hn => ?_, h.few⟩
  · rw [hclear]
    exact present_or _ _
  · rw [hclear]
    exact p2v_pteAddr_or hmem (by decide)
  · rw [hother n hne]
    exact h.user n hn
  · rw [hself, hclear]
    exact present_or _ _
  · rw [hself, hclear, userPte_or (v2p_aligned hmem)]
    rfl
  · rw [PgDir.translate_congr (hother n (by omega))]
    exact h.rest n hn

theorem KernelImage.Linked.page_ne_zero {im : KernelImage} (h : im.Linked) {v : Word}
    (hp : im.isPage v = true) : v ≠ 0#32 := by
  rintro rfl
  have hb := h.bounds
  simp only [KernelImage.isPage, Bool.and_eq_true, decide_eq_true_eq, BitVec.le_def] at hp
  have : im.end_.toNat ≤ 0 := hp.1.2
  omega

theorem userPte_kernelMap {im : KernelImage} {n : Nat} {pa flags : Word}
    (h : kernelMap im n = some (pa, flags)) : userPte flags = false := by
  obtain ⟨r, hr, htr⟩ := List.exists_of_findSome?_eq_some h
  have hperm : r.perm = pteW ∨ r.perm = 0#32 := by
    simp only [kmap, List.mem_cons, List.not_mem_nil, or_false] at hr
    rcases hr with rfl | rfl | rfl | rfl
    exacts [.inl rfl, .inr rfl, .inl rfl, .inl rfl]
  unfold Kmap.translate at htr
  split at htr <;> cases htr
  rcases hperm with hp | hp
  · rw [hp]
    decide
  · rw [hp]
    decide

theorem userPte_pteFlags (pte : Word) : userPte (pteFlags pte) = userPte pte := by
  unfold userPte hasFlag pteFlags
  rw [BitVec.and_assoc, show (0xFFF#32 : Word) &&& pteU = pteU by decide]

section Stacked

variable {k₀ k : Kmem} {c : Nat} {d : PgDir}

theorem Stacked.present (h : Stacked k₀ c k d) {n : Nat} (hn : n < c) :
    present (d.entry n) = true := by
  by_cases hne : n = c - 2
  · rw [hne]
    exact h.guard.1
  · rw [h.user n hn hne]
    exact present_or _ _

/-- Pages of the image that are not the guard page can be written, the guard page cannot. -/
theorem Stacked.stops_iff (h : Stacked k₀ c k d) (him : k₀.image.Linked) (hk : k₀.Sound)
    {a : Word} (ha : vpn a < c) : d.Stops a ↔ vpn a = c - 2 := by
  have hfew := h.few
  constructor
  · intro hstop
    by_contra hne
    have hp := h.present ha
    have hpage := h.builds.isPage hk (show vpn a < 0x60000 by omega) hp
    refine hstop ⟨⟨hp, ?_⟩, him.page_ne_zero hpage⟩
    rw [h.user (vpn a) ha hne, userEntry,
      userPte_or (v2p_aligned (KernelImage.aligned_of_isPage hpage))]
    rfl
  · intro he hgo
    have := hgo.1.2
    rw [he, h.guard.2] at this
    cases this

theorem Stacked.lt_of_user (h : Stacked k₀ c k d) {n : Nat} (hn : d.userPage n) : n < c := by
  by_contra hge
  have htr := h.rest n (by omega)
  rw [PgDir.translate, if_pos hn.1] at htr
  have := userPte_kernelMap htr.symm
  rw [userPte_pteFlags, hn.2] at this
  cases this

theorem Stacked.mem_of_user (h : Stacked k₀ c k d) {n : Nat} (hn : d.userPage n) :
    physPage (d.entry n) ∈ k₀.freelist := by
  have := h.lt_of_user hn
  have := h.few
  exact h.builds.mem_of_held (PgDir.mem_held.mpr (.inr (.inr
    (PgDir.mem_userPages.mpr ⟨n, by omega, hn.1, rfl⟩))))

end Stacked

namespace Exec

/-! ## Rules -/

section Rules

variable {σ α : Type} {s : State σ} {E : Halt → Prop}

theorem wp_onDir {f : Kmem → PgDir → Except Halt (α × Kmem × PgDir)} {Q : α → State σ → Prop}
    {d : PgDir} (hd : s.pgdir = some d)
    (h : Ends (f s.kmem d) (fun r => Q r.1 { s with kmem := r.2.1, pgdir := some r.2.2 }) E) :
    Wp (onDir f) s Q E := by
  unfold Wp onDir
  rw [hd]
  dsimp only
  cases hf : f s.kmem d with
  | error e =>
    rw [hf] at h
    exact h
  | ok r =>
    rw [hf] at h
    exact h

theorem wp_onFile {m : StateT σ (Except Halt) α} {Q : α → State σ → Prop} {r : α} {f : σ}
    (hm : m s.file = .ok (r, f)) (h : Q r { s with file := f }) : Wp (onFile m) s Q E :=
  wp_of_run (by unfold onFile; rw [hm]) h

end Rules

/-! ## Loading -/

/-- Reading leaves the file `f` as it is, and returns `g`, with no more bytes than were asked for. -/
structure Reads {σ : Type} (rd : Reader σ) (f : σ) (g : Nat → Nat → Int × List Byte) : Prop where
  read : ∀ off n, rd off n f = .ok (g off n, f)
  short : ∀ off n, (g off n).2.length ≤ n

/-- The address space with its first `c` pages mapped, and all that was loaded below `top`. -/
structure Loads {σ : Type} (k₀ : Kmem) (f : σ) (c top : Nat) (s : State σ) : Prop where
  image : ∃ d, s.pgdir = some d ∧ Image k₀ c s.kmem d
  file : s.file = f
  loaded : ∀ a ∈ s.loaded, a.toNat < top

/-- What is left when loading is given up. -/
structure Given {σ : Type} (k₀ : Kmem) (f : σ) (s : State σ) : Prop where
  pages : match s.pgdir with
    | none => Restored k₀ s.kmem
    | some d => Builds k₀ 0 s.kmem d
  file : s.file = f

section Load

variable {σ : Type} {rd : Reader σ} {f : σ} {g : Nat → Nat → Int × List Byte} {k₀ : Kmem}
  {s : State σ} {c top : Nat}

theorem Given.of_builds {d : PgDir} (hd : s.pgdir = some d) (hb : Builds k₀ 0 s.kmem d)
    (hf : s.file = f) : Given k₀ f s :=
  ⟨by rw [hd]; exact hb, hf⟩

theorem Given.bytes (h : Given k₀ f s) {v : Word} (hv : v ∉ k₀.freelist) :
    s.kmem.mem v = k₀.mem v := by
  have hp := h.pages
  cases hd : s.pgdir with
  | none =>
    rw [hd] at hp
    exact hp.bytes v hv
  | some d =>
    rw [hd] at hp
    exact hp.bytes v hv

theorem Loads.given (h : Loads k₀ f c top s) : Given k₀ f s := by
  obtain ⟨d, hd, hi⟩ := h.image
  exact .of_builds hd hi.builds h.file

/-- Bytes of the file in a page of the image. -/
theorem Loads.fill (h : Loads k₀ f c top s) {d : PgDir} (hd : s.pgdir = some d)
    (hi : Image k₀ c s.kmem d) {va : Word} (hva : vpn va < c) (hal : va.toNat % 4096 = 0)
    {bs : List Byte} (hlen : bs.length ≤ 4096) (htop : va.toNat + bs.length ≤ top)
    {Q : Unit → State σ → Prop}
    (hQ : ∀ s', Loads k₀ f c top s' → Q () s') :
    Wp (fill (pteAddr (d.entry (vpn va))) va bs) s Q fun _ => False := by
  refine hQ _ ⟨⟨d, hd, ?_⟩, h.file, fun a ha => ?_⟩
  · exact ⟨hi.builds.write (hi.held hva) _, hi.user, hi.rest, hi.few⟩
  rcases List.mem_append.mp ha with ha | ha
  · obtain ⟨i, hi, rfl⟩ := List.mem_map.mp ha
    have hi := List.mem_range.mp hi
    have hlt := va.isLt
    unfold addr
    rw [BitVec.toNat_add, BitVec.toNat_ofNat]
    have := Nat.mod_le (va.toNat + i % 2 ^ 32) (2 ^ 32)
    have := Nat.mod_le i (2 ^ 32)
    omega
  · exact h.loaded a ha

/-- The loop of `loaduvm` over a segment below the end of the image, with `j` pages to go. -/
theorem loaduvmLoop_loads (hrd : Reads rd f g) {va offset sz : Word} (hal : va.toNat % 4096 = 0)
    (htop : va.toNat + sz.toNat ≤ top) (hc : top ≤ 4096 * c) (hbase : top < 0x80000000) :
    ∀ (j fuel : Nat) {i : Word} {s : State σ}, j < fuel → i.toNat % 4096 = 0 →
      vpn i + j = upPage sz → Loads k₀ f c top s →
      Wp (loaduvmLoop rd va offset sz fuel i) s (fun _ => Loads k₀ f c top) fun _ => False := by
  intro j
  induction j with
  | zero =>
    intro fuel i s hfuel hi hend h
    obtain ⟨fuel, rfl⟩ : ∃ f, fuel = f + 1 := ⟨fuel - 1, by omega⟩
    have hstop : ¬ i < sz := (lt_iff_vpn_lt hi).not.mpr (by omega)
    rw [loaduvmLoop, if_neg hstop]
    exact h
  | succ j ih =>
    intro fuel i s hfuel hi hend h
    obtain ⟨fuel, rfl⟩ : ∃ f, fuel = f + 1 := ⟨fuel - 1, by omega⟩
    have hgo : i < sz := (lt_iff_vpn_lt hi).mpr (by omega)
    have hgoN := BitVec.lt_def.mp hgo
    have hadd : (va + i).toNat = va.toNat + i.toNat := by
      rw [BitVec.toNat_add]
      omega
    obtain ⟨d, hd, himg⟩ := h.image
    have hvpn : vpn (va + i) < c := by
      unfold vpn
      omega
    obtain ⟨n, hn⟩ : ∃ n, n = if sz - i < pgSize then sz - i else pgSize := ⟨_, rfl⟩
    have hnN : n.toNat ≤ 4096 ∧ i.toNat + n.toNat ≤ sz.toNat := by
      have hsub : (sz - i).toNat = sz.toNat - i.toNat := by
        rw [BitVec.toNat_sub]
        have := sz.isLt
        omega
      have hpg : pgSize.toNat = 4096 := rfl
      rw [hn]
      split
      case isTrue hlt =>
        have := BitVec.lt_def.mp hlt
        omega
      case isFalse hge =>
        rw [BitVec.not_lt, BitVec.le_def] at hge
        omega
    have hshort := hrd.short (offset + i).toNat n.toNat
    have htab := PgDir.hasTab_of_present (himg.present hvpn)
    rw [loaduvmLoop, if_pos hgo, wp_bind]
    refine wp_onDir hd ?_
    unfold loadAddr
    rw [if_pos htab, ends_ok]
    dsimp only
    rw [← hn, wp_bind]
    refine wp_onFile (r := g (offset + i).toNat n.toNat) (f := f) (by rw [← hrd.read]; rw [h.file]) ?_
    have h' : Loads k₀ f c top { s with pgdir := some d, file := f } :=
      ⟨⟨d, rfl, himg⟩, rfl, h.loaded⟩
    rw [wp_bind]
    refine h'.fill rfl himg hvpn (by omega) (by omega) (by omega) fun s' hs' => ?_
    split
    · exact hs'
    · have hnext := toNat_add_pgSize (a := i) (by omega)
      have hvnext := vpn_add_pgSize (a := i) (by omega)
      exact ih fuel (by omega) (by omega) (by omega) hs'

/-- One segment, with `sz` as the end of the image. -/
theorem loadSegment_loads (him : k₀.image.Linked) (hk : k₀.Sound) (hnd : k₀.freelist.Nodup)
    (hrd : Reads rd f g) (ph : ProgHdr) {sz : Word} (hsz : sz < kernBase)
    (h : Loads k₀ f (upPage sz) sz.toNat s) :
    Wp (loadSegment rd ph sz) s
      (fun r s' => Given k₀ f s' ∧ ∀ sz', r = some sz' → sz' < kernBase ∧
        Loads k₀ f (upPage sz') sz'.toNat s')
      fun _ => False := by
  have hgiven : ∀ {s : State σ}, Given k₀ f s → Given k₀ f s ∧ ∀ sz' : Word, none = some sz' →
      sz' < kernBase ∧ Loads k₀ f (upPage sz') sz'.toNat s := fun hg => ⟨hg, nofun⟩
  unfold loadSegment
  split
  · exact hgiven h.given
  case isFalse hmem =>
    split
    · exact hgiven h.given
    case isFalse hwrap =>
      obtain ⟨d, hd, himg⟩ := h.image
      obtain ⟨r, k', d', halloc, hb, hr⟩ := allocuvm_image him hk hnd hsz himg
        (ph.vaddr + ph.memsz)
      rw [wp_bind]
      refine wp_onDir hd ?_
      rw [halloc, ends_ok]
      dsimp only
      have hgiv : Given k₀ f { s with kmem := k', pgdir := some d' } := ⟨hb, h.file⟩
      split
      · exact hgiven hgiv
      case isFalse hne =>
        obtain ⟨hmax, hbase, himg'⟩ := hr hne
        have h' : Loads k₀ f (upPage r) r.toNat { s with kmem := k', pgdir := some d' } :=
          ⟨⟨d', rfl, himg'⟩, h.file, fun a ha => Nat.lt_of_lt_of_le (h.loaded a ha) (by omega)⟩
        split
        · exact hgiven hgiv
        case isFalse hal =>
          have hal : ph.vaddr.toNat % 4096 = 0 := by simpa using hal
          have hfits : ph.vaddr.toNat + ph.filesz.toNat ≤ r.toNat := by
            rw [BitVec.not_lt, BitVec.le_def] at hmem hwrap
            rw [BitVec.toNat_add] at hwrap hmax
            omega
          have hbaseN : r.toNat < 0x80000000 := BitVec.lt_def.mp hbase
          rw [wp_bind]
          unfold loaduvm
          rw [if_neg (by omega)]
          have hup := upPage_le (show ph.filesz.toNat ≤ 0x80000000 by omega)
          refine (loaduvmLoop_loads hrd hal hfits (by unfold upPage; omega) hbaseN (upPage ph.filesz)
            1048577 (i := 0#32) (by omega) (by decide)
            (by rw [show vpn 0#32 = 0 from rfl, Nat.zero_add]) h').imp ?_
          rintro (_ | _) s' hs'
          · exact hgiven hs'.given
          · exact ⟨hs'.given, fun sz' he => by cases he; exact ⟨hbase, hs'⟩⟩

theorem loadSegments_loads (him : k₀.image.Linked) (hk : k₀.Sound) (hnd : k₀.freelist.Nodup)
    (hrd : Reads rd f g) :
    ∀ (left : Nat) (off : Word) {sz : Word} {s : State σ}, sz < kernBase →
      Loads k₀ f (upPage sz) sz.toNat s →
      Wp (loadSegments rd left off sz) s
        (fun r s' => Given k₀ f s' ∧ ∀ sz', r = some sz' → sz' < kernBase ∧
          Loads k₀ f (upPage sz') sz'.toNat s')
        fun _ => False := by
  intro left
  induction left with
  | zero => exact fun _ _ _ hsz h => ⟨h.given, fun sz' he => by cases he; exact ⟨hsz, h⟩⟩
  | succ left ih =>
    intro off sz s hsz h
    rw [loadSegments, wp_bind]
    refine wp_onFile (r := g off.toNat _) (f := f) (by rw [← hrd.read]; rw [h.file]) ?_
    have h' : Loads k₀ f (upPage sz) sz.toNat { s with file := f } := ⟨h.image, rfl, h.loaded⟩
    obtain ⟨r, bs⟩ := g off.toNat Fs.proghdrSize
    dsimp only
    split
    · exact ⟨h'.given, nofun⟩
    · split
      · exact ih _ hsz h'
      · refine (loadSegment_loads him hk hnd hrd _ hsz h').next ?_
        rintro (_ | sz') s' ⟨hg, hr⟩
        · exact ⟨hg, nofun⟩
        · obtain ⟨hsz', hs'⟩ := hr sz' rfl
          exact ih _ hsz' hs'

theorem loadFile_loads (him : k₀.image.Linked) (hk : k₀.Sound) (hnd : k₀.freelist.Nodup)
    (hrd : Reads rd f g) :
    Wp (loadFile rd) ⟨k₀, none, f, []⟩
      (fun r s' => Given k₀ f s' ∧ ∀ elf sz, r = some (elf, sz) → sz < kernBase ∧
        Loads k₀ f (upPage sz) sz.toNat s')
      fun _ => False := by
  have hstart : Given k₀ f ⟨k₀, none, f, []⟩ := ⟨⟨rfl, .refl _, fun _ _ => rfl⟩, rfl⟩
  unfold loadFile
  rw [wp_bind]
  refine wp_onFile (r := g 0 _) (f := f) (hrd.read _ _) ?_
  obtain ⟨r, bs⟩ := g 0 Fs.elfhdrSize
  dsimp only
  split
  · exact ⟨hstart, nofun⟩
  split
  · exact ⟨hstart, nofun⟩
  · rw [wp_bind]
    rcases setupkvm_builds him hk 0#32 with ⟨d, k', hset, hb, -, htr⟩ | ⟨k', hset, hback, -⟩
    · have hset' :
  (setPgdir : ExecM σ Bool) ⟨k₀, none, f, []⟩ = .ok (true, ⟨k', some d, f, []⟩) := by
        unfold setPgdir
        rw [hset]
        rfl
      have h0 : Loads k₀ f (upPage 0#32) (0#32 : Word).toNat ⟨k', some d, f, []⟩ :=
        ⟨⟨d, rfl, hb, fun n hn => absurd hn (Nat.not_lt_zero n), fun n _ => htr n, Nat.zero_le _⟩,
          rfl, nofun⟩
      refine wp_of_run hset' ?_
      rw [if_pos rfl, wp_bind]
      refine (loadSegments_loads him hk hnd hrd _ _ (by decide) h0).imp ?_
      rintro (_ | sz) s' ⟨hg, hr⟩
      · exact ⟨hg, nofun⟩
      · refine ⟨hg, fun elf sz' he => ?_⟩
        cases he
        exact hr sz rfl
    · have hset' :
  (setPgdir : ExecM σ Bool) ⟨k₀, none, f, []⟩ = .ok (false, ⟨k', none, f, []⟩) := by
        unfold setPgdir
        rw [hset]
        rfl
      exact wp_of_run hset' ⟨⟨hback, rfl⟩, nofun⟩

end Load

/-! ## The stack -/

/-- The finished address space of `sz` bytes. -/
structure Ready {σ : Type} (k₀ : Kmem) (f : σ) (sz : Word) (s : State σ) : Prop where
  space : ∃ d c, s.pgdir = some d ∧ sz.toNat = 4096 * c ∧ Stacked k₀ c s.kmem d
  file : s.file = f
  loaded : ∀ a ∈ s.loaded, a < sz

section Stack

variable {σ : Type} {rd : Reader σ} {f : σ} {g : Nat → Nat → Int × List Byte} {k₀ : Kmem}
  {s : State σ}

theorem allocStack_ready (him : k₀.image.Linked) (hk : k₀.Sound) (hnd : k₀.freelist.Nodup)
    {sz : Word} (hsz : sz < kernBase) (h : Loads k₀ f (upPage sz) sz.toNat s) :
    Wp (allocStack sz) s (fun r s' => Given k₀ f s' ∧ ∀ sz', r = some sz' → Ready k₀ f sz' s')
      fun _ => False := by
  have hszN : sz.toNat < 0x80000000 := BitVec.lt_def.mp hsz
  obtain ⟨d, hd, himg⟩ := h.image
  have hcount := himg.count him hk hnd
  have hround := pgRoundUp_eq (Nat.le_of_lt hszN)
  have hup : upPage (pgRoundUp sz) = upPage sz := by
    unfold upPage at hround ⊢
    omega
  have hnew : (pgRoundUp sz + 2#32 * pgSize).toNat = 4096 * (upPage sz + 2) := by
    rw [BitVec.toNat_add, hround, show (2#32 * pgSize).toNat = 8192 from rfl]
    omega
  obtain ⟨r, k', d', halloc, hb, hr⟩ := allocuvm_image him hk hnd
    (show pgRoundUp sz < kernBase by rw [BitVec.lt_def, hround]; change _ < 0x80000000; omega)
    (by rw [hup]; exact himg) (pgRoundUp sz + 2#32 * pgSize)
  unfold allocStack
  rw [wp_bind]
  refine wp_onDir hd ?_
  rw [halloc, ends_ok]
  dsimp only
  split
  · exact ⟨⟨hb, h.file⟩, nofun⟩
  case isFalse hne =>
    obtain ⟨hmax, hbase, himg'⟩ := hr hne
    have hrN : r.toNat = 4096 * (upPage sz + 2) := by omega
    have hupr : upPage r = upPage sz + 2 := by
      unfold upPage at hrN ⊢
      omega
    have hguard : vpn (r - 2#32 * pgSize) = upPage r - 2 := by
      have : (r - 2#32 * pgSize).toNat = r.toNat - 8192 := by
        rw [BitVec.toNat_sub, show (2#32 * pgSize).toNat = 8192 from rfl]
        have := r.isLt
        omega
      unfold vpn
      omega
    have htab := PgDir.hasTab_of_present (himg'.present (show upPage r - 2 < upPage r by omega))
    rw [wp_bind]
    refine wp_onDir rfl ?_
    unfold clearpteu
    rw [hguard, if_pos htab]
    have hstacked := himg'.stacked hk (by omega)
    refine ⟨⟨hstacked.builds, h.file⟩, fun sz' he => ?_⟩
    cases he
    refine ⟨⟨_, _, rfl, by rw [hrN, hupr], hstacked⟩, h.file, fun a ha => ?_⟩
    have := h.loaded a ha
    rw [BitVec.lt_def]
    unfold upPage at hrN
    omega

/-- A file by itself, read as `readi` reads it. -/
def readNode : Reader Fs.Node := fun off n m => .ok (m.read off n, m)

theorem readNode_reads (m : Fs.Node) : Reads readNode m m.read := by
  refine ⟨fun _ _ => rfl, fun off n => ?_⟩
  unfold Fs.Node.read
  split
  · exact Nat.zero_le n
  · exact List.length_take_le ..

theorem loadImage_ready (him : k₀.image.Linked) (hk : k₀.Sound) (hnd : k₀.freelist.Nodup)
    (hrd : Reads rd f g) :
    Wp (loadImage rd) ⟨k₀, none, f, []⟩
      (fun r s' => Given k₀ f s' ∧ ∀ sz, r = some sz → Ready k₀ f sz s') fun _ => False := by
  unfold loadImage
  refine (loadFile_loads him hk hnd hrd).next ?_
  rintro (_ | ⟨elf, sz⟩) s' ⟨hg, hr⟩
  · exact ⟨hg, nofun⟩
  · obtain ⟨hsz, hs'⟩ := hr elf sz rfl
    exact allocStack_ready him hk hnd hsz hs'

/-- **`exec` survives any executable**: whatever the file `m` holds and however many pages are free,
loading it comes to an end without a panic, every byte from the file is at an address below the new
`sz`, and no page that was in use has been written. -/
theorem exec_loads_safely (k : Kmem) (m : Fs.Node) (him : k.image.Linked) (hk : k.Sound)
    (hnd : k.freelist.Nodup) :
    ∃ r s', loadImage readNode ⟨k, none, m, []⟩ = .ok (r, s') ∧
      (∀ sz, r = some sz → ∀ a ∈ s'.loaded, a < sz) ∧
      ∀ v, v ∉ k.freelist → s'.kmem.mem v = k.mem v := by
  obtain ⟨r, s', hrun, hg, hr⟩ := (loadImage_ready him hk hnd (readNode_reads m)).returns
  exact ⟨r, s', hrun, fun sz he => (hr sz he).loaded, fun v hv => hg.bytes hv⟩

/-- An executable with one segment, of one byte in the file and one and a half pages in memory. -/
def tinyElf : Fs.Node where
  type := .file
  nlink := 1
  bytes :=
    [0x7F#8, 0x45#8, 0x4C#8, 0x46#8] ++ List.replicate 24 0#8 ++ [52#8, 0#8, 0#8, 0#8] ++
      List.replicate 12 0#8 ++ [1#8, 0#8] ++ List.replicate 6 0#8 ++
      [1#8, 0#8, 0#8, 0#8, 84#8, 0#8, 0#8, 0#8] ++ List.replicate 8 0#8 ++
      [1#8, 0#8, 0#8, 0#8, 0#8, 0x18#8, 0#8, 0#8] ++ List.replicate 8 0#8 ++ [0xC3#8]

theorem exec_loads_safely_tiny :
    ∃ r s', loadImage readNode ⟨Kmem.initial 100, none, tinyElf, []⟩ = .ok (r, s') ∧
      (∀ sz, r = some sz → ∀ a ∈ s'.loaded, a < sz) ∧
      ∀ v, v ∉ (Kmem.initial 100).freelist → s'.kmem.mem v = (Kmem.initial 100).mem v :=
  exec_loads_safely (Kmem.initial 100) tinyElf KernelImage.sample_linked
    (Kmem.initial_sound (by decide)) (Kmem.initial_nodup (by decide))

end Stack

end Exec

end Xv6Mmap
