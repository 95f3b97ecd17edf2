import Xv6Mmap.Dealloc

/-!
# Copying to another address space (`vm.c:349-387`)

`copyout` writes to user memory through a page table that is not the current one. It looks up every
page with `uva2ka`, which reads the entry that `walkpgdir` points to without asking whether there is
one.

* `Wrote` is the effect of a copy on physical memory, byte by byte, in the order of the addresses:
  where two addresses of the range share a byte, the later one counts.
* `copyoutLoop_spec`: the copy goes on up to the first address that `Stops` it, and what happens
  there depends on whether its page has a table.
* **`copyout_exact_iff`**: for all directories, addresses and lengths, with ranges that wrap.
-/

namespace Xv6Mmap

/-- `uva2ka(pgdir, uva)`. Without a page table `walkpgdir` returns null, and the entry is read all
the same. -/
def uva2ka (d : PgDir) (uva : Word) : Except Halt Word :=
  if d.hasTab (vpn uva) then
    let pte := d.entry (vpn uva)
    if present pte then
      if userPte pte then .ok (p2v (pteAddr pte)) else .ok 0#32
    else .ok 0#32
  else .error .badDeref

/-- `memmove(page + off, bs, n)` for bytes that stay within the page. -/
def Kmem.store (k : Kmem) (page : Word) (off : Nat) (bs : List Byte) : Kmem :=
  { k with
    mem := Function.update k.mem page fun o =>
      if off ≤ o ∧ o < off + bs.length then bs.getD (o - off) 0#8 else k.mem page o }

/-- The loop of `copyout`, with a fuel of one turn for each byte. -/
def copyoutLoop (d : PgDir) : Nat → Kmem → Word → List Byte → Except Halt (Bool × Kmem)
  | _, k, _, [] => .ok (true, k)
  | 0, _, _, _ :: _ => .error .deadlock
  | fuel + 1, k, va, b :: bs =>
    let va0 := pgRoundDown va
    match uva2ka d va0 with
    | .error e => .error e
    | .ok pa0 =>
      if pa0 = 0#32 then .ok (false, k)
      else
        let n := min (pgSize - (va - va0)).toNat (b :: bs).length
        copyoutLoop d fuel (k.store pa0 (va - va0).toNat ((b :: bs).take n)) (va0 + pgSize)
          ((b :: bs).drop n)

/-- `copyout(pgdir, va, p, len)` for the `len` bytes `buf` at `p`; `true` for `0`, `false` for
`-1`. -/
def copyout (k : Kmem) (d : PgDir) (va : Word) (buf : List Byte) : Except Halt (Bool × Kmem) :=
  copyoutLoop d buf.length k va buf

/-! ## Bytes of an address space -/

/-- The address `i` bytes after `va`. -/
def addr (va : Word) (i : Nat) : Word := va + BitVec.ofNat 32 i

/-- The page and the offset of the byte at address `a`. -/
def PgDir.loc (d : PgDir) (a : Word) : Word × Nat := (physPage (d.entry (vpn a)), a.toNat % 4096)

/-- The page of `a` is present and user-accessible. -/
def PgDir.userPage (d : PgDir) (n : Nat) : Prop :=
  present (d.entry n) = true ∧ userPte (d.entry n) = true

/-- The bytes `bs` were written to the addresses from `va` on, and nothing else. -/
structure Wrote (d : PgDir) (k k' : Kmem) (va : Word) (bs : List Byte) : Prop where
  frame : ∀ v o, (∀ i < bs.length, d.loc (addr va i) ≠ (v, o)) → k'.mem v o = k.mem v o
  value : ∀ i (hi : i < bs.length),
    (∀ j, i < j → j < bs.length → d.loc (addr va j) ≠ d.loc (addr va i)) →
    k'.mem (d.loc (addr va i)).1 (d.loc (addr va i)).2 = bs[i]

theorem Wrote.nil (d : PgDir) (k : Kmem) (va : Word) : Wrote d k k va [] :=
  ⟨fun _ _ _ => rfl, fun _ hi => absurd hi (Nat.not_lt_zero _)⟩

theorem addr_add (va : Word) (i j : Nat) : addr (addr va i) j = addr va (i + j) := by
  unfold addr
  rw [BitVec.add_assoc, ← BitVec.ofNat_add]

theorem addr_zero (va : Word) : addr va 0 = va := by
  exact BitVec.add_zero va

variable {d : PgDir} {k : Kmem} {va : Word} {bs : List Byte}

theorem Wrote.append {k1 k' : Kmem} {bs' : List Byte} (h : Wrote d k k1 va bs)
    (h' : Wrote d k1 k' (addr va bs.length) bs') :
    Wrote d k k' va (bs ++ bs') := by
  have hshift : ∀ j, addr (addr va bs.length) j = addr va (bs.length + j) := addr_add va _
  refine ⟨fun v o hout => ?_, fun i hi hlast => ?_⟩
  · rw [List.length_append] at hout
    rw [h'.frame v o fun i hi => by rw [hshift]; exact hout _ (by omega),
      h.frame v o fun i hi => hout i (by omega)]
  rw [List.length_append] at hi hlast
  by_cases hfirst : i < bs.length
  · rw [List.getElem_append_left hfirst, ← h.value i hfirst fun j hij hj => hlast j hij (by omega)]
    refine h'.frame _ _ fun j hj => ?_
    rw [hshift]
    exact hlast _ (by omega) (by omega)
  obtain ⟨m, rfl⟩ : ∃ m, i = bs.length + m := ⟨i - bs.length, by omega⟩
  rw [List.getElem_append_right (by omega)]
  have hv := h'.value m (by omega) fun j hij hj => by
    rw [hshift, hshift]
    exact hlast _ (by omega) (by omega)
  rw [hshift] at hv
  rw [hv]
  congr 1
  omega

/-- In a directory that maps different user addresses to different bytes, the range reads back as
the bytes that were written, and every other user address as before. -/
theorem Wrote.reads_back {k' : Kmem} (h : Wrote d k k' va bs) (hlen : bs.length ≤ 2 ^ 32)
    (huser : ∀ i < bs.length, d.userPage (vpn (addr va i)))
    (hinj : ∀ a b, d.userPage (vpn a) → d.userPage (vpn b) → d.loc a = d.loc b → a = b) :
    (∀ i (hi : i < bs.length),
      k'.mem (d.loc (addr va i)).1 (d.loc (addr va i)).2 = bs[i]) ∧
    ∀ a, d.userPage (vpn a) → (∀ i < bs.length, a ≠ addr va i) →
      k'.mem (d.loc a).1 (d.loc a).2 = k.mem (d.loc a).1 (d.loc a).2 := by
  refine ⟨fun i hi => h.value i hi fun j hij hj he => ?_,
    fun a ha hout => h.frame _ _ fun i hi he => ?_⟩
  · have heq := hinj _ _ (huser j hj) (huser i hi) he
    unfold addr at heq
    have hof := congrArg BitVec.toNat ((BitVec.add_right_inj va).mp heq)
    rw [BitVec.toNat_ofNat, BitVec.toNat_ofNat] at hof
    omega
  · exact hout i hi (hinj _ _ (huser i hi) ha he).symm

theorem addr_in_page (va : Word) (i : Nat) (h : va.toNat % 4096 + i < 4096) :
    vpn (addr va i) = vpn va ∧ (addr va i).toNat % 4096 = va.toNat % 4096 + i := by
  have hlt := va.isLt
  have hnat : (addr va i).toNat = va.toNat + i := toNat_add_ofNat (by omega)
  unfold vpn
  omega

theorem Kmem.store_wrote (d : PgDir) (k : Kmem) (va : Word) (bs : List Byte)
    (hfit : va.toNat % 4096 + bs.length ≤ 4096) :
    Wrote d k (k.store (physPage (d.entry (vpn va))) (va.toNat % 4096) bs) va bs := by
  have hloc : ∀ i < bs.length, d.loc (addr va i)
      = (physPage (d.entry (vpn va)), va.toNat % 4096 + i) := fun i hi => by
    obtain ⟨hvpn, hoff⟩ := addr_in_page va i (by omega)
    rw [PgDir.loc, hvpn, hoff]
  refine ⟨fun v o hout => ?_, fun i hi _ => ?_⟩
  · unfold Kmem.store
    by_cases hv : v = physPage (d.entry (vpn va))
    · subst hv
      dsimp only
      rw [Function.update_self, if_neg]
      rintro ⟨hlo, hhi⟩
      refine hout (o - va.toNat % 4096) (by omega) ?_
      rw [hloc _ (by omega), show va.toNat % 4096 + (o - va.toNat % 4096) = o by omega]
    · dsimp only
      rw [Function.update_of_ne hv]
  · unfold Kmem.store
    rw [hloc i hi]
    dsimp only
    rw [Function.update_self, if_pos ⟨by omega, by omega⟩, Nat.add_sub_cancel_left,
      List.getD_eq_getElem?_getD, List.getElem?_eq_getElem hi, Option.getD_some]

/-! ## Where the copy ends -/

/-- `uva2ka` has no address for the page of `a`: it is not a user page, or its kernel address is
null. -/
def PgDir.Stops (d : PgDir) (a : Word) : Prop :=
  ¬ (d.userPage (vpn a) ∧ physPage (d.entry (vpn a)) ≠ 0#32)

theorem vpn_pgRoundDown (va : Word) : vpn (pgRoundDown va) = vpn va := by
  unfold vpn
  rw [pgRoundDown_toNat]
  omega

theorem uva2ka_null (h : d.hasTab (vpn va) = false) :
    uva2ka d (pgRoundDown va) = .error .badDeref := by
  unfold uva2ka
  rw [vpn_pgRoundDown, h]
  rfl

theorem uva2ka_stops (htab : d.hasTab (vpn va) = true) (h : d.Stops va) :
    uva2ka d (pgRoundDown va) = .ok 0#32 := by
  unfold uva2ka
  rw [vpn_pgRoundDown, if_pos htab]
  dsimp only
  split
  · split
    · refine congrArg _ (by_contra fun hne => h ⟨⟨by assumption, by assumption⟩, hne⟩)
    · rfl
  · rfl

theorem uva2ka_goes (h : ¬ d.Stops va) :
    uva2ka d (pgRoundDown va) = .ok (physPage (d.entry (vpn va))) ∧
      physPage (d.entry (vpn va)) ≠ 0#32 := by
  obtain ⟨⟨hp, hu⟩, hne⟩ := not_not.mp h
  refine ⟨?_, hne⟩
  unfold uva2ka
  rw [vpn_pgRoundDown, if_pos (PgDir.hasTab_of_present hp)]
  dsimp only
  rw [if_pos hp, if_pos hu]
  rfl

theorem PgDir.stops_congr {a b : Word} (h : vpn a = vpn b) : d.Stops a ↔ d.Stops b := by
  unfold PgDir.Stops
  rw [h]

theorem copyoutLoop_nil (d : PgDir) (fuel : Nat) (k : Kmem) (va : Word) :
    copyoutLoop d fuel k va [] = .ok (true, k) := by
  cases fuel <;> rfl

/-- One turn of the loop: the bytes up to the end of the page. -/
theorem copyoutLoop_turn {fuel : Nat} {b : Byte} (h : ¬ d.Stops va) :
    copyoutLoop d (fuel + 1) k va (b :: bs) =
      let n := min (4096 - va.toNat % 4096) (b :: bs).length
      copyoutLoop d fuel (k.store (physPage (d.entry (vpn va))) (va.toNat % 4096) ((b :: bs).take n))
        (addr va (4096 - va.toNat % 4096)) ((b :: bs).drop n) := by
  obtain ⟨hka, hne⟩ := uva2ka_goes h
  have hdown := pgRoundDown_toNat va
  have hlt := va.isLt
  have hoff : (va - pgRoundDown va).toNat = va.toNat % 4096 := by
    rw [BitVec.toNat_sub, hdown]
    omega
  have hleft : (pgSize - (va - pgRoundDown va)).toNat = 4096 - va.toNat % 4096 := by
    rw [BitVec.toNat_sub, hoff, show pgSize.toNat = 4096 from rfl]
    omega
  have hnext : pgRoundDown va + pgSize = addr va (4096 - va.toNat % 4096) := by
    apply BitVec.eq_of_toNat_eq
    unfold addr
    rw [BitVec.toNat_add, BitVec.toNat_add, hdown, BitVec.toNat_ofNat,
      show pgSize.toNat = 4096 from rfl]
    omega
  rw [copyoutLoop]
  simp only [hka, if_neg hne, hoff, hleft, hnext]

/-- The first address that stops the copy, if any, and what happens there. -/
theorem copyoutLoop_spec (d : PgDir) :
    ∀ (fuel : Nat) (k : Kmem) (va : Word) (bs : List Byte), bs.length ≤ fuel →
      (∃ k', copyoutLoop d fuel k va bs = .ok (true, k') ∧ Wrote d k k' va bs ∧
        ∀ i < bs.length, ¬ d.Stops (addr va i)) ∨
      ∃ i < bs.length, d.Stops (addr va i) ∧ (∀ j < i, ¬ d.Stops (addr va j)) ∧
        ((d.hasTab (vpn (addr va i)) = false ∧ copyoutLoop d fuel k va bs = .error .badDeref) ∨
          d.hasTab (vpn (addr va i)) = true ∧ ∃ k', copyoutLoop d fuel k va bs = .ok (false, k') ∧
            Wrote d k k' va (bs.take i)) := by
  intro fuel
  induction fuel with
  | zero =>
    intro k va bs hlen
    obtain rfl := List.eq_nil_of_length_eq_zero (Nat.le_zero.mp hlen)
    exact .inl ⟨k, rfl, .nil d k va, fun i hi => absurd hi (Nat.not_lt_zero i)⟩
  | succ fuel ih =>
    intro k va bs hlen
    cases bs with
    | nil => exact .inl ⟨k, rfl, .nil d k va, fun i hi => absurd hi (Nat.not_lt_zero i)⟩
    | cons b bs =>
      by_cases hstop : d.Stops va
      · refine .inr ⟨0, Nat.succ_pos _, by rwa [addr_zero], fun j hj => absurd hj (Nat.not_lt_zero j),
          ?_⟩
        rw [addr_zero, copyoutLoop]
        cases htab : d.hasTab (vpn va) with
        | false =>
          refine .inl ⟨rfl, ?_⟩
          dsimp only
          rw [uva2ka_null htab]
        | true =>
          refine .inr ⟨rfl, k, ?_, .nil d k va⟩
          dsimp only
          rw [uva2ka_stops htab hstop]
          rfl
      · set off := va.toNat % 4096 with hoff
        have hofflt : off < 4096 := Nat.mod_lt _ (by decide)
        obtain ⟨n, hn⟩ : ∃ n, n = min (4096 - off) (b :: bs).length := ⟨_, rfl⟩
        have hpage : ∀ i < 4096 - off, ¬ d.Stops (addr va i) := fun i hi => by
          rwa [PgDir.stops_congr (addr_in_page va i (by omega)).1]
        have htake : ((b :: bs).take n).length = n := by
          rw [List.length_take]
          omega
        have hlen' : (b :: bs).length = bs.length + 1 := List.length_cons
        have hwrote := Kmem.store_wrote d k va ((b :: bs).take n) (by omega)
        rw [copyoutLoop_turn hstop]
        dsimp only
        rw [← hoff, ← hn]
        by_cases hall : (b :: bs).length ≤ 4096 - off
        · -- the last page
          have hnall : n = (b :: bs).length := by omega
          rw [hnall, List.take_length] at hwrote ⊢
          rw [List.drop_length, copyoutLoop_nil]
          exact .inl ⟨_, rfl, hwrote, fun i hi => hpage i (by omega)⟩
        have hnpage : 4096 - off = n := by omega
        rw [hnpage] at hpage ⊢
        have hsplit : (b :: bs).take n ++ (b :: bs).drop n = b :: bs := List.take_append_drop n _
        have hdrop : ((b :: bs).drop n).length = (b :: bs).length - n := List.length_drop
        rcases ih (k.store (physPage (d.entry (vpn va))) off ((b :: bs).take n)) (addr va n)
            ((b :: bs).drop n) (by omega) with
          ⟨k', hloop, hrest, hgo⟩ | ⟨i, hi, hst, hbefore, hend⟩
        · refine .inl ⟨k', hloop, ?_, fun i hi => ?_⟩
          · have := hwrote.append (by rw [htake]; exact hrest)
            rwa [hsplit] at this
          · by_cases hin : i < n
            · exact hpage i hin
            · have := hgo (i - n) (by omega)
              rwa [addr_add, show n + (i - n) = i by omega] at this
        · rw [addr_add] at hst hend
          refine .inr ⟨n + i, by omega, hst, fun j hj => ?_, ?_⟩
          · by_cases hin : j < n
            · exact hpage j hin
            · have := hbefore (j - n) (by omega)
              rwa [addr_add, show n + (j - n) = j by omega] at this
          · refine hend.imp id fun ⟨htab, k', hloop, hrest⟩ => ⟨htab, k', hloop, ?_⟩
            have := hwrote.append (by rw [htake]; exact hrest)
            rwa [← List.take_add] at this

/-! ## Exactness -/

/-- Every address of the range is in a user page. -/
def PgDir.AllUser (d : PgDir) (va : Word) (len : Nat) : Prop :=
  ∀ i < len, d.userPage (vpn (addr va i))

/-- `copyout` returns; `0` if and only if the whole range is user memory, and then exactly the bytes
of the range have been written; and no page is written that is not a user page of `d`. -/
def CopyoutExact (k : Kmem) (d : PgDir) (va : Word) (buf : List Byte) : Prop :=
  match copyout k d va buf with
  | .error _ => False
  | .ok (true, k') => d.AllUser va buf.length ∧ Wrote d k k' va buf
  | .ok (false, k') => ¬ d.AllUser va buf.length ∧
    ∀ v, (∀ n, d.userPage n → physPage (d.entry n) ≠ v) → k'.mem v = k.mem v

/-- The first address that stops the copy, if any, is in a page with a table, and some address of
the range is not in a user page. -/
def PgDir.CopyoutSafe (d : PgDir) (va : Word) (len : Nat) : Prop :=
  ∀ i < len, d.Stops (addr va i) → (∀ j < i, ¬ d.Stops (addr va j)) →
    d.hasTab (vpn (addr va i)) = true ∧ ¬ d.AllUser va len

/-- **When `copyout` is exact**: if the page at which the copy ends has a page table. -/
theorem copyout_exact_iff (k : Kmem) (d : PgDir) (va : Word) (buf : List Byte) :
    CopyoutExact k d va buf ↔ d.CopyoutSafe va buf.length := by
  unfold CopyoutExact copyout
  rcases copyoutLoop_spec d buf.length k va buf le_rfl with
    ⟨k', hloop, hwrote, hgo⟩ | ⟨i, hi, hst, hbefore, ⟨htab, hloop⟩ | ⟨htab, k', hloop, hwrote⟩⟩
  · rw [hloop]
    refine iff_of_true ⟨fun i hi => (not_not.mp (hgo i hi)).1, hwrote⟩ ?_
    exact fun i hi hst => absurd hst (hgo i hi)
  · rw [hloop]
    refine iff_of_false id fun hsafe => ?_
    have := (hsafe i hi hst hbefore).1
    rw [htab] at this
    cases this
  · rw [hloop]
    constructor
    · rintro ⟨hnot, -⟩ j hj hstj hbeforej
      -- there is one first address
      have hij : j = i := by
        rcases Nat.lt_trichotomy j i with hlt | heq | hgt
        · exact absurd hstj (hbefore j hlt)
        · exact heq
        · exact absurd hst (hbeforej i hgt)
      exact ⟨hij ▸ htab, hnot⟩
    · intro hsafe
      refine ⟨(hsafe i hi hst hbefore).2, fun v hv => funext fun o => hwrote.frame v o ?_⟩
      intro j hj he
      rw [List.length_take] at hj
      have huser := (not_not.mp (hbefore j (by omega))).1
      exact hv _ huser (congrArg Prod.fst he)

/-- An address past the only page table: the null entry is followed. -/
theorem copyout_follows_null :
    copyout (Kmem.initial 2) .sample 0x400000#32 [0x61#8] = .error .badDeref ∧
      ¬ CopyoutExact (Kmem.initial 2) .sample 0x400000#32 [0x61#8] := by
  have hnull : copyout (Kmem.initial 2) .sample 0x400000#32 [0x61#8] = .error .badDeref := rfl
  refine ⟨hnull, fun h => ?_⟩
  unfold CopyoutExact at h
  rwa [hnull] at h

end Xv6Mmap
