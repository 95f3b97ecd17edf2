import Xv6Mmap.Placement

/-!
# The window of mappings (`wmap.h:13-15`)

`wmap.h` reserves `[MIN_ADDR, MAX_ADDR)` for mappings, and `freevm` relies on it: it frees user
pages below `MIN_ADDR` only. Nothing in `sys_wmap` or `sys_wremap` checks the window, except one
comparison with `MAX_ADDR` when `sys_wremap` grows the last mapping.

* `inWindow_of_guarded_run`: live mappings stay in the window in every run whose calls ask for room
  that the window has (`StaysInWindow`).
* `fixed_below_window` is a call that does not: `MAP_FIXED` at address zero is accepted.
-/

namespace Xv6Mmap

open Lib

/-- The interval of an entry is in the window, and not empty. -/
def MemBlock.InWindow (b : MemBlock) : Prop :=
  minAddr ≤ b.start ∧ b.start ≤ b.end_ ∧ b.end_ < maxAddr

instance (b : MemBlock) : Decidable b.InWindow := inferInstanceAs (Decidable (_ ∧ _ ∧ _))

/-- Every live mapping is in the window. -/
def Maps.InWindow (m : Maps) : Prop := ∀ i < m.count, (m.arr i).InWindow

theorem MemBlock.inWindow_iff {b : MemBlock} :
    b.InWindow ↔ 0x60000000 ≤ b.start.toNat ∧ b.start.toNat ≤ b.end_.toNat ∧
      b.end_.toNat < 0x80000000 := by
  unfold MemBlock.InWindow
  rw [BitVec.le_def, BitVec.le_def, BitVec.lt_def]
  rfl

/-- The search has `n` bytes in the window: behind the last entry, or, when every slot is used, at
all. -/
def Maps.SearchInWindow (m : Maps) (n : Nat) : Prop :=
  (¬ m.AllUsed → (prevEnd m.arr m.count).toNat + n < maxAddr.toNat) ∧
    (m.AllUsed → n ≤ maxAddr.toNat - minAddr.toNat)

/-- The calls that keep live mappings in the window. A move by `sys_wremap` makes the interval one
byte shorter than `PGROUNDUP(newsize)`. -/
def StaysInWindow (s : Kmem × Proc) : Call → Prop
  | .wmap addr length flags _ =>
    length.toInt < 1 ∨ s.2.maps.total = maxWmmapInfo ∨
      if hasFlag flags mapFixed then
        s.2.maps.fixedFits addr length →
          minAddr ≤ addr ∧ addr.toNat + (pgRoundUp length).toNat ≤ maxAddr.toNat
      else s.2.maps.SearchInWindow (pgRoundUp length).toNat
  | .wremap oldaddr _ newsize flag oob =>
    ∀ l < maxWmmapInfo, s.2.maps.FirstAt oldaddr l →
      (s.2.maps.remapsInPlace oob l (oldaddr + pgRoundUp newsize) →
        pgRoundUp newsize ≠ 0#32 ∧
          oldaddr.toNat + (pgRoundUp newsize).toNat ≤ maxAddr.toNat) ∧
      (s.2.maps.remapsElsewhere oob l (oldaddr + pgRoundUp newsize) flag →
        pgRoundUp newsize ≠ 0#32 ∧
          (s.2.maps.removed oldaddr l).SearchInWindow ((pgRoundUp newsize).toNat - 1))
  | _ => True

instance (m : Maps) (n : Nat) : Decidable (m.SearchInWindow n) :=
  inferInstanceAs (Decidable ((_ → _) ∧ (_ → _)))

instance (s : Kmem × Proc) : (c : Call) → Decidable (StaysInWindow s c)
  | .wmap _ _ flags _ =>
    inferInstanceAs (Decidable (_ ∨ _ ∨ if hasFlag flags mapFixed then _ → _ ∧ _ else _))
  | .wunmap .. => isTrue trivial
  | .wremap oldaddr .. =>
    inferInstanceAs (Decidable (∀ l < 16, s.2.maps.FirstAt oldaddr l → (_ → _ ∧ _) ∧ (_ → _ ∧ _)))
  | .fault .. => isTrue trivial

/-- Where the search ends in a table whose used slots are in the window. `n` bytes from there on
are in the window too, for a length that rounds to `n` or to one byte more. -/
theorem Maps.SearchInWindow.spec {m : Maps} {size : Word} {n : Nat} (hwf : m.Wf) (ht : m.Tail)
    (h : m.ForUsed MemBlock.InWindow) (hroom : m.count < maxWmmapInfo)
    (hn : n = size.toNat ∨ n + 1 = size.toNat) (hmod : size.toNat % 4096 = 0)
    (hw : m.SearchInWindow n) :
    0x60000000 ≤ (leftmostAddr m.arr size).toNat ∧
      (leftmostAddr m.arr size).toNat + n ≤ 0x80000000 := by
  have hmin : minAddr.toNat = 0x60000000 := rfl
  have hmax : maxAddr.toNat = 0x80000000 := rfl
  -- the end of a used entry, or `MIN_ADDR - 1`
  have hprev : ∀ l ≤ maxWmmapInfo, (∀ i < l, (m.arr i).valid ≠ 0#32) →
      0x5FFFFFFF ≤ (prevEnd m.arr l).toNat ∧ (prevEnd m.arr l).toNat < 0x80000000 := by
    intro l hl hused
    cases l with
    | zero =>
      change _ ≤ (minAddr - 1#32).toNat ∧ (minAddr - 1#32).toNat < _
      decide
    | succ l =>
      have hin := MemBlock.inWindow_iff.mp (h l (by omega) (hused l (by omega)))
      change _ ≤ (m.arr l).end_.toNat ∧ (m.arr l).end_.toNat < _
      omega
  have hsucc : ∀ l, (prevEnd m.arr l).toNat < 0x80000000 →
      (prevEnd m.arr l + 1#32).toNat = (prevEnd m.arr l).toNat + 1 := fun l hl => by
    bv_omega
  obtain ⟨hnu, heq⟩ | ⟨hu, ⟨l, hl, hfit, -, heq⟩ | ⟨-, heq⟩⟩ :=
    ht.leftmostAddr_cases hwf hroom size
  · have hp := hprev m.count hroom.le fun i hi => hwf.used hi
    have := hw.1 hnu
    rw [heq, hsucc _ hp.2]
    omega
  · have hp := hprev l hl.le fun i hi => hu i (by omega)
    have hin := MemBlock.inWindow_iff.mp (h l hl (hu l hl))
    have := hw.2 hu
    rw [heq, hsucc _ hp.2]
    unfold gapFits at hfit
    rw [BitVec.toInt_eq_toNat_cond, BitVec.toInt_eq_toNat_cond, BitVec.toNat_sub] at hfit
    split at hfit <;> split at hfit <;> omega
  · have := hw.2 hu
    rw [heq, hmin]
    omega

/-- The search puts an entry of `n` bytes into the window. -/
theorem Maps.SearchInWindow.usedInWindow {m : Maps} {size : Word} {n : Nat} {rid : Rid} {e : Entry}
    (hwf : m.Wf) (ht : m.Tail) (h : m.ForUsed MemBlock.InWindow) (hroom : m.count < maxWmmapInfo) (hpos : 0 < n)
    (hn : n = size.toNat ∨ n + 1 = size.toNat) (hmod : size.toNat % 4096 = 0)
    (hw : m.SearchInWindow n) (hstart : e.start = leftmostAddr m.arr size)
    (hend : e.end_ = e.start + BitVec.ofNat 32 n - 1#32) :
    (m.inserted rid e).ForUsed MemBlock.InWindow := by
  obtain ⟨hlo, hhi⟩ := hw.spec hwf ht h hroom hn hmod
  refine h.inserted hwf (MemBlock.inWindow_iff.mpr ?_)
  change _ ≤ e.start.toNat ∧ e.start.toNat ≤ e.end_.toNat ∧ e.end_.toNat < _
  rw [← hstart] at hlo hhi
  have hnat : e.end_.toNat = e.start.toNat + n - 1 := by
    rw [hend, BitVec.toNat_sub, BitVec.toNat_add, BitVec.toNat_ofNat, BitVec.toNat_ofNat]
    omega
  omega

theorem Maps.Effect.usedInWindow {k : Kmem} {p : Proc} {m' : Maps} {c : Call} (hwf : p.maps.Wf)
    (ht : p.maps.Tail) (h : p.maps.ForUsed MemBlock.InWindow) (hok : StaysInWindow (k, p) c)
    (he : p.maps.Effect p.pid c m') : m'.ForUsed MemBlock.InWindow := by
  have hmin : minAddr.toNat = 0x60000000 := rfl
  have hmax : maxAddr.toNat = 0x80000000 := rfl
  cases he with
  | same hs => exact h.sameTable hs
  | @wmap addr length flags fd hlen hroom hfix =>
    obtain ⟨hround, -, hmod⟩ := pgRoundUp_of_pos hlen
    have hok := (hok.resolve_left (by omega)).resolve_left hroom
    by_cases hf : hasFlag flags mapFixed = true
    · simp only [Maps.wmapStart, if_pos hf] at hok ⊢
      obtain ⟨hlo, hhi⟩ := hok (hfix hf)
      rw [BitVec.le_def] at hlo
      refine h.inserted hwf (MemBlock.inWindow_iff.mpr ?_)
      change _ ≤ addr.toNat ∧ addr.toNat ≤ (addr + pgRoundUp length - 1#32).toNat ∧
        (addr + pgRoundUp length - 1#32).toNat < _
      bv_omega
    · simp only [Maps.wmapStart, if_neg hf] at hok ⊢
      refine hok.usedInWindow hwf ht h (hwf.count_lt hroom) (by omega) (.inl rfl) hmod rfl ?_
      rw [BitVec.ofNat_toNat, BitVec.setWidth_eq]
  | wunmap _ _ hs => exact (h.sameTable hs).removed
  | @remap oldaddr oldsize newsize flag oob l hal hl hin =>
    obtain ⟨hne, hhi⟩ := (hok l (lt_of_lt_of_le hl.1 hwf.count_le) hl).1 hin
    have hold := MemBlock.inWindow_iff.mp
      (h l (lt_of_lt_of_le hl.1 hwf.count_le) (hwf.used hl.1))
    rw [hl.2.1] at hold
    rw [ne_eq, ← BitVec.toNat_inj, BitVec.toNat_ofNat] at hne
    refine Maps.ForUsed.inserted (hwf.removed_first hl) h.removed
      (MemBlock.inWindow_iff.mpr ?_)
    change _ ≤ oldaddr.toNat ∧ oldaddr.toNat ≤ (oldaddr + pgRoundUp newsize - 1#32).toNat ∧
      (oldaddr + pgRoundUp newsize - 1#32).toNat < _
    bv_omega
  | @move oldaddr oldsize newsize flag oob l hal hl hout =>
    obtain ⟨hne, hw⟩ := (hok l (lt_of_lt_of_le hl.1 hwf.count_le) hl).2 hout
    have hmod := pgRoundUp_mod newsize
    rw [ne_eq, ← BitVec.toNat_inj, BitVec.toNat_ofNat] at hne
    refine hw.usedInWindow (hwf.removed_first hl) (ht.removed hwf hl.1) h.removed
      (hwf.count_removed_lt hl) (by omega) (.inr (by omega)) hmod rfl ?_
    have hsub : BitVec.ofNat 32 ((pgRoundUp newsize).toNat - 1) = pgRoundUp newsize - 1#32 := by
      bv_omega
    dsimp only
    rw [hsub]
    bv_omega

/-- **Mappings stay in the window**, in every run whose calls ask for room the window has. -/
theorem inWindow_of_guarded_run (k k' : Kmem) (p p' : Proc) (cs : List Call)
    (h0 : p.maps = Maps.init) (hg : Guarded callStep StaysInWindow (k, p) cs)
    (hr : run callStep (k, p) cs = .ok (k', p')) : p'.maps.InWindow := by
  have hinv : p'.maps.Wf ∧ p'.maps.Tail ∧ p'.maps.ForUsed MemBlock.InWindow := by
    refine run_invariant (fun s => s.2.maps.Wf ∧ s.2.maps.Tail ∧ s.2.maps.ForUsed MemBlock.InWindow) ?_ ?_ hg hr
    · rintro s c s' ⟨hwf, ht, hw⟩ hok hc
      obtain ⟨r, hcall⟩ := callStep_ok hc
      have he := call_effect hwf hcall
      exact ⟨he.wf hwf, he.tail hwf ht, he.usedInWindow hwf ht hw hok⟩
    · simp only [h0]
      exact ⟨Maps.wf_init, .inl fun _ _ _ => rfl, Maps.forUsed_init⟩
  obtain ⟨hwf, -, hw⟩ := hinv
  intro i hi
  exact hw i (lt_of_lt_of_le hi hwf.count_le) (hwf.used hi)

theorem inWindow_of_guarded_run_three :
    ∃ k' p', run callStep (Kmem.exhausted, Proc.fresh 1) apartCalls = .ok (k', p') ∧
      p'.maps.count = 3 ∧ p'.maps.InWindow := by
  obtain ⟨⟨k', p'⟩, hr, hcount⟩ := run_ok_of_eval callStep (Kmem.exhausted, Proc.fresh 1) apartCalls
    (fun s => s.2.maps.count == 3) (by decide +kernel)
  exact ⟨k', p', hr, by simpa using hcount,
    inWindow_of_guarded_run _ _ _ _ _ rfl (by decide +kernel) hr⟩

/-- A page at address zero. -/
def fixedAtZero : List Call := [.wmap 0#32 4096#32 (mapFixed ||| mapAnonymous) 0#32]

theorem fixed_below_window :
    ∃ k' p', run callStep (Kmem.exhausted, Proc.fresh 1) fixedAtZero = .ok (k', p') ∧
      p'.maps.count = 1 ∧ (p'.maps.arr 0).start = 0#32 ∧ ¬ p'.maps.InWindow := by
  obtain ⟨⟨k', p'⟩, hr, hq⟩ := run_ok_of_eval callStep (Kmem.exhausted, Proc.fresh 1) fixedAtZero
    (fun s => s.2.maps.count == 1 && (s.2.maps.arr 0).start == 0#32) (by decide +kernel)
  simp only [Bool.and_eq_true, beq_iff_eq] at hq
  obtain ⟨hcount, hstart⟩ := hq
  refine ⟨k', p', hr, hcount, hstart, fun hw => ?_⟩
  have hlo := (hw 0 (by omega)).1
  rw [hstart] at hlo
  exact absurd hlo (by decide)

end Xv6Mmap
