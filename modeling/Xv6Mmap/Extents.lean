import Xv6Mmap.Window

/-!
# Extents of mappings (`sysfile.c:627-693`, `sysfile.c:819-885`)

A mapping of `length` bytes is meant to take whole pages: it starts at a page, and ends with the last
byte of page `PGROUNDUP(length) / PGSIZE`. Four places compute the end they hand to
`insert_mapping`, each with a `- 1` of its own, and the search continues from the end of the
mapping before, so a wrong end misplaces later mappings too.

* `extents_of_guarded_run`: mappings have their extents in every run in which no `wremap` moves a
  mapping.
* `move_shortens`: a `wremap` that does move subtracts one twice.
-/

namespace Xv6Mmap

open Lib

/-- The mapping starts at a page and has the pages of its length. -/
def MemBlock.Extent (b : MemBlock) : Prop :=
  b.start.toNat % 4096 = 0 ∧ b.end_ = b.start + pgRoundUp b.length - 1#32

instance (b : MemBlock) : Decidable b.Extent := inferInstanceAs (Decidable (_ ∧ _))

/-- Every live mapping has its extent. -/
def Maps.Extents (m : Maps) : Prop := ∀ i < m.count, (m.arr i).Extent

/-- The calls that keep the extents: a `wremap` keeps the address, or fails. -/
def StaysInPlace (s : Kmem × Proc) : Call → Prop
  | .wremap oldaddr _ newsize flag oob =>
    oldaddr.toNat % 4096 = 0 → ∀ l < maxWmmapInfo, s.2.maps.FirstAt oldaddr l →
      ¬ s.2.maps.remapsElsewhere oob l (oldaddr + pgRoundUp newsize) flag
  | _ => True

instance (s : Kmem × Proc) : (c : Call) → Decidable (StaysInPlace s c)
  | .wmap .. => isTrue trivial
  | .wunmap .. => isTrue trivial
  | .wremap oldaddr .. =>
    inferInstanceAs (Decidable (_ → ∀ l < 16, s.2.maps.FirstAt oldaddr l → ¬ _))
  | .fault .. => isTrue trivial

/-- The byte after a mapping with its extent is the first of a page. -/
theorem MemBlock.Extent.next {b : MemBlock} (h : b.Extent) :
    (b.end_ + 1#32).toNat % 4096 = 0 := by
  have hround := pgRoundUp_mod b.length
  rw [h.2, BitVec.sub_add_cancel, BitVec.toNat_add]
  have := h.1
  omega

/-- The search ends at a page, when every used slot has its extent. -/
theorem Maps.ForUsed.leftmostAddr_aligned {m : Maps} (h : m.ForUsed MemBlock.Extent) (hwf : m.Wf)
    (ht : m.Tail) (hroom : m.count < maxWmmapInfo) (size : Word) :
    (leftmostAddr m.arr size).toNat % 4096 = 0 := by
  have hprev : ∀ l ≤ maxWmmapInfo, (∀ i < l, (m.arr i).valid ≠ 0#32) →
      (prevEnd m.arr l + 1#32).toNat % 4096 = 0 := by
    intro l hl hused
    cases l with
    | zero =>
      change (minAddr - 1#32 + 1#32).toNat % 4096 = 0
      decide
    | succ l => exact (h l (by omega) (hused l (by omega))).next
  obtain ⟨-, heq⟩ | ⟨hu, ⟨l, hl, -, -, heq⟩ | ⟨-, heq⟩⟩ := ht.leftmostAddr_cases hwf hroom size
  · rw [heq]
    exact hprev m.count hroom.le fun i hi => hwf.used hi
  · rw [heq]
    exact hprev l hl.le fun i hi => hu i (by omega)
  · rw [heq]
    decide

/-- A call that moves nothing keeps the extents of all used slots. -/
theorem Maps.Effect.extents {k : Kmem} {p : Proc} {m' : Maps} {c : Call} (hwf : p.maps.Wf)
    (ht : p.maps.Tail) (h : p.maps.ForUsed MemBlock.Extent) (hok : StaysInPlace (k, p) c)
    (he : p.maps.Effect p.pid c m') : m'.ForUsed MemBlock.Extent := by
  cases he with
  | same hs => exact h.sameTable hs
  | @wmap addr length flags fd hlen hroom hfix =>
    refine h.inserted hwf ⟨?_, rfl⟩
    change (p.maps.wmapStart addr length flags).toNat % 4096 = 0
    unfold Maps.wmapStart
    split
    · rename_i hf
      exact (hfix hf).1
    · exact h.leftmostAddr_aligned hwf ht (hwf.count_lt hroom) _
  | wunmap _ _ hs => exact (h.sameTable hs).removed
  | remap hal hl _ => exact Maps.ForUsed.inserted (hwf.removed_first hl) h.removed ⟨hal, rfl⟩
  | move hal hl hout =>
    exact absurd hout (hok hal _ (lt_of_lt_of_le hl.1 hwf.count_le) hl)

/-- **Mappings have their extents**, in every run in which no `wremap` moves a mapping. -/
theorem extents_of_guarded_run (k k' : Kmem) (p p' : Proc) (cs : List Call)
    (h0 : p.maps = Maps.init) (hg : Guarded callStep StaysInPlace (k, p) cs)
    (hr : run callStep (k, p) cs = .ok (k', p')) : p'.maps.Extents := by
  have hinv : p'.maps.Wf ∧ p'.maps.Tail ∧ p'.maps.ForUsed MemBlock.Extent := by
    refine run_invariant
      (fun s => s.2.maps.Wf ∧ s.2.maps.Tail ∧ s.2.maps.ForUsed MemBlock.Extent) ?_ ?_ hg hr
    · rintro s c s' ⟨hwf, ht, hx⟩ hok hc
      obtain ⟨r, hcall⟩ := callStep_ok hc
      have he := call_effect hwf hcall
      exact ⟨he.wf hwf, he.tail hwf ht, he.extents hwf ht hx hok⟩
    · simp only [h0]
      exact ⟨Maps.wf_init, .inl fun _ _ _ => rfl, Maps.forUsed_init⟩
  obtain ⟨hwf, -, hx⟩ := hinv
  intro i hi
  exact hx i (lt_of_lt_of_le hi hwf.count_le) (hwf.used hi)

theorem extents_of_guarded_run_three :
    ∃ k' p', run callStep (Kmem.exhausted, Proc.fresh 1) apartCalls = .ok (k', p') ∧
      p'.maps.count = 3 ∧ p'.maps.Extents := by
  obtain ⟨⟨k', p'⟩, hr, hcount⟩ := run_ok_of_eval callStep (Kmem.exhausted, Proc.fresh 1) apartCalls
    (fun s => s.2.maps.count == 3) (by decide +kernel)
  exact ⟨k', p', hr, by simpa using hcount,
    extents_of_guarded_run _ _ _ _ _ rfl (by decide +kernel) hr⟩

/-- Two pages side by side; the first cannot grow where it is and is moved, and a third mapping is
placed behind it. -/
def growFirstOfTwo : List Call :=
  [.wmap 0#32 4096#32 mapAnonymous 0#32, .wmap 0#32 4096#32 mapAnonymous 0#32,
    .wremap 0x60000000#32 4096#32 8192#32 1#32 MemBlock.empty,
    .wmap 0#32 4096#32 mapAnonymous 0#32]

/-- The moved mapping ends one byte early, and the next one starts at the last byte of its page. -/
theorem move_shortens :
    ∃ k' p', run callStep (Kmem.exhausted, Proc.fresh 1) growFirstOfTwo = .ok (k', p') ∧
      p'.maps.count = 3 ∧ p'.maps.InWindow ∧ ¬ p'.maps.Extents ∧
      (p'.maps.arr 1).start = 0x60002000#32 ∧ (p'.maps.arr 1).end_ = 0x60003FFE#32 ∧
      (p'.maps.arr 1).length = 8192#32 ∧ (p'.maps.arr 2).start = 0x60003FFF#32 := by
  obtain ⟨⟨k', p'⟩, hr, hq⟩ := run_ok_of_eval callStep (Kmem.exhausted, Proc.fresh 1) growFirstOfTwo
    (fun s => decide (s.2.maps.count = 3 ∧ (∀ i : Fin 3, (s.2.maps.arr i).InWindow) ∧
      (s.2.maps.arr 1).start = 0x60002000#32 ∧ (s.2.maps.arr 1).end_ = 0x60003FFE#32 ∧
      (s.2.maps.arr 1).length = 8192#32 ∧ (s.2.maps.arr 2).start = 0x60003FFF#32))
    (by decide +kernel)
  obtain ⟨hcount, hwindow, hstart, hend, hlength, hthird⟩ := of_decide_eq_true hq
  refine ⟨k', p', hr, hcount, fun i hi => hwindow ⟨i, hcount ▸ hi⟩, fun hx => ?_, hstart, hend,
    hlength, hthird⟩
  have := (hx 2 (by rw [hcount]; decide)).1
  rw [hthird] at this
  exact absurd this (by decide)

end Xv6Mmap
