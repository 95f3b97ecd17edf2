import Xv6Mmap.Calls
import Xv6Mmap.Lib.Slots

/-!
# The mapping table is a sorted list (`sysfile.c:456-598`)

The shifting loops of `insert_mapping` and `remove_mapping` in terms of slot arrays:
`shiftRight_eq` and `shiftLeft_eq` say what the loops compute, `insertMapping_eq` and
`removeMapping_eq` what the functions do to a table, and nothing later unfolds them.

* `replay` is the abstract list: ordered insertion and deletion of the first hit, folded over the
  table calls made so far.
* `Maps.Wf` is the invariant of the used part of a table: as many entries as it counts, sorted,
  each valid with one reference, agreeing with `wmapinfo`, and equal to the abstract list. Nothing
  is said of the slots past the count, which can hold stale entries.
* `Maps.Effect` is what a call can do to a table in order (`call_effect`), and `Maps.Effect.wf` says
  that it stays in order.
-/

namespace Xv6Mmap

open Lib
open Function (update update_self update_of_ne)

/-! ## The loops -/

/-- Where `insert_mapping` puts `start` among the first `n` entries: the loop comes down from the
top past every greater entry. -/
def insertIndex (start : Word) (arr : Nat → MemBlock) : Nat → Nat
  | 0 => 0
  | i + 1 => if start < (arr i).start then insertIndex start arr i else i + 1

theorem insertIndex_le (start : Word) (arr : Nat → MemBlock) :
    ∀ n, insertIndex start arr n ≤ n
  | 0 => le_rfl
  | n + 1 => by
    have := insertIndex_le start arr n
    unfold insertIndex
    split <;> omega

variable {start : Word} {arr : Nat → MemBlock}

theorem insertIndex_congr {arr' : Nat → MemBlock} :
    ∀ {n}, (∀ i < n, arr' i = arr i) → insertIndex start arr' n = insertIndex start arr n
  | 0, _ => rfl
  | n + 1, h => by
    unfold insertIndex
    rw [h n (by omega), insertIndex_congr fun i hi => h i (by omega)]

theorem lt_of_insertIndex_le :
    ∀ {n j}, insertIndex start arr n ≤ j → j < n → start < (arr j).start
  | n + 1, j, hle, hlt => by
    unfold insertIndex at hle
    split at hle
    · rename_i hgt
      rcases Nat.lt_succ_iff_lt_or_eq.mp hlt with hj | rfl
      · exact lt_of_insertIndex_le hle hj
      · exact hgt
    · omega

theorem not_lt_of_insertIndex_eq :
    ∀ {n j}, insertIndex start arr n = j + 1 → ¬ start < (arr j).start
  | n + 1, j, h => by
    unfold insertIndex at h
    split at h
    · exact not_lt_of_insertIndex_eq h
    · rename_i hgt
      obtain rfl : n = j := by omega
      exact hgt

/-- Slots `k, …, n - 1` of the table moved up, `leftmostLoadedAddr` left behind. -/
def Maps.opened (m : Maps) (k n : Nat) : Maps :=
  { m with
    arr := shiftUp k n m.arr
    wmapinfo :=
      { m.wmapinfo with
        addr := shiftUp k n m.wmapinfo.addr
        length := shiftUp k n m.wmapinfo.length
        nLoadedPages := shiftUp k n m.wmapinfo.nLoadedPages } }

/-- Slots `k + 1, …, n` of the table moved down. -/
def Maps.closed (m : Maps) (k n : Nat) : Maps :=
  { m with
    arr := shiftDown k n m.arr
    wmapinfo :=
      { m.wmapinfo with
        addr := shiftDown k n m.wmapinfo.addr
        length := shiftDown k n m.wmapinfo.length
        nLoadedPages := shiftDown k n m.wmapinfo.nLoadedPages
        leftmostLoadedAddr := shiftDown k n m.wmapinfo.leftmostLoadedAddr } }

theorem Maps.opened_self (m : Maps) (k : Nat) : m.opened k k = m := by
  simp only [Maps.opened, shiftUp_self]

theorem Maps.closed_self (m : Maps) (k : Nat) : m.closed k k = m := by
  simp only [Maps.closed, shiftDown_self]

theorem shiftRight_eq (start : Word) :
    ∀ (n : Nat) (m : Maps),
      m.shiftRight start n = (insertIndex start m.arr n, m.opened (insertIndex start m.arr n) n)
  | 0, m => by
    rw [Maps.shiftRight, insertIndex, Maps.opened_self]
  | n + 1, m => by
    unfold Maps.shiftRight insertIndex
    split
    · -- the turn writes slot `n + 1`, above everything the rest of the loop reads
      have hidx : insertIndex start (m.copyRight n).arr n = insertIndex start m.arr n :=
        insertIndex_congr fun i hi => update_of_ne (by omega) _ _
      have hle := insertIndex_le start m.arr n
      rw [shiftRight_eq start n, hidx]
      simp only [Maps.opened, Maps.copyRight, shiftUp_step hle]
    · rw [Maps.opened_self]

theorem shiftLeft_eq :
    ∀ (n i : Nat) (m : Maps), m.shiftLeft n i = m.closed i (i + n)
  | 0, i, m => by
    rw [Maps.shiftLeft, Nat.add_zero, Maps.closed_self]
  | n + 1, i, m => by
    rw [Maps.shiftLeft, shiftLeft_eq n]
    have hlt : i < i + 1 + n := by omega
    simp only [Maps.closed, Maps.copyLeft, shiftDown_step hlt]
    rw [Nat.add_right_comm, Nat.add_assoc]

/-! ## The two functions -/

/-- `insert_mapping` on a table with room: open a gap at the right place and fill it. -/
theorem insertMapping_eq {m : Maps} (hroom : m.total ≠ maxWmmapInfo) (rid : Rid)
    (start end_ flags length fd : Word) :
    insertMapping m rid start end_ flags length m.total fd =
      (start, (m.opened (insertIndex start m.arr m.total.toNat) m.total.toNat).place
        (insertIndex start m.arr m.total.toNat) rid start end_ flags length fd) := by
  unfold insertMapping
  rw [if_neg hroom]
  split
  · rename_i hz
    simp only [hz, Int.toNat_zero, insertIndex, Maps.opened_self]
  · rw [shiftRight_eq]

/-- The table `remove_mapping` leaves when it removes slot `k`. -/
def Maps.removed (m : Maps) (addr : Word) (k : Nat) : Maps :=
  (({ m with calls := m.calls ++ [.remove addr] } : Maps).unref k |>.wipe k).closed k 15

theorem removeMapping_eq {m : Maps} {addr : Word} {k : Nat} (hf : m.find addr = some k)
    (href : (m.arr k).ref = 1#32) (hk : k < maxWmmapInfo) :
    removeMapping m addr = (true, m.removed addr k) := by
  have hk15 : k + (maxWmmapInfo - 1 - k) = 15 := by
    unfold maxWmmapInfo at *
    omega
  have hf' : ({ m with calls := m.calls ++ [.remove addr] } : Maps).find addr = some k := hf
  have hzero : 1#32 - 1#32 = 0#32 := by decide
  simp only [removeMapping, hf', Maps.unref, update_self, href, hzero, if_true,
    shiftLeft_eq, hk15, Maps.removed]

variable {i : Nat}

theorem Maps.removed_arr {m : Maps} {addr : Word} {k : Nat} (hi : i < 15) :
    (m.removed addr k).arr i = m.arr (if k ≤ i then i + 1 else i) := by
  rw [← shiftDown_apply hi m.arr]
  exact (shiftDown_update (.inl hi) _ _).trans (shiftDown_update (.inl hi) _ _)

theorem Maps.removed_arr_of_ne {m : Maps} {addr : Word} {k : Nat} (hi : 15 ≤ i) (hne : i ≠ k) :
    (m.removed addr k).arr i = m.arr i := by
  have hshift : shiftDown k 15 m.arr i = m.arr i := if_neg (by omega)
  refine Eq.trans ?_ hshift
  exact (shiftDown_update (.inr hne) _ _).trans (shiftDown_update (.inr hne) _ _)

theorem Maps.removed_valid_self {m : Maps} {addr : Word} :
    ((m.removed addr 15).arr 15).valid = 0#32 := by
  have hwiped : (m.removed addr 15).arr = update (update m.arr 15 _) 15 _ :=
    shiftDown_self 15 _
  rw [hwiped, update_self]

theorem Maps.removed_addr {m : Maps} {addr : Word} {k : Nat} (hi : i < 15) :
    (m.removed addr k).wmapinfo.addr i = m.wmapinfo.addr (if k ≤ i then i + 1 else i) := by
  rw [← shiftDown_apply hi m.wmapinfo.addr]
  exact shiftDown_update (.inl hi) _ _

theorem Maps.removed_length {m : Maps} {addr : Word} {k : Nat} (hi : i < 15) :
    (m.removed addr k).wmapinfo.length i = m.wmapinfo.length (if k ≤ i then i + 1 else i) := by
  rw [← shiftDown_apply hi m.wmapinfo.length]
  exact shiftDown_update (.inl hi) _ _

theorem Maps.find_spec {m : Maps} {addr : Word} {k : Nat} (h : m.find addr = some k) :
    k < maxWmmapInfo ∧ (m.arr k).valid ≠ 0#32 ∧ (m.arr k).start = addr ∧
      ∀ j < k, ¬ ((m.arr j).valid ≠ 0#32 ∧ (m.arr j).start = addr) := by
  unfold Maps.find at h
  rw [List.find?_range_eq_some] at h
  obtain ⟨hk, hlt, hmin⟩ := h
  simp only [Bool.and_eq_true, bne_iff_ne, beq_iff_eq] at hk
  refine ⟨List.mem_range.mp hlt, hk.1, hk.2, fun j hj hboth => ?_⟩
  simpa [hboth] using hmin j hj

/-- A valid slot that starts at `addr` makes `remove_mapping` find one, no later than it. -/
theorem Maps.find_of_valid {m : Maps} {addr : Word} (hi : i < maxWmmapInfo)
    (hv : (m.arr i).valid ≠ 0#32) (hs : (m.arr i).start = addr) :
    ∃ k ≤ i, m.find addr = some k := by
  cases h : m.find addr with
  | none =>
    unfold Maps.find at h
    rw [List.find?_eq_none] at h
    have := h i (List.mem_range.mpr hi)
    simp [hv, hs] at this
  | some k =>
    refine ⟨k, ?_, rfl⟩
    by_contra hlt
    exact (Maps.find_spec h).2.2.2 i (by omega) ⟨hv, hs⟩

/-! ## The abstract list -/

/-- What the table records of a mapping. -/
structure Entry where
  start : Word
  end_ : Word
  flags : Word
  length : Word
  fd : Word
  deriving DecidableEq, Repr

def MemBlock.entry (b : MemBlock) : Entry := ⟨b.start, b.end_, b.flags, b.length, b.fd⟩

/-- `total_mmaps`, as an index bound. -/
def Maps.count (m : Maps) : Nat := m.total.toNat

/-- The used part of the table. -/
def Maps.entries (m : Maps) : List Entry := slots m.count fun i => (m.arr i).entry

/-- A table call on a sorted list: insert before the first entry with a strictly greater start,
or delete the first entry with this start. -/
def TableCall.apply (l : List Entry) : TableCall → List Entry
  | .insert start end_ flags length fd =>
    l.orderedInsert (fun a b => a.start < b.start) ⟨start, end_, flags, length, fd⟩
  | .remove addr => l.eraseP fun b => b.start == addr

/-- The list a sequence of table calls builds. -/
def replay (calls : List TableCall) : List Entry := calls.foldl TableCall.apply []

theorem replay_append (calls : List TableCall) (c : TableCall) :
    replay (calls ++ [c]) = c.apply (replay calls) := by
  simp [replay]

/-- The used part of a table is in order. -/
structure Maps.Wf (m : Maps) : Prop where
  total_eq : m.total = m.count
  count_le : m.count ≤ maxWmmapInfo
  live : ∀ i < m.count, (m.arr i).valid = 1#32 ∧ (m.arr i).ref = 1#32
  sorted : ∀ i j, i ≤ j → j < m.count → (m.arr i).start ≤ (m.arr j).start
  info : ∀ i < m.count,
    m.wmapinfo.addr i = (m.arr i).start ∧ m.wmapinfo.length i = (m.arr i).length
  entries_eq : m.entries = replay m.calls

theorem Maps.wf_init : Maps.init.Wf where
  total_eq := rfl
  count_le := Nat.zero_le _
  live i hi := absurd hi (Nat.not_lt_zero i)
  sorted _ j _ hj := absurd hj (Nat.not_lt_zero j)
  info i hi := absurd hi (Nat.not_lt_zero i)
  entries_eq := rfl

variable {m' : Maps}

theorem Maps.Wf.sameTable {m : Maps} (h : m.Wf) (hs : m.SameTable m') : m'.Wf := by
  obtain ⟨harr, htotal, haddr, hlength, hcalls⟩ := hs
  have hcount : m'.count = m.count := congrArg Int.toNat htotal
  constructor
  · rw [htotal, hcount, h.total_eq]
  · rw [hcount]
    exact h.count_le
  · rw [harr, hcount]
    exact h.live
  · rw [harr, hcount]
    exact h.sorted
  · rw [harr, hcount, haddr, hlength]
    exact h.info
  · rw [Maps.entries, harr, hcount, hcalls]
    exact h.entries_eq

/-! ## Insertion and removal keep the invariant -/

/-- The slot `insert_mapping` fills. -/
def Entry.block (e : Entry) (rid : Rid) : MemBlock :=
  ⟨e.start, e.end_, e.flags, e.length, e.fd, 1#32, 1#32, rid⟩

/-- Where an entry goes. -/
def Maps.slotFor (m : Maps) (e : Entry) : Nat := insertIndex e.start m.arr m.count

/-- The table after an insertion. -/
def Maps.inserted (m : Maps) (rid : Rid) (e : Entry) : Maps :=
  (m.opened (m.slotFor e) m.count).place (m.slotFor e) rid e.start e.end_ e.flags e.length e.fd

theorem insertMapping_inserted {m : Maps} (hroom : m.total ≠ maxWmmapInfo) (rid : Rid)
    (start end_ flags length fd : Word) :
    insertMapping m rid start end_ flags length m.total fd
      = (start, m.inserted rid ⟨start, end_, flags, length, fd⟩) :=
  insertMapping_eq hroom rid start end_ flags length fd

section Inserted

variable {m : Maps} {rid : Rid} {e : Entry}

theorem Maps.slotFor_le : m.slotFor e ≤ m.count := insertIndex_le ..

variable {i : Nat}

theorem Maps.inserted_arr_of_ne (hi : i ≤ m.count) (hne : i ≠ m.slotFor e) :
    (m.inserted rid e).arr i = m.arr (if m.slotFor e < i then i - 1 else i) :=
  update_shiftUp_apply hi hne _ _

theorem Maps.inserted_arr_self : (m.inserted rid e).arr (m.slotFor e) = e.block rid :=
  update_self ..

theorem Maps.inserted_arr_above (hi : m.count < i) :
    (m.inserted rid e).arr i = m.arr i := by
  have hle : m.slotFor e ≤ m.count := Maps.slotFor_le
  refine (update_of_ne (by omega) _ _).trans ?_
  exact if_neg (by omega)

theorem Maps.Wf.count_inserted (h : m.Wf) : (m.inserted rid e).count = m.count + 1 := by
  have htotal : (m.inserted rid e).total = m.total + 1 := rfl
  rw [Maps.count, htotal, h.total_eq]
  omega

theorem Maps.Wf.le_of_lt_slotFor (h : m.Wf) (hi : i < m.slotFor e) :
    (m.arr i).start ≤ e.start := by
  have hle : m.slotFor e ≤ m.count := Maps.slotFor_le
  obtain ⟨j, hj⟩ : ∃ j, m.slotFor e = j + 1 := ⟨_, (Nat.succ_pred (by omega)).symm⟩
  have hsort := h.sorted i j (by omega) (by omega)
  have := not_lt_of_insertIndex_eq hj
  bv_omega

theorem Maps.lt_of_slotFor_le (hi : m.slotFor e ≤ i) (hlt : i < m.count) :
    e.start < (m.arr i).start :=
  lt_of_insertIndex_le hi hlt

theorem Maps.Wf.entries_inserted (h : m.Wf) :
    (m.inserted rid e).entries = m.entries.orderedInsert (fun a b => a.start < b.start) e := by
  rw [Maps.entries, h.count_inserted, ← slots_map, Maps.inserted, Maps.place]
  dsimp only [Maps.opened]
  rw [slots_update_shiftUp Maps.slotFor_le, List.map_insertIdx, slots_map]
  apply insertIdx_eq_orderedInsert
  · simpa using Maps.slotFor_le
  · intro i hi hlt
    have := h.le_of_lt_slotFor hlt
    rw [getElem_slots]
    change ¬ e.start < (m.arr i).start
    bv_omega
  · intro hlt
    rw [getElem_slots]
    exact Maps.lt_of_slotFor_le le_rfl (by simpa using hlt)

theorem Maps.Wf.sorted_inserted (h : m.Wf) {j : Nat} (hij : i ≤ j) (hj : j ≤ m.count) :
    ((m.inserted rid e).arr i).start ≤ ((m.inserted rid e).arr j).start := by
  have hk : m.slotFor e ≤ m.count := Maps.slotFor_le
  by_cases hi' : i = m.slotFor e
  · subst hi'
    by_cases hj' : j = m.slotFor e
    · rw [hj']
      exact BitVec.le_refl _
    · rw [Maps.inserted_arr_self, Maps.inserted_arr_of_ne hj hj', if_pos (by omega)]
      have := Maps.lt_of_slotFor_le (m := m) (e := e) (i := j - 1) (by omega) (by omega)
      change e.start ≤ _
      bv_omega
  · rw [Maps.inserted_arr_of_ne (by omega) hi']
    by_cases hj' : j = m.slotFor e
    · subst hj'
      rw [Maps.inserted_arr_self, if_neg (by omega)]
      exact h.le_of_lt_slotFor (by omega)
    · rw [Maps.inserted_arr_of_ne hj hj']
      apply h.sorted
      · split <;> split <;> omega
      · split <;> omega

theorem Maps.Wf.inserted (h : m.Wf) (hroom : m.total ≠ maxWmmapInfo) :
    (m.inserted rid e).Wf := by
  have hcount : (m.inserted rid e).count = m.count + 1 := h.count_inserted
  have hle := h.count_le
  have heq := h.total_eq
  constructor
  · change m.total + 1 = _
    omega
  · omega
  · intro i hi
    by_cases hik : i = m.slotFor e
    · subst hik
      rw [Maps.inserted_arr_self]
      exact ⟨rfl, rfl⟩
    · rw [Maps.inserted_arr_of_ne (by omega) hik]
      apply h.live
      have : m.slotFor e ≤ m.count := Maps.slotFor_le
      split <;> omega
  · intro i j hij hj
    exact h.sorted_inserted hij (by omega)
  · intro i hi
    by_cases hik : i = m.slotFor e
    · subst hik
      rw [Maps.inserted_arr_self]
      exact ⟨update_self .., update_self ..⟩
    rw [Maps.inserted_arr_of_ne (by omega) hik]
    have hle' : i ≤ m.count := by omega
    have haddr : (m.inserted rid e).wmapinfo.addr i
        = m.wmapinfo.addr (if m.slotFor e < i then i - 1 else i) :=
      update_shiftUp_apply hle' hik _ _
    have hlen : (m.inserted rid e).wmapinfo.length i
        = m.wmapinfo.length (if m.slotFor e < i then i - 1 else i) :=
      update_shiftUp_apply hle' hik _ _
    rw [haddr, hlen]
    apply h.info
    have : m.slotFor e ≤ m.count := Maps.slotFor_le
    split <;> omega
  · have hcalls : (m.inserted rid e).calls
        = m.calls ++ [.insert e.start e.end_ e.flags e.length e.fd] := rfl
    rw [h.entries_inserted, hcalls, replay_append, h.entries_eq]
    rfl

end Inserted

section Removed

variable {m : Maps} {addr : Word} {k : Nat}

/-- On the used part of a table `remove_mapping` finds the first entry that starts at `addr`. -/
theorem Maps.Wf.find_eq (h : m.Wf) {i : Nat} (hi : i < m.count) (hs : (m.arr i).start = addr) :
    ∃ k ≤ i, m.find addr = some k ∧ (m.arr k).start = addr ∧
      ∀ j < k, (m.arr j).start ≠ addr := by
  have hlive : ∀ j < m.count, (m.arr j).valid ≠ 0#32 := fun j hj => by
    rw [(h.live j hj).1]
    decide
  obtain ⟨k, hki, hf⟩ := Maps.find_of_valid (by have := h.count_le; omega) (hlive i hi) hs
  obtain ⟨-, -, hstart, hmin⟩ := Maps.find_spec hf
  refine ⟨k, hki, hf, hstart, fun j hj heq => ?_⟩
  exact hmin j hj ⟨hlive j (by omega), heq⟩

/-- `remove_mapping` of an address where a counted entry starts removes the first such entry. -/
theorem Maps.Wf.removeMapping_eq (h : m.Wf) {i : Nat} (hi : i < m.count)
    (hs : (m.arr i).start = addr) :
    ∃ k < m.count, k ≤ i ∧ (m.arr k).start = addr ∧ (∀ j < k, (m.arr j).start ≠ addr) ∧
      removeMapping m addr = (true, m.removed addr k) := by
  obtain ⟨k, hki, hf, hstart, hmin⟩ := h.find_eq hi hs
  have hk : k < m.count := by omega
  refine ⟨k, hk, hki, hstart, hmin, ?_⟩
  exact Xv6Mmap.removeMapping_eq hf (h.live k hk).2 (by have := h.count_le; omega)

theorem Maps.Wf.count_removed (h : m.Wf) (hk : k < m.count) :
    (m.removed addr k).count + 1 = m.count := by
  have htotal : (m.removed addr k).total = m.total - 1 := rfl
  rw [Maps.count, htotal, h.total_eq]
  omega

theorem Maps.Wf.entries_removed (h : m.Wf) (hk : k < m.count) (hs : (m.arr k).start = addr)
    (hmin : ∀ j < k, (m.arr j).start ≠ addr) :
    (m.removed addr k).entries = m.entries.eraseP fun b => b.start == addr := by
  have hcount : (m.removed addr k).count + 1 = m.count := h.count_removed hk
  have hle : m.count ≤ 16 := h.count_le
  have hslots : (m.removed addr k).entries
      = slots (m.removed addr k).count (shiftDown k 15 fun i => (m.arr i).entry) := by
    refine slots_congr fun i hi => ?_
    rw [Maps.removed_arr (by omega), shiftDown_apply (by omega)]
  rw [hslots, slots_shiftDown (by omega) (by omega), hcount]
  refine eraseIdx_eq_eraseP _ _ _ (by simpa using hk) ?_ ?_
  · rw [getElem_slots]
    simpa [MemBlock.entry] using hs
  · intro i hi hik
    rw [getElem_slots]
    simpa [MemBlock.entry] using hmin i hik

theorem Maps.Wf.removed (h : m.Wf) (hk : k < m.count) (hs : (m.arr k).start = addr)
    (hmin : ∀ j < k, (m.arr j).start ≠ addr) : (m.removed addr k).Wf := by
  have hcount : (m.removed addr k).count + 1 = m.count := h.count_removed hk
  have hle : m.count ≤ 16 := h.count_le
  have heq := h.total_eq
  constructor
  · change m.total - 1 = _
    omega
  · unfold maxWmmapInfo
    omega
  · intro i hi
    rw [Maps.removed_arr (by omega)]
    apply h.live
    split <;> omega
  · intro i j hij hj
    rw [Maps.removed_arr (by omega), Maps.removed_arr (by omega)]
    apply h.sorted
    · split <;> split <;> omega
    · split <;> omega
  · intro i hi
    rw [Maps.removed_arr (by omega), Maps.removed_addr (by omega), Maps.removed_length (by omega)]
    apply h.info
    split <;> omega
  · have hcalls : (m.removed addr k).calls = m.calls ++ [.remove addr] := rfl
    rw [h.entries_removed hk hs hmin, hcalls, replay_append, h.entries_eq]
    rfl

end Removed

/-! ## Used slots

A property of every used slot, stale ones included, needs no sortedness: an insertion and a removal
only copy slots, and fill or wipe one. -/

/-- Every used slot satisfies `Q`. -/
def Maps.ForUsed (Q : MemBlock → Prop) (m : Maps) : Prop :=
  ∀ i < maxWmmapInfo, (m.arr i).valid ≠ 0#32 → Q (m.arr i)

section ForUsed

variable {Q : MemBlock → Prop} {m : Maps}

theorem Maps.ForUsed.inserted {rid : Rid} {e : Entry} (hwf : m.Wf) (h : m.ForUsed Q)
    (he : Q (e.block rid)) : (m.inserted rid e).ForUsed Q := by
  have hle := hwf.count_le
  intro i hi hv
  by_cases hi' : i ≤ m.count
  · by_cases hne : i = m.slotFor e
    · rw [hne, Maps.inserted_arr_self]
      exact he
    · rw [Maps.inserted_arr_of_ne hi' hne] at hv ⊢
      exact h _ (by split <;> omega) hv
  · rw [Maps.inserted_arr_above (by omega)] at hv ⊢
    exact h i hi hv

theorem Maps.ForUsed.removed {addr : Word} {k : Nat} (h : m.ForUsed Q) :
    (m.removed addr k).ForUsed Q := by
  intro i hi hv
  have hi' : i < 16 := hi
  by_cases hi15 : i < 15
  · rw [Maps.removed_arr hi15] at hv ⊢
    exact h _ (by unfold maxWmmapInfo; split <;> omega) hv
  · obtain rfl : i = 15 := by omega
    by_cases hk : k = 15
    · subst hk
      exact absurd Maps.removed_valid_self hv
    · rw [Maps.removed_arr_of_ne (by omega) (by omega)] at hv ⊢
      exact h 15 hi hv

theorem Maps.ForUsed.sameTable {m' : Maps} (h : m.ForUsed Q) (hs : m.SameTable m') :
    m'.ForUsed Q := by
  unfold Maps.ForUsed
  rw [hs.arr]
  exact h

theorem Maps.ForUsed.mono {R : MemBlock → Prop} (h : m.ForUsed Q) (hQR : ∀ b, Q b → R b) :
    m.ForUsed R :=
  fun i hi hv => hQR _ (h i hi hv)

theorem Maps.forUsed_init : Maps.init.ForUsed Q := fun _ _ hv => absurd rfl hv

end ForUsed

/-! ## The calls on a table in order -/

theorem sysWmap_wf (pid : Nat) (m : Maps) (addr length flags fd : Word) :
    sysWmap pid m addr length flags fd = (failed, m) ∨
      (1 ≤ length.toInt ∧ m.total ≠ maxWmmapInfo ∧
        (hasFlag flags mapFixed = true → m.fixedFits addr length) ∧
        sysWmap pid m addr length flags fd
          = (m.wmapStart addr length flags,
              m.inserted (pid, m.calls.length)
                ⟨m.wmapStart addr length flags,
                  m.wmapStart addr length flags + pgRoundUp length - 1#32, flags, length, fd⟩)) := by
  obtain h | ⟨hlen, hroom, hfix, h⟩ := sysWmap_cases pid m addr length flags fd
  · exact .inl h
  · exact .inr ⟨hlen, hroom, hfix, h.trans (insertMapping_inserted hroom ..)⟩

/-- The first slot that starts at `addr`. -/
def Maps.FirstAt (m : Maps) (addr : Word) (k : Nat) : Prop :=
  k < m.count ∧ (m.arr k).start = addr ∧ ∀ j < k, (m.arr j).start ≠ addr

theorem Maps.FirstAt.eq {m : Maps} {addr : Word} {k l : Nat} (hk : m.FirstAt addr k)
    (hl : m.FirstAt addr l) : k = l := by
  rcases Nat.lt_trichotomy k l with h | h | h
  · exact absurd hk.2.1 (hl.2.2 k h)
  · exact h
  · exact absurd hl.2.1 (hk.2.2 l h)

theorem Maps.FirstAt.sameTable {m : Maps} {addr : Word} {k : Nat} (hk : m.FirstAt addr k)
    (hs : m.SameTable m') : m'.FirstAt addr k := by
  have hcount : m'.count = m.count := congrArg Int.toNat hs.total
  unfold Maps.FirstAt
  rw [hs.arr, hcount]
  exact hk

theorem Maps.Wf.removeMapping_first {m : Maps} {addr : Word} {k : Nat} (h : m.Wf)
    (hk : m.FirstAt addr k) : removeMapping m addr = (true, m.removed addr k) := by
  obtain ⟨l, hl, -, hs, hmin, heq⟩ := h.removeMapping_eq hk.1 hk.2.1
  rw [hk.eq ⟨hl, hs, hmin⟩]
  exact heq

theorem Maps.Wf.removed_first {m : Maps} {addr : Word} {k : Nat} (h : m.Wf)
    (hk : m.FirstAt addr k) : (m.removed addr k).Wf :=
  h.removed hk.1 hk.2.1 hk.2.2

/-- `sys_wunmap` on a table in order removes the first entry that starts at the address. -/
theorem sysWunmap_wf {k k' : Kmem} {p p' : Proc} {addr r : Word} {io : FileIo} (hwf : p.maps.Wf)
    (h : sysWunmap k p addr io = .ok (r, k', p')) :
    (r = failed ∧ k' = k ∧ p' = p) ∨
      ∃ location k1 p1 d,
        addr.toNat % 4096 = 0 ∧ p.maps.FirstAt addr location ∧
        writeBack k p (p.maps.arr location) io = .ok (k1, p1) ∧ p.maps.SameTable p1.maps ∧
        unmapLoop (p1.maps.unmapBound location) 1048577 k1 p1.pgdir (p1.maps.unmapFrom location)
          = .ok (k', d) ∧
        r = success ∧ p' = { p1 with pgdir := d, maps := p1.maps.removed addr location } := by
  obtain h | ⟨location, k1, p1, d, hal, hfind, hw, hu, hr, hp'⟩ := sysWunmap_cases h
  · exact .inl h
  · have hfirst : p.maps.FirstAt addr location := Maps.findStart_spec hfind
    have hsame : p.maps.SameTable p1.maps :=
      writeBack_sameTable (by rw [hfirst.2.1]; exact hal) hw
    have hrem := (hwf.sameTable hsame).removeMapping_first (hfirst.sameTable hsame)
    rw [hrem] at hr hp'
    exact .inr ⟨location, k1, p1, d, hal, hfirst, hw, hsame, hu, hr, hp'⟩

theorem Maps.Wf.reinsert_eq {m : Maps} {addr end_ newsize : Word} {k : Nat} (h : m.Wf)
    (hk : m.FirstAt addr k) (old : MemBlock) :
    m.reinsert addr start end_ newsize old
      = (start, (m.removed addr k).inserted old.rid ⟨start, end_, old.flags, newsize, old.fd⟩) := by
  have hcount : (m.removed addr k).count + 1 = m.count := h.count_removed hk.1
  have hle := h.count_le
  have htotal := (h.removed_first hk).total_eq
  unfold Maps.reinsert
  rw [h.removeMapping_first hk]
  exact insertMapping_inserted (by omega) ..

/-- `sys_wremap` on a table in order fails, or replaces the first entry that starts at the
address. -/
theorem sysWremap_wf {m : Maps} (h : m.Wf) (oob : MemBlock) (oldaddr oldsize newsize flag : Word) :
    sysWremap m oob oldaddr oldsize newsize flag = (failed, m) ∨
      ∃ k, oldaddr.toNat % 4096 = 0 ∧ m.FirstAt oldaddr k ∧
        ((m.remapsInPlace oob k (oldaddr + pgRoundUp newsize) ∧
            sysWremap m oob oldaddr oldsize newsize flag
              = (oldaddr, (m.removed oldaddr k).inserted (m.arr k).rid
                  ⟨oldaddr, oldaddr + pgRoundUp newsize - 1#32, (m.arr k).flags, newsize,
                    (m.arr k).fd⟩)) ∨
          (m.remapsElsewhere oob k (oldaddr + pgRoundUp newsize) flag ∧
            sysWremap m oob oldaddr oldsize newsize flag
              = (leftmostAddr (m.removed oldaddr k).arr (pgRoundUp newsize),
                  (m.removed oldaddr k).inserted (m.arr k).rid
                    ⟨leftmostAddr (m.removed oldaddr k).arr (pgRoundUp newsize),
                      leftmostAddr (m.removed oldaddr k).arr (pgRoundUp newsize)
                        + pgRoundUp newsize - 1#32 - 1#32,
                      (m.arr k).flags, newsize, (m.arr k).fd⟩))) := by
  obtain heq | ⟨k, hal, hfind, hcase⟩ := sysWremap_cases m oob oldaddr oldsize newsize flag
  · exact .inl heq
  · obtain ⟨hlt, -, hs, hmin⟩ := Maps.findLive_spec hfind
    have hk : m.FirstAt oldaddr k := by
      refine ⟨hlt, hs, fun j hj hsj => hmin j hj ⟨(h.live j ?_).1, hsj⟩⟩
      exact lt_trans hj hlt
    rw [h.removeMapping_first hk] at hcase
    simp only [h.reinsert_eq hk] at hcase
    exact .inr ⟨k, hal, hk, hcase⟩

/-- What a call of a process with pid `pid` does to its table `m`, when that is in order. -/
inductive Maps.Effect (pid : Nat) (m : Maps) : Call → Maps → Prop where
  /-- A fault, or a call that fails. -/
  | same {c : Call} {m' : Maps} (h : m.SameTable m') : Effect pid m c m'
  | wmap {addr length flags fd : Word} (hlen : 1 ≤ length.toInt)
      (hroom : m.total ≠ maxWmmapInfo)
      (hfix : hasFlag flags mapFixed = true → m.fixedFits addr length) :
      Effect pid m (.wmap addr length flags fd)
        (m.inserted (pid, m.calls.length)
          ⟨m.wmapStart addr length flags, m.wmapStart addr length flags + pgRoundUp length - 1#32,
            flags, length, fd⟩)
  /-- The write-back can load pages before the entry goes. -/
  | wunmap {addr : Word} {io : FileIo} {l : Nat} {m₁ : Maps} (hal : addr.toNat % 4096 = 0)
      (hl : m.FirstAt addr l) (hsame : m.SameTable m₁) :
      Effect pid m (.wunmap addr io) (m₁.removed addr l)
  | remap {oldaddr oldsize newsize flag : Word} {oob : MemBlock} {l : Nat}
      (hal : oldaddr.toNat % 4096 = 0) (hl : m.FirstAt oldaddr l)
      (hin : m.remapsInPlace oob l (oldaddr + pgRoundUp newsize)) :
      Effect pid m (.wremap oldaddr oldsize newsize flag oob)
        ((m.removed oldaddr l).inserted (m.arr l).rid
          ⟨oldaddr, oldaddr + pgRoundUp newsize - 1#32, (m.arr l).flags, newsize, (m.arr l).fd⟩)
  | move {oldaddr oldsize newsize flag : Word} {oob : MemBlock} {l : Nat}
      (hal : oldaddr.toNat % 4096 = 0) (hl : m.FirstAt oldaddr l)
      (hout : m.remapsElsewhere oob l (oldaddr + pgRoundUp newsize) flag) :
      Effect pid m (.wremap oldaddr oldsize newsize flag oob)
        ((m.removed oldaddr l).inserted (m.arr l).rid
          ⟨leftmostAddr (m.removed oldaddr l).arr (pgRoundUp newsize),
            leftmostAddr (m.removed oldaddr l).arr (pgRoundUp newsize)
              + pgRoundUp newsize - 1#32 - 1#32,
            (m.arr l).flags, newsize, (m.arr l).fd⟩)

variable {c : Call}

theorem call_effect {k k' : Kmem} {p p' : Proc} {r : Word} (h : p.maps.Wf)
    (hc : call k p c = .ok (r, k', p')) : p.maps.Effect p.pid c p'.maps := by
  cases c with
  | wmap addr length flags fd =>
    obtain ⟨-, -, rfl⟩ := call_wmap hc
    obtain heq | ⟨hlen, hroom, hfix, heq⟩ := sysWmap_wf p.pid p.maps addr length flags fd
    · simp only [heq]
      exact .same (.refl _)
    · simp only [heq]
      exact .wmap hlen hroom hfix
  | wunmap addr io =>
    obtain ⟨-, -, rfl⟩ | ⟨l, k1, p1, d, hal, hl, -, hsame, -, -, rfl⟩ := sysWunmap_wf h hc
    · exact .same (.refl _)
    · exact .wunmap hal hl hsame
  | wremap oldaddr oldsize newsize flag oob =>
    obtain ⟨-, -, rfl⟩ := call_wremap hc
    obtain heq | ⟨l, hal, hl, ⟨hin, heq⟩ | ⟨hout, heq⟩⟩ :=
      sysWremap_wf h oob oldaddr oldsize newsize flag
    · simp only [heq]
      exact .same (.refl _)
    · simp only [heq]
      exact .remap hal hl hin
    · simp only [heq]
      exact .move hal hl hout
  | fault va io => exact .same (pgflt_sameTable (call_fault hc))

theorem Maps.Wf.reinserted {m : Maps} {addr : Word} {k : Nat} {rid : Rid} {e : Entry} (h : m.Wf)
    (hk : m.FirstAt addr k) : ((m.removed addr k).inserted rid e).Wf := by
  have hcount : (m.removed addr k).count + 1 = m.count := h.count_removed hk.1
  have hle := h.count_le
  have htotal := (h.removed_first hk).total_eq
  exact (h.removed_first hk).inserted (by omega)

variable {pid : Nat}

theorem Maps.Effect.wf {m : Maps} (h : m.Wf) (he : m.Effect pid c m') :
    m'.Wf := by
  cases he with
  | same hs => exact h.sameTable hs
  | wmap _ hroom _ => exact h.inserted hroom
  | wunmap _ hl hs => exact (h.sameTable hs).removed_first (hl.sameTable hs)
  | remap _ hl _ => exact h.reinserted hl
  | move _ hl _ => exact h.reinserted hl

theorem Maps.calls_inserted (m : Maps) (rid : Rid) (e : Entry) :
    (m.inserted rid e).calls = m.calls ++ [.insert e.start e.end_ e.flags e.length e.fd] := rfl

theorem Maps.calls_removed (m : Maps) (addr : Word) (k : Nat) :
    (m.removed addr k).calls = m.calls ++ [.remove addr] := rfl

theorem Maps.Effect.calls_le {m : Maps} (he : m.Effect pid c m') :
    m.calls.length ≤ m'.calls.length := by
  cases he with
  | same hs => rw [hs.calls]
  | wmap _ _ _ => simp [Maps.calls_inserted]
  | wunmap _ _ hs => simp [Maps.calls_removed, hs.calls]
  | remap _ _ _ =>
    rw [Maps.calls_inserted, Maps.calls_removed]
    simp
  | move _ _ _ =>
    rw [Maps.calls_inserted, Maps.calls_removed]
    simp

/-- A property of used slots that a new mapping has, and that does not depend on the interval. -/
theorem Maps.Effect.forUsed {Q : MemBlock → Prop} {m : Maps} (hwf : m.Wf)
    (h : m.ForUsed Q) (he : m.Effect pid c m')
    (hwmap : ∀ addr length flags fd start end_, c = .wmap addr length flags fd →
      m.calls.length < m'.calls.length →
      Q ⟨start, end_, flags, length, fd, 1#32, 1#32, (pid, m.calls.length)⟩)
    (hremap : ∀ b start end_ length, Q b →
      Q ⟨start, end_, b.flags, length, b.fd, 1#32, 1#32, b.rid⟩) : m'.ForUsed Q := by
  have hold : ∀ {addr l}, m.FirstAt addr l → Q (m.arr l) := fun hl =>
    h _ (lt_of_lt_of_le hl.1 hwf.count_le) (by rw [(hwf.live _ hl.1).1]; decide)
  cases he with
  | same hs => exact h.sameTable hs
  | @wmap addr length flags fd _ _ _ =>
    exact h.inserted hwf (hwmap addr length flags fd _ _ rfl (by simp [Maps.calls_inserted]))
  | wunmap _ _ hs => exact (h.sameTable hs).removed
  | remap _ hl _ =>
    exact Maps.ForUsed.inserted (hwf.removed_first hl) h.removed (hremap _ _ _ _ (hold hl))
  | move _ hl _ =>
    exact Maps.ForUsed.inserted (hwf.removed_first hl) h.removed (hremap _ _ _ _ (hold hl))

end Xv6Mmap
