import Xv6Mmap.Bio
import Xv6Mmap.Lib.Linked

/-!
# The list of buffers (`bio.c:38-93, 120-141`)

`Bcache` has the buffers in a list. Here they are linked through `next` and `prev` as in `bio.c`:
`binit` and `brelse` assign the pointers one by one, and the scans of `bget` follow them, with `fuel`
for their turns. The list is left as a ghost, and so are the times at which buffers were last
released by everybody.

* `Sorted.step`: the pointers make a ring of the buffers of that list, the last released first, and
  a step is one of `Bcache`.
* **`lru_list`**: the list has every buffer once, `prev` is the inverse of `next`, and a miss takes
  the unused buffer that was released first.
-/

namespace Xv6Mmap

open Lib
open Function (update update_self update_of_ne)

/-- The cache, with its links. -/
structure LinkedCache (ι : Type) where
  /-- The field `list` is never read. -/
  cache : Bcache ι
  links : Links (Fin nbuf)
  /-- The time of the last `brelse` that left `refcnt` zero, or zero. -/
  released : Fin nbuf → Nat
  clock : Nat

namespace LinkedCache

variable {ι : Type} [DecidableEq ι]

/-- `binit()`, whatever the links are before. -/
def init (ι : Type) (k : Links (Fin nbuf)) : LinkedCache ι where
  cache := binit ι
  links := (List.finRange nbuf).foldl Links.pushFront ((k.setPrev none none).setNext none none)
  released _ := 0
  clock := 0

/-- `bget(dev, blockno)` up to its `release`. A scan that does not return is a `deadlock`. -/
def bget (s : LinkedCache ι) (i : ι) (dev blockno : Word) : Except Halt (LinkedCache ι) :=
  let buf := s.cache.buf
  match scan s.links.next (fun b => (buf b).dev == dev && (buf b).blockno == blockno) (nbuf + 1)
    (s.links.next none) with
  | none => .error .deadlock
  | some (some b) =>
    .ok { s with cache :=
      (s.cache.setBuf b { buf b with refcnt := (buf b).refcnt + 1 }).goto i (.acquiring b) }
  | some none =>
    match scan s.links.prev (fun b => (buf b).refcnt == 0 && !(buf b).dirty) (nbuf + 1)
      (s.links.prev none) with
    | none => .error .deadlock
    | some (some b) =>
      .ok { s with cache :=
        (s.cache.setBuf b ⟨dev, blockno, false, false, 1, (buf b).holder⟩).goto i (.acquiring b) }
    | some none => .error (.panic "bget: no buffers")

/-- `brelse(b)` from its `acquire` on. -/
def brelseUnref (s : LinkedCache ι) (i : ι) (b : Fin nbuf) : LinkedCache ι :=
  let cache := s.cache.brelseUnref i b
  if (cache.buf b).refcnt = 0 then
    { cache, links := (s.links.unlink b).pushFront b
      released := update s.released b (s.clock + 1), clock := s.clock + 1 }
  else { s with cache }

/-- A step of the cache. -/
def step (s : LinkedCache ι) : BioAction ι → Except Halt (LinkedCache ι)
  | .bget i dev blockno =>
    match s.cache.pc i with
    | .running => s.bget i dev blockno
    | _ => .error .blocked
  | .brelseUnref i =>
    match s.cache.pc i with
    | .releasing b => .ok (s.brelseUnref i b)
    | _ => .error .blocked
  | a => (s.cache.step a).map fun cache => { s with cache }

/-- The links are those of the list, which has every buffer, the last released first. -/
structure Sorted (s : LinkedCache ι) : Prop where
  ring : Circular s.links s.cache.list
  perm : s.cache.list.Perm (List.finRange nbuf)
  order : s.cache.list.Pairwise fun b c => s.released c ≤ s.released b
  past : ∀ b, s.released b ≤ s.clock

omit [DecidableEq ι] in
theorem Sorted.nodup {s : LinkedCache ι} (h : s.Sorted) : s.cache.list.Nodup :=
  h.perm.nodup_iff.mpr (List.nodup_finRange nbuf)

theorem ring_foldl {k : Links (Fin nbuf)} : ∀ {bs xs : List (Fin nbuf)}, Circular k xs →
    (bs.reverse ++ xs).Nodup → Circular (bs.foldl Links.pushFront k) (bs.reverse ++ xs) := by
  intro bs
  induction bs generalizing k with
  | nil => exact fun h _ => h
  | cons b bs ih =>
    intro xs h hnd
    rw [List.reverse_cons, List.append_assoc] at hnd ⊢
    have hrest := List.nodup_cons.mp (List.nodup_append.mp hnd).2.1
    exact ih (h.pushFront hrest.2 hrest.1) hnd

omit [DecidableEq ι] in
theorem sorted_init (k : Links (Fin nbuf)) : (init ι k).Sorted where
  ring := by
    have hring := ring_foldl (ring_nil k) (show ((List.finRange nbuf).reverse ++ []).Nodup by
      rw [List.append_nil]
      exact List.nodup_reverse.mpr (List.nodup_finRange nbuf))
    rwa [List.append_nil] at hring
  perm := List.reverse_perm _
  order := List.pairwise_of_forall fun _ _ => le_rfl
  past _ := le_rfl

variable {s s' : LinkedCache ι}

theorem Sorted.bget_eq (h : s.Sorted) (i : ι) (dev blockno : Word) :
    s.bget i dev blockno = (s.cache.bget i dev blockno).map fun cache => { s with cache } := by
  have hlen : s.cache.list.length < nbuf + 1 := by
    rw [h.perm.length_eq, List.length_finRange]
    exact Nat.lt_succ_self _
  unfold bget Bcache.bget Bcache.lookup Bcache.victim
  simp only [h.ring.scan_next _ hlen, h.ring.scan_prev _ hlen]
  split
  case h_1 hx => cases hx
  case h_2 b hb =>
    rw [Option.some.inj hb]
    rfl
  case h_3 hnone =>
    rw [Option.some.inj hnone]
    dsimp only
    split
    case h_1 hx => cases hx
    case h_2 b hb =>
      rw [Option.some.inj hb]
      rfl
    case h_3 hv =>
      rw [Option.some.inj hv]
      rfl

/-- A buffer that nobody uses any more moves to the front. -/
theorem Sorted.brelseUnref (h : s.Sorted) (i : ι) (b : Fin nbuf) : (s.brelseUnref i b).Sorted := by
  have hcount : ((s.cache.brelseUnref i b).buf b).refcnt = (s.cache.buf b).refcnt - 1 := by
    show (update s.cache.buf b { s.cache.buf b with refcnt := _ } b).refcnt = _
    rw [update_self]
  have hlist : (s.cache.brelseUnref i b).list = if (s.cache.buf b).refcnt - 1 = 0
      then b :: s.cache.list.erase b else s.cache.list := rfl
  have hmem : b ∈ s.cache.list := h.perm.mem_iff.mpr (List.mem_finRange b)
  unfold LinkedCache.brelseUnref
  simp only [hcount]
  split
  case isTrue hzero =>
    rw [if_pos hzero] at hlist
    have hperm := List.perm_cons_erase hmem
    have hold : ∀ c ∈ s.cache.list.erase b, update s.released b (s.clock + 1) c = s.released c :=
      fun c hc => update_of_ne (h.nodup.mem_erase_iff.mp hc).1 ..
    constructor
    case ring =>
      rw [hlist]
      exact h.ring.toFront h.nodup hmem
    case perm =>
      rw [hlist]
      exact hperm.symm.trans h.perm
    case order =>
      rw [hlist, List.pairwise_cons]
      refine ⟨fun c hc => ?_, (h.order.sublist List.erase_sublist).imp_of_mem fun hx hy hle => ?_⟩
      · simp only [hold c hc, update_self]
        exact Nat.le_succ_of_le (h.past c)
      · simpa only [hold _ hx, hold _ hy] using hle
    case past =>
      intro c
      show update s.released b (s.clock + 1) c ≤ s.clock + 1
      by_cases hc : c = b
      · rw [hc, update_self]
      · rw [update_of_ne hc]
        exact Nat.le_succ_of_le (h.past c)
  case isFalse hpos =>
    rw [if_neg hpos] at hlist
    exact ⟨hlist ▸ h.ring, hlist ▸ h.perm, hlist ▸ h.order, h.past⟩

theorem Sorted.step_eq (h : s.Sorted) {a : BioAction ι} (ha : ∀ i, a ≠ .brelseUnref i) :
    s.step a = (s.cache.step a).map fun cache => { s with cache } := by
  cases a with
  | brelseUnref i => exact absurd rfl (ha i)
  | bget i dev blockno =>
    rw [LinkedCache.step, Bcache.step]
    cases s.cache.pc i with
    | running => exact h.bget_eq i dev blockno
    | _ => rfl
  | _ => rfl

theorem Sorted.step (h : s.Sorted) {a : BioAction ι} (hs : s.step a = .ok s') :
    s.cache.step a = .ok s'.cache ∧ s'.Sorted := by
  by_cases ha : ∀ i, a ≠ .brelseUnref i
  · rw [h.step_eq ha] at hs
    cases hc : s.cache.step a with
    | error e => simp [hc, Except.map] at hs
    | ok cache =>
      simp only [hc, Except.map, Except.ok.injEq] at hs
      subst hs
      have hlist := (Bcache.step_keeps hc).1 ha
      exact ⟨rfl, hlist ▸ h.ring, hlist ▸ h.perm, hlist ▸ h.order, h.past⟩
  · obtain ⟨i, hi⟩ := not_forall.mp ha
    obtain rfl := not_not.mp hi
    rw [LinkedCache.step] at hs
    rw [Bcache.step]
    cases hpc : s.cache.pc i with
    | releasing b =>
      simp only [hpc, Except.ok.injEq] at hs
      subst hs
      refine ⟨congrArg Except.ok ?_, h.brelseUnref i b⟩
      dsimp only [LinkedCache.brelseUnref]
      split <;> rfl
    | _ => simp [hpc] at hs

omit [DecidableEq ι] in
theorem Sorted.victim (h : s.Sorted) {b c : Fin nbuf} (hb : s.cache.victim = some b)
    (hc : (s.cache.buf c).refcnt = 0) (hclean : (s.cache.buf c).dirty = false) :
    s.released b ≤ s.released c := by
  obtain ⟨-, as, bs, hlist, hbefore⟩ := List.find?_eq_some_iff_append.mp hb
  have hmem : c ∈ s.cache.list.reverse :=
    List.mem_reverse.mpr (h.perm.mem_iff.mpr (List.mem_finRange c))
  have horder := List.pairwise_reverse.mpr h.order
  rw [hlist] at hmem horder
  obtain hin | hin := List.mem_append.mp hmem
  · have := hbefore c hin
    simp [hc, hclean] at this
  · obtain rfl | hin := List.mem_cons.mp hin
    · exact le_rfl
    · exact List.rel_of_pairwise_cons (List.pairwise_append.mp horder).2.1 hin

/-- **The buffer list is a permutation in LRU order**, in every run by any number of processes. -/
theorem lru_list (k : Links (Fin nbuf)) (as : List (BioAction ι)) (t : LinkedCache ι)
    (hr : run step (init ι k) as = .ok t) :
    (∃ xs : List (Fin nbuf), xs.Perm (List.finRange nbuf) ∧
        Path t.links.next (none :: xs.map some) none) ∧
      (∀ n, t.links.prev (t.links.next n) = n ∧ t.links.next (t.links.prev n) = n) ∧
      ∀ i dev blockno t', t.step (.bget i dev blockno) = .ok t' →
        (∀ b, ¬ ((t.cache.buf b).dev = dev ∧ (t.cache.buf b).blockno = blockno)) →
        ∃ b, t'.cache.pc i = .acquiring b ∧ (t'.cache.buf b).dev = dev ∧
          (t'.cache.buf b).blockno = blockno ∧ (t.cache.buf b).refcnt = 0 ∧
          (t.cache.buf b).dirty = false ∧
          ∀ c, (t.cache.buf c).refcnt = 0 → (t.cache.buf c).dirty = false →
            t.released b ≤ t.released c := by
  have h : t.Sorted := run_invariant_of_step Sorted (fun _ _ _ h hs => (h.step hs).2)
    (sorted_init k) hr
  have hnode : ∀ {xs : List (Fin nbuf)}, xs.Perm (List.finRange nbuf) → ∀ n, n ∈ none :: xs.map some := by
    intro xs hp n
    cases n with
    | none => exact List.mem_cons_self
    | some b =>
      exact List.mem_cons_of_mem _ (List.mem_map_of_mem (hp.mem_iff.mpr (List.mem_finRange b)))
  refine ⟨⟨_, h.perm, h.ring.next⟩, fun n => ⟨h.ring.prev_next (hnode h.perm n),
    h.ring.symm.prev_next (hnode ((List.reverse_perm _).trans h.perm) n)⟩, ?_⟩
  intro i dev blockno t' hs hmiss
  have hnone : t.cache.lookup dev blockno = none := by
    refine List.find?_eq_none.mpr fun b _ => ?_
    simpa using hmiss b
  have hget := (h.step hs).1
  simp only [Bcache.step, Bcache.bget, hnone] at hget
  split at hget
  · cases hv : t.cache.victim with
    | none => simp [hv] at hget
    | some b =>
      simp only [hv, Except.ok.injEq] at hget
      rw [← hget]
      obtain ⟨hzero, hclean⟩ := Bcache.victim_spec hv
      refine ⟨b, ?_, ?_, ?_, hzero, hclean, fun c => h.victim hv⟩ <;>
        simp [Bcache.setBuf, Bcache.goto]
  · cases hget

/-- The buffer of block 5 was released, and is not the one that is taken for block 6. -/
theorem lru_list_two_blocks :
    let as : List (BioAction (Fin 1)) := [.bget 0 1#32 5#32, .acquiresleep 0, .bread 0, .ideintr,
      .iderwDone 0, .brelse 0 0, .brelseUnref 0]
    ∃ t t' b, run step (init (Fin 1) ⟨id, id⟩) as = .ok t ∧ t.released 0 = 1 ∧
      t.step (.bget 0 1#32 6#32) = .ok t' ∧ t'.cache.pc 0 = .acquiring b ∧
      (t'.cache.buf b).blockno = 6#32 ∧ t.released b ≤ t.released 0 ∧ b ≠ 0 := by
  intro as
  obtain ⟨t, ht, hq⟩ := run_ok_of_eval step (init (Fin 1) ⟨id, id⟩) as
    (fun t => decide (t.released 0 = 1 ∧ t.released 1 = 0 ∧
      (∀ b, ¬ ((t.cache.buf b).dev = 1#32 ∧ (t.cache.buf b).blockno = 6#32)) ∧
      ∀ b, (t.cache.buf b).refcnt = 0 ∧ (t.cache.buf b).dirty = false) &&
      (t.step (.bget 0 1#32 6#32)).isOk) (by decide +kernel)
  rw [Bool.and_eq_true, decide_eq_true_eq] at hq
  obtain ⟨⟨hrel, hnever, hmiss, hunused⟩, hok⟩ := hq
  cases hs : t.step (.bget 0 1#32 6#32) with
  | error e =>
    rw [hs] at hok
    cases hok
  | ok t' =>
    obtain ⟨b, hpc, -, hblock, -, -, holdest⟩ :=
      (lru_list ⟨id, id⟩ as t ht).2.2 0 1#32 6#32 t' hs hmiss
    refine ⟨t, t', b, ht, hrel, hs, hpc, hblock, holdest 0 (hunused 0).1 (hunused 0).2, ?_⟩
    rintro rfl
    have := holdest 1 (hunused 1).1 (hunused 1).2
    omega

end LinkedCache

end Xv6Mmap
