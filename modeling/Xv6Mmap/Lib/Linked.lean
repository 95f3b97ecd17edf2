import Mathlib.Data.List.Nodup
import Mathlib.Data.Option.Basic
import Mathlib.Logic.Function.Basic

/-!
# Linked lists in a memory

`Path next l e`: each node of the list points to the one after it, and the last one to `e`. A
circular list is a path back to its first node; from any of its nodes one can walk round it
(`Path.rotate`). A node is linked in or out behind another one by writing one or two pointers
(`Path.link`, `Path.unlink`).

`Circular k xs` is a list linked both ways round a head (`none`). `Links.pushFront` and `Links.unlink`
are the usual assignments, `scan` the usual loop; a ring stays one (`Circular.pushFront`, `Circular.unlink`),
its two links are inverse (`Circular.prev_next`), and the loop finds what a search of the list finds
(`scan_eq`). A queue with one link is the same with `none` as the pointer to its first node: `walk`
finds its end, where a node is linked in (`path_enqueue`).
-/

namespace Xv6Mmap.Lib

open Function (update update_self update_of_ne)

variable {α : Type} {next next' : α → α} {l l' : List α} {x y e : α}

def Path (next : α → α) : List α → α → Prop
  | [], _ => True
  | x :: l, e => next x = l.headD e ∧ Path next l e

theorem path_append : Path next (l ++ l') e ↔ Path next l (l'.headD e) ∧ Path next l' e := by
  induction l with
  | nil => simp [Path]
  | cons x l ih =>
    rw [List.cons_append, Path, Path, ih, and_assoc]
    cases l <;> rfl

theorem Path.congr (h : Path next l e) (heq : ∀ x ∈ l, next' x = next x) : Path next' l e := by
  induction l with
  | nil => trivial
  | cons x l ih =>
    refine ⟨(heq x List.mem_cons_self).trans h.1, ih h.2 fun y hy => ?_⟩
    exact heq y (List.mem_cons_of_mem _ hy)

theorem Path.next_eq (h : Path next (l ++ x :: l') e) : next x = l'.headD e :=
  (path_append.mp h).2.1

/-- The node after `x`, if it is not the first one. -/
theorem Path.split (h : Path next (e :: l) e) (hx : x ∈ e :: l) (hy : next x ≠ e) :
    ∃ a b, e :: l = a ++ x :: next x :: b := by
  obtain ⟨a, b, hab⟩ := List.append_of_mem hx
  rw [hab] at h
  have hnext := h.next_eq
  cases b with
  | nil => exact absurd hnext hy
  | cons z b =>
    rw [List.headD_cons] at hnext
    exact ⟨a, b, by rw [hab, hnext]⟩

/-- A circular list, from any of its nodes on. -/
theorem Path.rotate (h : Path next (e :: l) e) (hx : x ∈ e :: l) :
    ∃ c, Path next (x :: c) x ∧ (x :: c).Perm (e :: l) := by
  obtain ⟨a, b, hab⟩ := List.append_of_mem hx
  have hhead : a.headD x = e := by
    cases a with
    | nil => exact (List.cons.inj hab).1.symm
    | cons z a => exact (List.cons.inj hab).1.symm
  rw [hab] at h ⊢
  refine ⟨b ++ a, ?_, ?_⟩
  · show Path next ((x :: b) ++ a) x
    rw [path_append, hhead]
    exact ⟨(path_append.mp h).2, (path_append.mp h).1⟩
  · show ((x :: b) ++ a).Perm _
    exact List.perm_append_comm

variable [DecidableEq α]

/-- The node behind `x` is linked out. -/
theorem Path.unlink (h : Path next (l ++ x :: y :: l') e) (hx : x ∉ l ++ l') :
    Path (update next x (next y)) (l ++ x :: l') e := by
  simp only [List.mem_append, not_or] at hx
  obtain ⟨hl, -, hy, hl'⟩ := path_append.mp h
  refine path_append.mpr ⟨hl.congr fun z hz => ?_, ?_, hl'.congr fun z hz => ?_⟩
  · rw [update_of_ne (ne_of_mem_of_not_mem hz hx.1)]
  · rw [update_self, hy]
  · rw [update_of_ne (ne_of_mem_of_not_mem hz hx.2)]

/-- The node `y` is linked in behind `x`. -/
theorem Path.link (h : Path next (l ++ x :: l') e) (hx : x ∉ l ++ l') (hy : y ∉ l ++ x :: l') :
    Path (update (update next y (next x)) x y) (l ++ x :: y :: l') e := by
  have hother : ∀ z ∈ l ++ l', update (update next y (next x)) x y z = next z := by
    intro z hz
    have hzy : z ≠ y := by
      rintro rfl
      simp only [List.mem_append, List.mem_cons] at hy hz
      tauto
    rw [update_of_ne (ne_of_mem_of_not_mem hz hx), update_of_ne hzy]
  obtain ⟨hl, hnext, hl'⟩ := path_append.mp h
  refine path_append.mpr ⟨hl.congr fun z hz => hother z (List.mem_append_left _ hz), ?_, ?_,
    hl'.congr fun z hz => hother z (List.mem_append_right _ hz)⟩
  · exact update_self ..
  · have hne : y ≠ x := fun he => hy (by simp [he])
    rw [update_of_ne hne, update_self, hnext]

/-! ## Rings -/

/-- The links of the nodes and of the head. -/
structure Links (β : Type) where
  next : Option β → Option β
  prev : Option β → Option β

section Rings

variable {β : Type}

/-- From the head on, `next` goes through `xs` and `prev` through its reverse, and back. -/
structure Circular (k : Links β) (xs : List β) : Prop where
  next : Path k.next (none :: xs.map some) none
  prev : Path k.prev (none :: xs.reverse.map some) none

theorem Circular.symm {k : Links β} {xs : List β} (h : Circular k xs) :
    Circular ⟨k.prev, k.next⟩ xs.reverse :=
  ⟨h.prev, by rw [List.reverse_reverse]; exact h.next⟩

variable {k : Links β} {xs a c : List β} {b : β}

theorem Circular.next_eq (h : Circular k (a ++ b :: c)) :
    k.next (some b) = (c.map some).headD none := by
  have hpath := h.next
  rw [List.map_append, List.map_cons, ← List.cons_append] at hpath
  exact hpath.next_eq

theorem Circular.prev_eq (h : Circular k (a ++ b :: c)) :
    k.prev (some b) = (a.reverse.map some).headD none := by
  refine Circular.next_eq (a := c.reverse) (k := ⟨k.prev, k.next⟩) ?_
  have hsymm := h.symm
  rwa [List.reverse_append, List.reverse_cons, List.append_assoc] at hsymm

/-- **The links of a ring are inverse.** -/
theorem Circular.prev_next (h : Circular k xs) {n : Option β} (hn : n ∈ none :: xs.map some) :
    k.prev (k.next n) = n := by
  obtain rfl | hn := List.mem_cons.mp hn
  · rw [h.next.1]
    cases xs with
    | nil => exact h.prev.1
    | cons b c => exact h.prev_eq (a := [])
  obtain ⟨b, hb, rfl⟩ := List.mem_map.mp hn
  obtain ⟨a, c, rfl⟩ := List.append_of_mem hb
  rw [h.next_eq]
  cases c with
  | nil =>
    refine h.prev.1.trans ?_
    rw [List.reverse_append]
    rfl
  | cons d c =>
    rw [List.append_cons] at h
    refine h.prev_eq.trans ?_
    rw [List.reverse_append]
    rfl

/-- The last node of the path is where the other link of the head leads. -/
theorem exists_last (xs : List β) :
    ∃ l, none :: xs.map some = l ++ [(xs.reverse.map some).headD none] := by
  obtain rfl | ⟨ys, y, rfl⟩ := List.eq_nil_or_concat xs
  · exact ⟨[], rfl⟩
  · exact ⟨none :: ys.map some, by simp⟩

theorem nodup_nodes : (none :: xs.map some).Nodup ↔ xs.Nodup := by
  simp [List.nodup_map_iff (Option.some_injective β)]

/-- `for(b = n; b != head; b = b->next) if(p(b)) return b;`. -/
def scan (next : Option β → Option β) (p : β → Bool) : Nat → Option β → Option (Option β)
  | 0, _ => none
  | _ + 1, none => some none
  | fuel + 1, some b => if p b then some (some b) else scan next p fuel (next (some b))

theorem scan_eq {next : Option β → Option β} (p : β → Bool) :
    ∀ {xs : List β} {fuel : Nat}, Path next (xs.map some) none → xs.length < fuel →
      scan next p fuel ((xs.map some).headD none) = some (xs.find? p)
  | [], fuel + 1, _, _ => rfl
  | b :: xs, fuel + 1, h, hf => by
    rw [List.map_cons, List.headD_cons, scan, List.find?_cons]
    cases p b with
    | true => rfl
    | false =>
      rw [h.1]
      exact scan_eq p h.2 (Nat.lt_of_succ_lt_succ hf)

/-- `for(pp = &head; *pp; pp = &(*pp)->next);`. -/
def walk (next : Option β → Option β) : Nat → Option β → Option (Option β)
  | 0, _ => none
  | fuel + 1, n =>
    match next n with
    | none => some n
    | some b => walk next fuel (some b)

theorem walk_eq {next : Option β → Option β} : ∀ {xs : List β} {fuel : Nat} {n : Option β},
    Path next (n :: xs.map some) none → xs.length < fuel →
      walk next fuel n = some ((xs.reverse.map some).headD n)
  | [], fuel + 1, n, h, _ => by
    rw [walk, show next n = none from h.1]
    rfl
  | b :: xs, fuel + 1, n, h, hf => by
    rw [walk, show next n = some b from h.1]
    refine (walk_eq h.2 (Nat.lt_of_succ_lt_succ hf)).trans ?_
    rw [List.reverse_cons, List.map_append]
    cases xs.reverse <;> rfl

theorem Circular.scan_next (h : Circular k xs) (p : β → Bool) {fuel : Nat} (hf : xs.length < fuel) :
    scan k.next p fuel (k.next none) = some (xs.find? p) := by
  rw [h.next.1]
  exact scan_eq p h.next.2 hf

theorem Circular.scan_prev (h : Circular k xs) (p : β → Bool) {fuel : Nat} (hf : xs.length < fuel) :
    scan k.prev p fuel (k.prev none) = some (xs.reverse.find? p) :=
  h.symm.scan_next p (by rwa [List.length_reverse])

variable [DecidableEq β]

def Links.setNext (k : Links β) (n v : Option β) : Links β :=
  { k with next := update k.next n v }

def Links.setPrev (k : Links β) (n v : Option β) : Links β :=
  { k with prev := update k.prev n v }

/-- `b` is linked in behind the head. -/
def Links.pushFront (k : Links β) (b : β) : Links β :=
  let k := k.setNext (some b) (k.next none)
  let k := k.setPrev (some b) none
  let k := k.setPrev (k.next none) (some b)
  k.setNext none (some b)

/-- `b` is linked out. -/
def Links.unlink (k : Links β) (b : β) : Links β :=
  let k := k.setPrev (k.next (some b)) (k.prev (some b))
  k.setNext (k.prev (some b)) (k.next (some b))

/-- The head alone. -/
theorem ring_nil (k : Links β) : Circular ((k.setPrev none none).setNext none none) [] :=
  ⟨⟨show update k.next none none none = none from update_self .., trivial⟩,
    ⟨show update k.prev none none none = none from update_self .., trivial⟩⟩

/-- The node `b` is linked in behind the last one. -/
theorem path_enqueue {next : Option β → Option β} (h : Path next (none :: xs.map some) none)
    (hnd : xs.Nodup) (hb : b ∉ xs) :
    Path (update (update next (some b) none) ((xs.reverse.map some).headD none)
      (some b)) (none :: (xs ++ [b]).map some) none := by
  obtain ⟨l, hl⟩ := exists_last xs
  have hfresh : some b ∉ none :: xs.map some := by simpa using hb
  have hnodup := nodup_nodes.mpr hnd
  rw [List.map_append, ← List.cons_append]
  rw [hl] at h hfresh hnodup ⊢
  have hlink := h.link (List.nodup_cons.mp (List.nodup_middle.mp hnodup)).1 hfresh
  rwa [h.next_eq, List.headD_nil, List.append_cons] at hlink

theorem Circular.pushFront (h : Circular k xs) (hnd : xs.Nodup) (hb : b ∉ xs) :
    Circular (k.pushFront b) (b :: xs) := by
  constructor
  · exact Path.link (l := []) (x := none) (y := some b) h.next (by simp) (by simpa using hb)
  have hlink := path_enqueue h.prev (List.nodup_reverse.mpr hnd)
    (fun hmem => hb (List.mem_reverse.mp hmem))
  rw [List.reverse_reverse, ← h.next.1] at hlink
  have hfirst : (k.setNext (some b) (k.next none)).next none = k.next none :=
    update_of_ne (Option.some_ne_none b).symm (k.next none) k.next
  show Path (update (update k.prev (some b) none)
    ((k.setNext (some b) (k.next none)).next none) (some b)) _ _
  rw [hfirst, List.reverse_cons]
  exact hlink

/-- One of the two links of a node that is linked out. -/
theorem path_unlink {next : Option β → Option β}
    (h : Path next (none :: (a ++ b :: c).map some) none) (hnd : (a ++ b :: c).Nodup) :
    Path (update next ((a.reverse.map some).headD none) (next (some b)))
      (none :: (a ++ c).map some) none := by
  obtain ⟨l, hl⟩ := exists_last a
  have hsplit : ∀ d : List β, none :: (a ++ d).map some
      = l ++ (a.reverse.map some).headD none :: d.map some := fun d => by
    rw [List.map_append, ← List.cons_append, hl, List.append_assoc, List.singleton_append]
  have hnodup := nodup_nodes.mpr (hnd.sublist ((List.sublist_cons_self b c).append_left a))
  rw [hsplit] at h hnodup ⊢
  exact h.unlink (List.nodup_cons.mp (List.nodup_middle.mp hnodup)).1

theorem Circular.unlink (h : Circular k (a ++ b :: c)) (hnd : (a ++ b :: c).Nodup) :
    Circular (k.unlink b) (a ++ c) := by
  have hne : some b ≠ k.next (some b) := by
    rw [h.next_eq]
    cases c with
    | nil => exact nofun
    | cons d c =>
      rintro he
      obtain rfl := Option.some.inj he
      simpa using (List.nodup_append.mp hnd).2.1
  have hprev : (k.setPrev (k.next (some b)) (k.prev (some b))).prev (some b) = k.prev (some b) :=
    update_of_ne hne ..
  constructor
  · show Path (update k.next
      ((k.setPrev (k.next (some b)) (k.prev (some b))).prev (some b)) (k.next (some b))) _ _
    rw [hprev, h.prev_eq]
    exact path_unlink h.next hnd
  · show Path (update k.prev (k.next (some b)) (k.prev (some b))) _ _
    have hrev : (a ++ b :: c).reverse = c.reverse ++ b :: a.reverse := by simp
    have hpath := h.prev
    rw [hrev] at hpath
    have hout := path_unlink hpath (hrev ▸ List.nodup_reverse.mpr hnd)
    rwa [List.reverse_reverse, ← h.next_eq, ← List.reverse_append] at hout

/-- A node moves to the front. -/
theorem Circular.toFront (h : Circular k xs) (hnd : xs.Nodup) (hb : b ∈ xs) :
    Circular ((k.unlink b).pushFront b) (b :: xs.erase b) := by
  have hfresh := List.nodup_cons.mp ((List.perm_cons_erase hb).nodup_iff.mp hnd)
  refine Circular.pushFront ?_ hfresh.2 hfresh.1
  obtain ⟨a, c, rfl⟩ := List.append_of_mem hb
  have hba : b ∉ a := fun hba =>
    (List.nodup_append.mp hnd).2.2 b hba b List.mem_cons_self rfl
  rw [List.erase_append_right _ hba, List.erase_cons_head]
  exact h.unlink hnd

end Rings

end Xv6Mmap.Lib
