import Xv6Mmap.Kalloc
import Xv6Mmap.Lib.Linked
import Xv6Mmap.Lib.Run
import Xv6Mmap.Lib.Tiles

/-!
# The user heap (`umalloc.c`)

The allocator keeps its state in the headers of the free blocks: `ptr` and `size` are the two fields
of the header at an address. A null pointer is 0. The list starts at `base`, a header of size 0 in
the data segment, below the memory that `sbrk` returns.

The functions are written once, over how addresses and sizes are computed (`Arith`) and what `sbrk`
does (`Brk`). Here addresses and sizes are natural numbers, since the blocks lie in the address
space (`Arith.nat`); only where a request is turned into a number of units and of bytes is the
arithmetic that of `uint`. In `MallocBrk` it is that of the machine everywhere.

`top` is where the memory from `sbrk` ends, `units` how many units it was, and `alloc` are the
headers of the blocks that `malloc` has returned and `free` has not taken back. These three are
ghosts; the loops get more turns than there can be free blocks.

* **`heap_integrity`**: every sequence of calls returns, and then the free list is circular and
  sorted, no two free blocks touch, no two blocks overlap, and no unit is lost.
-/

namespace Xv6Mmap.Umalloc

open Lib
open Function (update update_self update_of_ne update_apply)

/-- `sizeof(Header)`. -/
def sizeofHeader : Nat := 8

theorem sizeofHeader_pos : 0 < sizeofHeader := by decide

structure Heap where
  ptr : Nat → Nat
  size : Nat → Nat
  freep : Nat
  top : Nat
  units : Nat
  alloc : List Nat

/-- How addresses and sizes are computed. Nothing wraps as long as memory ends where it `fits`. -/
structure Arith where
  wrap : Nat → Nat
  /-- `(Header*)ap - 1`. -/
  header : Nat → Nat
  fits : Nat → Prop
  exact : ∀ {top n : Nat}, fits top → n ≤ top → wrap n = n
  header_add : ∀ bp, header (bp + sizeofHeader) = bp

/-- In the natural numbers. -/
def Arith.nat : Arith where
  wrap := id
  header ap := ap - sizeofHeader
  fits _ := True
  exact _ _ := rfl
  header_add _ := Nat.add_sub_cancel ..

/-- `sbrk`, from where the memory ends and the number of bytes: an address, or failure, and where the
memory then ends. -/
abbrev Brk := Nat → Nat → Option Nat × Nat

/-- What `sbrk` answers, from where the memory ends and the number of bytes: failure, or memory above
all earlier one. -/
structure Sbrk where
  call : Nat → Nat → Option Nat
  fresh : ∀ {top n p : Nat}, call top n = some p → top ≤ p

/-- The call `sbrk(n)`, for the `uint` that `n` is. -/
def Sbrk.brk (sbrk : Sbrk) : Brk := fun top n =>
  match sbrk.call top (n % 2 ^ 32) with
  | none => (none, top)
  | some p => (some p, p + n % 2 ^ 32)

/-! ## The code -/

/-- The loop of `free`: the block behind which `bp` goes. -/
def Heap.search (s : Heap) (bp : Nat) : Nat → Nat → Except Halt Nat
  | 0, _ => .error .deadlock
  | n + 1, p =>
    if p < bp ∧ bp < s.ptr p then .ok p
    else if s.ptr p ≤ p ∧ (p < bp ∨ bp < s.ptr p) then .ok p
    else s.search bp n (s.ptr p)

section Code

variable (w : Arith)

/-- `free`, joining to the upper neighbour. -/
def Heap.joinUpper (s : Heap) (bp p : Nat) : Heap :=
  if w.wrap (bp + sizeofHeader * s.size bp) = s.ptr p then
    { s with
      size := update s.size bp (w.wrap (s.size bp + s.size (s.ptr p)))
      ptr := update s.ptr bp (s.ptr (s.ptr p)) }
  else { s with ptr := update s.ptr bp (s.ptr p) }

/-- `free`, joining to the lower neighbour. -/
def Heap.joinLower (s : Heap) (bp p : Nat) : Heap :=
  if w.wrap (p + sizeofHeader * s.size p) = bp then
    { s with
      size := update s.size p (w.wrap (s.size p + s.size bp))
      ptr := update s.ptr p (s.ptr bp) }
  else { s with ptr := update s.ptr p bp }

/-- `free(ap)`. -/
def free (s : Heap) (ap : Nat) : Except Halt Heap :=
  let bp := w.header ap
  match s.search bp (s.units + 1) s.freep with
  | .error e => .error e
  | .ok p => .ok { (s.joinUpper w bp p).joinLower w bp p with freep := p }

/-- `morecore(nu)`. -/
def morecore (sbrk : Brk) (s : Heap) (nu : Nat) : Except Halt (Heap × Nat) :=
  let nu := if nu < 4096 then 4096 else nu
  match sbrk s.top (nu * sizeofHeader) with
  | (none, top) => .ok ({ s with top := top }, 0)
  | (some p, top) =>
    match free w { s with
        size := update s.size p nu
        top := top
        units := s.units + nu } (w.wrap (p + sizeofHeader)) with
    | .error e => .error e
    | .ok s => .ok (s, s.freep)

/-- `malloc`, when the block `p` behind `prevp` is large enough. -/
def Heap.take (s : Heap) (nunits prevp p : Nat) : Heap × Nat :=
  if s.size p = nunits then
    ({ s with ptr := update s.ptr prevp (s.ptr p), freep := prevp }, w.wrap (p + sizeofHeader))
  else
    let k := s.size p - nunits
    let q := w.wrap (p + sizeofHeader * k)
    ({ s with
        size := update (update s.size p k) q nunits
        freep := prevp }, w.wrap (q + sizeofHeader))

/-- The loop of `malloc`. -/
def mallocLoop (sbrk : Brk) (nunits : Nat) : Nat → Heap → Nat → Nat → Except Halt (Heap × Nat)
  | 0, _, _, _ => .error .deadlock
  | n + 1, s, prevp, p =>
    if nunits ≤ s.size p then .ok (s.take w nunits prevp p)
    else if p = s.freep then
      match morecore w sbrk s nunits with
      | .error e => .error e
      | .ok (s, p) => if p = 0 then .ok (s, 0) else mallocLoop sbrk nunits n s p (s.ptr p)
    else mallocLoop sbrk nunits n s p (s.ptr p)

/-- `nunits`, for a request of `nbytes`. -/
def nunits (nbytes : Nat) : Nat := (nbytes + sizeofHeader - 1) % 2 ^ 32 / sizeofHeader + 1

/-- `malloc`, making the list at the first call. -/
def Heap.ready (base : Nat) (s : Heap) : Heap :=
  if s.freep = 0 then
    { s with
      ptr := update s.ptr base base
      freep := base
      size := update s.size base 0 }
  else s

/-- `malloc(nbytes)`. -/
def malloc (sbrk : Brk) (base : Nat) (s : Heap) (nbytes : Nat) : Except Halt (Heap × Nat) :=
  let s := s.ready base
  mallocLoop w sbrk (nunits nbytes) (2 * s.units + 4) s s.freep (s.ptr s.freep)

/-- A call of `malloc`; the block it returns is then in use. -/
def mallocStep (sbrk : Brk) (base : Nat) (s : Heap) (nbytes : Nat) : Except Halt Heap :=
  match malloc w sbrk base s nbytes with
  | .error e => .error e
  | .ok (s, ap) => .ok (if ap = 0 then s else { s with alloc := (ap - sizeofHeader) :: s.alloc })

/-- A call of `free`. -/
def freeStep (s : Heap) (ap : Nat) : Except Halt Heap :=
  match free w s ap with
  | .error e => .error e
  | .ok s => .ok { s with alloc := s.alloc.erase (ap - sizeofHeader) }

end Code

inductive Action where
  | malloc (nbytes : Nat) (sbrk : Sbrk)
  | free (ap : Nat)

def step (base : Nat) (s : Heap) : Action → Except Halt Heap
  | .malloc nbytes sbrk => mallocStep .nat sbrk.brk base s nbytes
  | .free ap => freeStep .nat s ap

/-- No size computation of a `malloc` wraps, and a `free` is of a block that `malloc` returned. -/
def Allowed (s : Heap) : Action → Prop
  | .malloc nbytes _ =>
    nbytes + sizeofHeader - 1 < 2 ^ 32 ∧ nunits nbytes * sizeofHeader < 2 ^ 32
  | .free ap => sizeofHeader ≤ ap ∧ ap - sizeofHeader ∈ s.alloc

/-- Before the first call, with any memory, and its end at `top`. -/
def init (ptr size : Nat → Nat) (top : Nat) : Heap := ⟨ptr, size, 0, top, 0, []⟩

/-! ## The invariant -/

/-- The free blocks are those of `l`, the blocks in use those of `alloc`. -/
structure Wf (base : Nat) (s : Heap) (l alloc : List Nat) : Prop where
  /-- The list is circular, from `base` on. -/
  circular : Path s.ptr (base :: l) base
  /-- It is sorted, and a free block ends below where the next one begins. -/
  gaps : (base :: l).Pairwise fun x y => x + sizeofHeader * s.size x < y
  base_size : s.size base = 0
  freep : s.freep ∈ base :: l
  /-- No two blocks overlap, and together they are what `sbrk` gave. -/
  tiles : Tiles sizeofHeader s.size (base + sizeofHeader) s.top s.units (l ++ alloc)
  top : base + sizeofHeader ≤ s.top

section Free

variable {w : Arith} {base : Nat} {s : Heap} {l alloc : List Nat} {bp : Nat}

theorem Wf.length_le (h : Wf base s l alloc) : l.length ≤ s.units := by
  have := h.tiles.length_le
  rw [List.length_append] at this
  omega

theorem Wf.base_le (h : Wf base s l alloc) {x : Nat} (hx : x ∈ base :: l) : base ≤ x := by
  rcases List.mem_cons.mp hx with rfl | hx
  · exact Nat.le_refl _
  · have := h.tiles.lo_le x (List.mem_append_left _ hx)
    omega

theorem Wf.lt (h : Wf base s l alloc) : (base :: l).Pairwise (· < ·) :=
  h.gaps.imp fun hxy => by omega

theorem Wf.perm {alloc' : List Nat} (h : Wf base s l alloc) (hp : alloc.Perm alloc') :
    Wf base s l alloc' :=
  { h with tiles := h.tiles.perm (hp.append_left l) }

/-- Where the loop of `free` stops. -/
def Heap.Stops (s : Heap) (bp p : Nat) : Prop :=
  p < bp ∧ bp < s.ptr p ∨ s.ptr p ≤ p ∧ (p < bp ∨ bp < s.ptr p)

/-- The loop of `free` stops at a node where it can. -/
theorem search_path {e : Nat} :
    ∀ {c : List Nat} {p n : Nat}, Path s.ptr (p :: c) e → (∃ q ∈ p :: c, s.Stops bp q) →
      c.length < n → ∃ q ∈ p :: c, s.search bp n p = .ok q ∧ s.Stops bp q := by
  intro c
  induction c with
  | nil =>
    rintro p n - ⟨q, hq, hs⟩ hn
    obtain ⟨n, rfl⟩ : ∃ m, n = m + 1 := ⟨n - 1, by simp at hn; omega⟩
    obtain rfl := List.mem_singleton.mp hq
    refine ⟨q, hq, ?_, hs⟩
    rw [Heap.search]
    rcases hs with hs | hs
    · rw [if_pos hs]
    · rw [if_pos hs, ite_self]
  | cons r c ih =>
    rintro p n ⟨hp, hpath⟩ hex hn
    obtain ⟨n, rfl⟩ : ∃ m, n = m + 1 := ⟨n - 1, by simp at hn; omega⟩
    have hp : s.ptr p = r := hp
    by_cases hs : s.Stops bp p
    · refine ⟨p, List.mem_cons_self, ?_, hs⟩
      rw [Heap.search]
      rcases hs with hs | hs
      · rw [if_pos hs]
      · rw [if_pos hs, ite_self]
    have hex' : ∃ q ∈ r :: c, s.Stops bp q := by
      obtain ⟨q, hq, hqs⟩ := hex
      rcases List.mem_cons.mp hq with rfl | hq
      · exact absurd hqs hs
      · exact ⟨q, hq, hqs⟩
    obtain ⟨q, hq, hsearch, hqs⟩ := ih (n := n) hpath hex' (by simpa using hn)
    refine ⟨q, List.mem_cons_of_mem _ hq, ?_, hqs⟩
    unfold Heap.Stops at hs
    rw [Heap.search, if_neg fun h => hs (.inl h), if_neg fun h => hs (.inr h), hp, hsearch]

variable {a b : List Nat} {p : Nat}

theorem Wf.stops_iff (h : Wf base s l alloc) (hbp : base < bp) (hl : base :: l = a ++ p :: b) :
    s.Stops bp p ↔ p < bp ∧ ∀ y ∈ b, bp < y := by
  have hpath := h.circular
  have hlt := h.lt
  have hle := h.base_le (x := p) (by simp [hl])
  rw [hl] at hpath hlt
  have hnext := hpath.next_eq
  have hb := (List.pairwise_cons.mp (List.pairwise_append.mp hlt).2.1)
  unfold Heap.Stops
  cases b with
  | nil =>
    rw [List.headD_nil] at hnext
    rw [hnext]
    simp only [List.not_mem_nil, false_implies, implies_true, and_true]
    omega
  | cons q b =>
    rw [List.headD_cons] at hnext
    rw [hnext]
    have hpq := hb.1 q List.mem_cons_self
    constructor
    · intro hs
      have hs : p < bp ∧ bp < q := by omega
      refine ⟨hs.1, fun y hy => ?_⟩
      rcases List.mem_cons.mp hy with rfl | hy
      · exact hs.2
      · have := (List.pairwise_cons.mp hb.2).1 y hy
        omega
    · rintro ⟨hp, hall⟩
      exact .inl ⟨hp, hall q List.mem_cons_self⟩

theorem exists_last {P : Nat → Prop} :
    ∀ {l : List Nat}, (∃ x ∈ l, P x) → ∃ a p b, l = a ++ p :: b ∧ P p ∧ ∀ y ∈ b, ¬ P y := by
  intro l
  induction l with
  | nil => rintro ⟨x, hx, -⟩; cases hx
  | cons z l ih =>
    rintro ⟨x, hx, hP⟩
    by_cases hex : ∃ x ∈ l, P x
    · obtain ⟨a, p, b, rfl, hp, hb⟩ := ih hex
      exact ⟨z :: a, p, b, rfl, hp, hb⟩
    · rcases List.mem_cons.mp hx with rfl | hx
      · exact ⟨[], x, l, rfl, hP, fun y hy hPy => hex ⟨y, hy, hPy⟩⟩
      · exact absurd ⟨x, hx, hP⟩ hex

theorem Wf.search_eq (h : Wf base s l alloc) (hbp : base < bp) (hl : bp ∉ l) :
    ∃ a p b, base :: l = a ++ p :: b ∧ s.search bp (s.units + 1) s.freep = .ok p ∧ p < bp ∧
      ∀ y ∈ b, bp < y := by
  obtain ⟨c, hpath, hperm⟩ := h.circular.rotate h.freep
  have hex : ∃ q ∈ s.freep :: c, s.Stops bp q := by
    obtain ⟨a, p, b, hab, hp, hb⟩ := exists_last (P := (· < bp)) ⟨base, List.mem_cons_self (l := l), hbp⟩
    refine ⟨p, hperm.mem_iff.mpr (by simp [hab]), (h.stops_iff hbp hab).mpr ⟨hp, fun y hy => ?_⟩⟩
    have hmem : y ∈ base :: l := by simp [hab, hy]
    have hne : y ≠ bp := by
      rintro rfl
      rcases List.mem_cons.mp hmem with rfl | hmem
      · exact absurd hbp (Nat.lt_irrefl _)
      · exact hl hmem
    have := hb y hy
    omega
  have hlen := hperm.length_eq
  have hle := h.length_le
  simp only [List.length_cons] at hlen
  obtain ⟨q, hq, hsearch, hstops⟩ := search_path (n := s.units + 1) hpath hex (by omega)
  obtain ⟨a, b, hab⟩ := List.append_of_mem (hperm.mem_iff.mp hq)
  exact ⟨a, q, b, hab, hsearch, (h.stops_iff hbp hab).mp hstops⟩

/-- The block `bp`, about to be linked in behind `p`: the list is `a`, `p` and then `b`, and all
but the pointer of `p` is in place. -/
structure Hole (base : Nat) (s : Heap) (a : List Nat) (p : Nat) (b l : List Nat) (bp : Nat)
    (alloc : List Nat) : Prop where
  list : base :: l = a ++ [p]
  low : Path s.ptr a p
  high : Path s.ptr (bp :: b) base
  gaps : (base :: (l ++ b)).Pairwise fun x y => x + sizeofHeader * s.size x < y
  below : p + sizeofHeader * s.size p ≤ bp
  above : ∀ y ∈ b, bp + sizeofHeader * s.size bp < y
  base_size : s.size base = 0
  tiles : Tiles sizeofHeader s.size (base + sizeofHeader) s.top s.units (bp :: (l ++ b ++ alloc))
  top : base + sizeofHeader ≤ s.top

theorem gaps_congr {size size' : Nat → Nat} {l : List Nat} (h : ∀ x ∈ l, size' x = size x)
    (hl : l.Pairwise fun x y => x + sizeofHeader * size x < y) :
    l.Pairwise fun x y => x + sizeofHeader * size' x < y :=
  hl.imp_of_mem fun {x y} hx _ hxy => by rwa [h x hx]

theorem exists_init (hl : base :: l = a ++ p :: b) :
    ∃ l1, base :: l1 = a ++ [p] ∧ l = l1 ++ b := by
  cases a with
  | nil => exact ⟨[], by rw [(List.cons.inj hl).1]; rfl, (List.cons.inj hl).2⟩
  | cons x a => exact ⟨a ++ [p], by rw [(List.cons.inj hl).1]; rfl, by
      rw [(List.cons.inj hl).2, List.append_assoc]
      rfl⟩

theorem Wf.joinUpper (h : Wf base s l (bp :: alloc)) (hfit : w.fits s.top)
    (hl : base :: l = a ++ p :: b) (hp : p < bp) (hb : ∀ y ∈ b, bp < y) :
    ∃ l1 b1, Hole base (s.joinUpper w bp p) a p b1 l1 bp alloc ∧ (l1 ++ b1).length ≤ l.length ∧
      s.size bp ≤ (s.joinUpper w bp p).size bp := by
  obtain ⟨l1, hl1, hlist⟩ := exists_init hl
  have hpath := h.circular
  rw [hl] at hpath
  obtain ⟨hlow, hnext, hhigh⟩ := path_append.mp hpath
  have htiles : Tiles sizeofHeader s.size (base + sizeofHeader) s.top s.units
      (bp :: (l1 ++ b ++ alloc)) := by
    rw [← hlist]
    exact h.tiles.perm List.perm_middle
  have hout := htiles.notMem sizeofHeader_pos
  have hbase : base < bp := by
    have := h.base_le (x := p) (by simp [hl])
    omega
  -- `bp` is not a node of the list
  have hne : ∀ x ∈ base :: (l1 ++ b), x ≠ bp := by
    rintro x hx rfl
    rcases List.mem_cons.mp hx with rfl | hx
    · exact absurd hbase (Nat.lt_irrefl _)
    · exact hout (List.mem_append_left _ hx)
  have hpl : p ∈ base :: (l1 ++ b) := by
    rw [← hlist, hl]
    simp
  have ha : ∀ x ∈ a, x ≠ bp := fun x hx => hne x (by rw [← hlist, hl]; simp [hx])
  have hgaps := h.gaps
  rw [hlist] at hgaps
  have hbelow : p + sizeofHeader * s.size p ≤ bp := by
    rcases List.mem_cons.mp hpl with rfl | hpl
    · rw [h.base_size]
      omega
    · have := Nat.mul_pos sizeofHeader_pos (htiles.pos bp List.mem_cons_self)
      rcases htiles.apart_cons p (List.mem_append_left _ hpl) with h | h <;> omega
  have hgb : (p :: b).Pairwise fun x y => x + sizeofHeader * s.size x < y := by
    have := h.gaps
    rw [hl] at this
    exact (List.pairwise_append.mp this).2.1
  have hend := htiles.le_hi bp List.mem_cons_self
  unfold Heap.joinUpper
  rw [w.exact hfit hend]
  split
  case isTrue hup =>
    -- joined to the node after `p`, which cannot be `base`
    cases b with
    | nil =>
      rw [hnext, List.headD_nil] at hup
      omega
    | cons q b =>
      rw [hnext, List.headD_cons] at hup ⊢
      have hsum : s.size bp + s.size q ≤ s.top := by
        have := htiles.le_hi q (by simp)
        simp only [sizeofHeader] at *
        omega
      rw [w.exact hfit hsum]
      have hold : ∀ x ∈ base :: (l1 ++ q :: b),
          update s.size bp (s.size bp + s.size q) x = s.size x := fun x hx =>
        update_of_ne (hne x hx) _ _
      have hsub : (base :: (l1 ++ b)).Sublist (base :: (l1 ++ q :: b)) :=
        List.Sublist.cons_cons _ (List.Sublist.append_left (List.sublist_cons_self q b) l1)
      refine ⟨l1, b, ⟨hl1, ?_, ⟨?_, ?_⟩, ?_, ?_, ?_, ?_, ?_, h.top⟩, ?_, ?_⟩
      · exact hlow.congr fun x hx => update_of_ne (ha x hx) _ _
      · exact (update_self ..).trans hhigh.1
      · refine hhigh.2.congr fun x hx => update_of_ne (hne x ?_) _ _
        simp [hx]
      · exact gaps_congr (fun x hx => hold x (hsub.subset hx)) (hgaps.sublist hsub)
      · show p + sizeofHeader * update s.size bp _ p ≤ bp
        rwa [hold p hpl]
      · intro y hy
        have := (List.pairwise_cons.mp (List.pairwise_cons.mp hgb).2).1 y hy
        show bp + sizeofHeader * update s.size bp _ bp < y
        rw [update_self, Nat.mul_add]
        omega
      · exact (hold base List.mem_cons_self).trans h.base_size
      · refine Tiles.join sizeofHeader_pos (htiles.perm (List.Perm.cons bp ?_)) hup
        rw [List.append_assoc, List.append_assoc]
        exact List.perm_middle
      · simp [hlist]
      · show s.size bp ≤ update s.size bp _ bp
        rw [update_self]
        omega
  case isFalse hup =>
    refine ⟨l1, b, ⟨hl1, ?_, ⟨?_, ?_⟩, hgaps, hbelow, ?_, h.base_size, htiles, h.top⟩, ?_,
      Nat.le_refl _⟩
    · exact hlow.congr fun x hx => update_of_ne (ha x hx) _ _
    · exact (update_self ..).trans hnext
    · refine hhigh.congr fun x hx => update_of_ne (hne x ?_) _ _
      simp [hx]
    · -- the block ends below the next node, and does not touch it
      cases b with
      | nil => exact nofun
      | cons q b =>
        rw [hnext, List.headD_cons] at hup
        have hq := hb q List.mem_cons_self
        have hqpos := Nat.mul_pos sizeofHeader_pos (htiles.pos q (by simp))
        have hapart := htiles.apart_cons q (by simp)
        intro y hy
        show bp + sizeofHeader * s.size bp < y
        rcases List.mem_cons.mp hy with rfl | hy
        · rcases hapart with h | h <;> omega
        · have := (List.pairwise_cons.mp (List.pairwise_cons.mp hgb).2).1 y hy
          rcases hapart with h | h <;> omega
    · rw [hlist]

theorem Hole.joinLower (h : Hole base s a p b l bp alloc) (hfit : w.fits s.top) :
    ∃ l1, Wf base { s.joinLower w bp p with freep := p } l1 alloc ∧
      l1.length ≤ (l ++ b).length + 1 ∧ ∃ x ∈ l1, s.size bp ≤ (s.joinLower w bp p).size x := by
  have hcons : base :: (l ++ b) = a ++ p :: b := by
    rw [← List.cons_append, h.list, List.append_assoc]
    rfl
  have hbp := h.tiles.lo_le bp List.mem_cons_self
  have hout := h.tiles.notMem sizeofHeader_pos
  have hgaps := h.gaps
  rw [hcons] at hgaps
  obtain ⟨hga, hgb, hgab⟩ := List.pairwise_append.mp hgaps
  have hpa : ∀ x ∈ a, x ≠ p := by
    rintro x hx rfl
    have := hgab x hx x List.mem_cons_self
    omega
  have hpb : ∀ x ∈ b, x ≠ p := by
    rintro x hx rfl
    have := (List.pairwise_cons.mp hgb).1 x hx
    omega
  have hpbp : bp ≠ p := by
    rintro rfl
    have := Nat.mul_pos sizeofHeader_pos (h.tiles.pos bp List.mem_cons_self)
    have := h.below
    omega
  have hend := h.tiles.le_hi bp List.mem_cons_self
  have hbelow := h.below
  unfold Heap.joinLower
  rw [w.exact hfit (by omega)]
  split
  case isTrue hlo =>
    have hsum : s.size p + s.size bp ≤ s.top := by
      simp only [sizeofHeader] at *
      omega
    rw [w.exact hfit hsum]
    -- joined to `p`, which is not `base`
    have hpl : p ≠ base := by
      rintro rfl
      rw [h.base_size] at hlo
      simp only [sizeofHeader] at hbp hlo
      omega
    obtain ⟨a, rfl⟩ : ∃ a', a = base :: a' := by
      cases a with
      | nil => exact absurd (List.cons.inj hcons).1.symm hpl
      | cons x a => exact ⟨a, by rw [(List.cons.inj hcons).1]⟩
    have hl : l = a ++ [p] := (List.cons.inj h.list).2
    have hperm : (bp :: (l ++ b ++ alloc)).Perm (p :: bp :: (a ++ b ++ alloc)) := by
      rw [hl, List.perm_iff_count]
      intro x
      simp only [List.count_cons, List.count_append, List.count_nil]
      omega
    have hperm' : (p :: (a ++ b ++ alloc)).Perm (l ++ b ++ alloc) := by
      rw [hl, List.perm_iff_count]
      intro x
      simp only [List.count_cons, List.count_append, List.count_nil]
      omega
    have hold : ∀ x, x ≠ p → update s.size p (s.size p + s.size bp) x = s.size x :=
      fun x hx => update_of_ne hx _ _
    refine ⟨l ++ b, ⟨?_, ?_, ?_, ?_, ?_, h.top⟩, Nat.le_succ _, p, by simp [hl], ?_⟩
    · rw [hcons]
      refine path_append.mpr ⟨h.low.congr fun x hx => update_of_ne (hpa x hx) _ _, ?_,
        h.high.2.congr fun x hx => update_of_ne (hpb x hx) _ _⟩
      exact (update_self ..).trans h.high.1
    · rw [hcons]
      refine List.pairwise_append.mpr ⟨gaps_congr (fun x hx => hold x (hpa x hx)) hga, ?_, ?_⟩
      · refine List.pairwise_cons.mpr ⟨fun y hy => ?_, gaps_congr (fun x hx => hold x (hpb x hx))
          (List.pairwise_cons.mp hgb).2⟩
        have := h.above y hy
        show p + sizeofHeader * update s.size p _ p < y
        rw [update_self, Nat.mul_add]
        omega
      · intro x hx y hy
        show x + sizeofHeader * update s.size p _ x < y
        rw [hold x (hpa x hx)]
        exact hgab x hx y hy
    · exact (hold base hpl.symm).trans h.base_size
    · rw [hcons]
      simp
    · exact (Tiles.join sizeofHeader_pos (h.tiles.perm hperm) hlo).perm hperm'
    · show s.size bp ≤ update s.size p _ p
      rw [update_self]
      omega
  case isFalse hlo =>
    have hcons' : base :: (l ++ bp :: b) = a ++ p :: bp :: b := by
      rw [← List.cons_append, h.list, List.append_assoc]
      rfl
    have hbelow : p + sizeofHeader * s.size p < bp := by omega
    refine ⟨l ++ bp :: b, ⟨?_, ?_, h.base_size, ?_, ?_, h.top⟩, ?_, bp, by simp, Nat.le_refl _⟩
    · rw [hcons']
      refine path_append.mpr ⟨h.low.congr fun x hx => update_of_ne (hpa x hx) _ _, ?_,
        h.high.congr fun x hx => update_of_ne ?_ _ _⟩
      · exact update_self ..
      · rcases List.mem_cons.mp hx with rfl | hx
        · exact hpbp
        · exact hpb x hx
    · rw [hcons']
      refine List.pairwise_append.mpr ⟨hga, List.pairwise_cons.mpr ⟨?_, List.pairwise_cons.mpr
        ⟨h.above, (List.pairwise_cons.mp hgb).2⟩⟩, ?_⟩
      · rintro y (_ | ⟨_, hy⟩)
        · exact hbelow
        · exact (List.pairwise_cons.mp hgb).1 y hy
      · rintro x hx y (_ | ⟨_, _ | ⟨_, hy⟩⟩)
        · exact hgab x hx p List.mem_cons_self
        · have := hgab x hx p List.mem_cons_self
          show x + sizeofHeader * s.size x < bp
          omega
        · exact hgab x hx y (List.mem_cons_of_mem _ hy)
    · rw [hcons']
      simp
    · refine h.tiles.perm ?_
      rw [List.append_assoc, List.append_assoc]
      exact List.perm_middle.symm
    · simp only [List.length_append, List.length_cons]
      omega

theorem Heap.joinUpper_frame (s : Heap) (bp p : Nat) :
    (s.joinUpper w bp p).top = s.top ∧ (s.joinUpper w bp p).alloc = s.alloc := by
  unfold Heap.joinUpper
  split <;> exact ⟨rfl, rfl⟩

theorem Heap.joinLower_frame (s : Heap) (bp p : Nat) :
    (s.joinLower w bp p).top = s.top ∧ (s.joinLower w bp p).alloc = s.alloc := by
  unfold Heap.joinLower
  split <;> exact ⟨rfl, rfl⟩

theorem Wf.free (h : Wf base s l (bp :: alloc)) (hfit : w.fits s.top) :
    ∃ s' l', free w s (bp + sizeofHeader) = .ok s' ∧ Wf base s' l' alloc ∧
      s'.top = s.top ∧ s'.alloc = s.alloc ∧
      l'.length ≤ l.length + 1 ∧ ∃ x ∈ l', s.size bp ≤ s'.size x := by
  have hbp := h.tiles.lo_le bp (by simp)
  have hout : bp ∉ l := fun hmem =>
    (h.tiles.perm List.perm_middle).notMem sizeofHeader_pos (List.mem_append_left _ hmem)
  obtain ⟨a, p, b, hab, hsearch, hp, hb⟩ := h.search_eq
    (show base < bp by simp only [sizeofHeader] at hbp; omega) hout
  have hupper := s.joinUpper_frame (w := w) bp p
  have hlower := (s.joinUpper w bp p).joinLower_frame (w := w) bp p
  obtain ⟨l1, b1, hhole, hlen, hle⟩ := h.joinUpper hfit hab hp hb
  obtain ⟨l', hwf, hlen', x, hx, hle'⟩ := hhole.joinLower (w := w) (by rwa [hupper.1])
  refine ⟨_, l', ?_, hwf, hlower.1.trans hupper.1, hlower.2.trans hupper.2, by omega, x, hx,
    hle.trans hle'⟩
  rw [Umalloc.free, w.header_add]
  dsimp only
  rw [hsearch]

end Free

section Malloc

variable {w : Arith} {sbrk : Brk} {base : Nat} {s : Heap} {l alloc : List Nat} {nu : Nat}

/-- `malloc` takes a block out of the list, or its end. -/
theorem Wf.take (h : Wf base s l alloc) (hfit : w.fits s.top) (hnu : 0 < nu) {prevp : Nat}
    (hprev : prevp ∈ base :: l) (hsize : nu ≤ s.size (s.ptr prevp)) :
    ∃ hp l' s', s.take w nu prevp (s.ptr prevp) = (s', hp + sizeofHeader) ∧
      Wf base s' l' (hp :: alloc) ∧ s'.top = s.top ∧ s'.alloc = s.alloc ∧ s'.size hp = nu := by
  have hne : s.ptr prevp ≠ base := by
    intro he
    rw [he, h.base_size] at hsize
    omega
  obtain ⟨a, b, hab⟩ := h.circular.split hprev hne
  obtain ⟨l1, hl1, hlist⟩ := exists_init hab
  generalize hp : s.ptr prevp = p at *
  have hlt := h.lt
  rw [hab] at hlt
  have hnext : ∀ x ∈ a ++ b, x ≠ prevp := by
    rintro x hx rfl
    obtain ⟨-, hlt2, hlt1⟩ := List.pairwise_append.mp hlt
    rcases List.mem_append.mp hx with hx | hx
    · exact absurd (hlt1 x hx x List.mem_cons_self) (Nat.lt_irrefl _)
    · exact absurd ((List.pairwise_cons.mp hlt2).1 x (List.mem_cons_of_mem _ hx)) (Nat.lt_irrefl _)
  have hcons : base :: (l1 ++ b) = a ++ prevp :: b := by
    rw [← List.cons_append, hl1, List.append_assoc]
    rfl
  have hend : p + sizeofHeader * s.size p ≤ s.top := h.tiles.le_hi p (by simp [hlist])
  unfold Heap.take
  rw [w.exact hfit (n := p + sizeofHeader) (by simp only [sizeofHeader] at *; omega)]
  split
  case isTrue heq =>
    have hsub : (base :: (l1 ++ b)).Sublist (base :: l) := by
      rw [hlist]
      exact List.Sublist.cons_cons _ (List.Sublist.append_left (List.sublist_cons_self p b) l1)
    refine ⟨p, l1 ++ b, _, rfl, ⟨?_, h.gaps.sublist hsub, h.base_size, ?_, h.tiles.perm ?_, h.top⟩,
      rfl, rfl, heq⟩
    · have hpath := h.circular
      rw [hab] at hpath
      rw [hcons]
      exact hpath.unlink fun hmem => hnext prevp hmem rfl
    · rw [hcons]
      simp
    · rw [hlist, List.perm_iff_count]
      intro x
      simp only [List.count_cons, List.count_append]
      omega
  case isFalse hneq =>
    have htiles := (h.tiles.perm (show (l ++ alloc).Perm (p :: (l1 ++ b ++ alloc)) by
      rw [hlist, List.append_assoc, List.append_assoc]
      exact List.perm_middle)).cut sizeofHeader_pos hnu (by omega)
    dsimp only
    rw [w.exact hfit (n := p + sizeofHeader * (s.size p - nu))
        (by simp only [sizeofHeader] at *; omega),
      w.exact hfit (by simp only [sizeofHeader] at *; omega)]
    generalize hq : p + sizeofHeader * (s.size p - nu) = q at *
    have hout := htiles.notMem sizeofHeader_pos
    have hql : q ∉ l := by
      rw [hlist]
      intro hmem
      refine hout ?_
      simp only [List.mem_append, List.mem_cons] at hmem ⊢
      tauto
    have hle : ∀ x ∈ base :: l,
        update (update s.size p (s.size p - nu)) q nu x ≤ s.size x := by
      intro x hx
      have hxq : x ≠ q := by
        rintro rfl
        rcases List.mem_cons.mp hx with rfl | hx
        · have := h.tiles.lo_le p (by simp [hlist])
          simp only [sizeofHeader] at this hq
          omega
        · exact hql hx
      rw [update_of_ne hxq, update_apply]
      split
      · rename_i hxp
        rw [hxp]
        exact Nat.sub_le _ _
      · exact Nat.le_refl _
    refine ⟨q, l, _, rfl, ⟨h.circular, ?_, ?_, hprev, htiles.perm ?_, h.top⟩, rfl, rfl,
      update_self ..⟩
    · refine h.gaps.imp_of_mem fun {x y} hx _ hxy => ?_
      have := Nat.mul_le_mul_left sizeofHeader (hle x hx)
      show x + sizeofHeader * update (update s.size p _) q nu x < y
      omega
    · exact Nat.le_zero.mp ((hle base List.mem_cons_self).trans h.base_size.le)
    · rw [hlist, List.perm_iff_count]
      intro x
      simp only [List.count_cons, List.count_append]
      omega

/-- A block of new memory, about to be given to `free`. -/
theorem Wf.grow {p n : Nat} (h : Wf base s l alloc) (hp : s.top ≤ p) (hn : 0 < n) :
    Wf base { s with
      size := update s.size p n
      top := p + n * sizeofHeader
      units := s.units + n } l (p :: alloc) := by
  have hgrow := h.tiles.grow sizeofHeader_pos hp (h.top.trans hp) hn
  rw [Nat.mul_comm] at hgrow
  have hold : ∀ x ∈ base :: l, update s.size p n x = s.size x := by
    intro x hx
    refine update_of_ne ?_ _ _
    rintro rfl
    rcases List.mem_cons.mp hx with rfl | hx
    · have := h.top
      simp only [sizeofHeader] at this
      omega
    · exact hgrow.notMem sizeofHeader_pos (List.mem_append_left _ hx)
  exact ⟨h.circular, gaps_congr hold h.gaps, (hold base List.mem_cons_self).trans h.base_size,
    h.freep, hgrow.perm List.perm_middle.symm, (h.top.trans hp).trans (Nat.le_add_right _ _)⟩

/-- `sbrk` fails and changes nothing, or gives memory above all earlier one that still fits. -/
def Gives (w : Arith) (sbrk : Brk) (top n : Nat) : Prop :=
  sbrk top n = (none, top) ∨ ∃ p, sbrk top n = (some p, p + n) ∧ top ≤ p ∧ w.fits (p + n)

theorem Wf.morecore (h : Wf base s l alloc)
    (hsbrk : ∀ n, nu ≤ n → n ≤ max 4096 nu → Gives w sbrk s.top (n * sizeofHeader)) :
    morecore w sbrk s nu = .ok (s, 0) ∨
      ∃ s' l', morecore w sbrk s nu = .ok (s', s'.freep) ∧ Wf base s' l' alloc ∧
        w.fits s'.top ∧ s'.alloc = s.alloc ∧ l'.length ≤ l.length + 1 ∧ ∃ x ∈ l', nu ≤ s'.size x := by
  unfold Umalloc.morecore
  dsimp only
  obtain ⟨n, hn⟩ : ∃ n, n = if nu < 4096 then 4096 else nu := ⟨_, rfl⟩
  have hnle : nu ≤ n ∧ 0 < n ∧ n ≤ max 4096 nu := by
    rw [hn]
    split <;> omega
  rw [← hn]
  obtain hcall | ⟨p, hcall, hfresh, hfit⟩ := hsbrk n hnle.1 hnle.2.2
  · exact .inl (by rw [hcall])
  · refine .inr ?_
    rw [hcall]
    dsimp only
    rw [w.exact hfit (by simp only [sizeofHeader]; omega)]
    obtain ⟨s', l', hfree, hwf', htop, halloc, hlen, x, hx, hle⟩ :=
      (h.grow hfresh hnle.2.1).free (w := w) hfit
    have hn : n ≤ update s.size p n p := by rw [update_self]
    refine ⟨s', l', ?_, hwf', by rwa [htop], halloc, hlen, x, hx, (hnle.1.trans hn).trans hle⟩
    rw [hfree]

/-- One round of the loop of `malloc`: it takes a block, or calls `morecore` when no block is large
enough. -/
theorem mallocLoop_round (w : Arith) (sbrk : Brk) (nu : Nat) :
    ∀ {c : List Nat} {prevp n : Nat}, Path s.ptr (prevp :: c) s.freep → s.freep ∉ c →
      c.length < n →
      (∃ q ∈ prevp :: c, nu ≤ s.size (s.ptr q) ∧
        mallocLoop w sbrk nu n s prevp (s.ptr prevp) = .ok (s.take w nu q (s.ptr q))) ∨
      (∀ x ∈ s.freep :: c, s.size x < nu) ∧ ∃ m, n = m + c.length + 1 ∧
        mallocLoop w sbrk nu n s prevp (s.ptr prevp) =
          match morecore w sbrk s nu with
          | .error e => .error e
          | .ok (s, p) => if p = 0 then .ok (s, 0) else mallocLoop w sbrk nu m s p (s.ptr p) := by
  intro c
  induction c with
  | nil =>
    rintro prevp n ⟨hprev, -⟩ - hn
    obtain ⟨n, rfl⟩ : ∃ m, n = m + 1 := ⟨n - 1, by simp at hn; omega⟩
    have hprev : s.ptr prevp = s.freep := hprev
    by_cases hsize : nu ≤ s.size (s.ptr prevp)
    · exact .inl ⟨prevp, List.mem_cons_self, hsize, by rw [mallocLoop, if_pos hsize]⟩
    · refine .inr ⟨?_, n, rfl, by rw [mallocLoop, if_neg hsize, if_pos hprev]⟩
      intro x hx
      obtain rfl := List.mem_singleton.mp hx
      rw [hprev] at hsize
      omega
  | cons y c ih =>
    rintro prevp n ⟨hprev, hpath⟩ hout hn
    obtain ⟨n, rfl⟩ : ∃ m, n = m + 1 := ⟨n - 1, by simp at hn; omega⟩
    have hprev : s.ptr prevp = y := hprev
    simp only [List.mem_cons, not_or] at hout
    by_cases hsize : nu ≤ s.size (s.ptr prevp)
    · exact .inl ⟨prevp, List.mem_cons_self, hsize, by rw [mallocLoop, if_pos hsize]⟩
    have hstep : mallocLoop w sbrk nu (n + 1) s prevp (s.ptr prevp)
        = mallocLoop w sbrk nu n s y (s.ptr y) := by
      rw [mallocLoop, if_neg hsize, hprev, if_neg (Ne.symm hout.1)]
    rw [hstep]
    rcases ih hpath hout.2 (n := n) (by simpa using hn) with
      ⟨q, hq, hle, hloop⟩ | ⟨hsmall, m, rfl, hloop⟩
    · exact .inl ⟨q, List.mem_cons_of_mem _ hq, hle, hloop⟩
    refine .inr ⟨?_, m, by simp only [List.length_cons]; omega, hloop⟩
    intro x hx
    rcases List.mem_cons.mp hx with rfl | hx
    · exact hsmall _ List.mem_cons_self
    · rcases List.mem_cons.mp hx with rfl | hx
      · rw [hprev] at hsize
        omega
      · exact hsmall x (List.mem_cons_of_mem _ hx)

theorem Wf.round (h : Wf base s l alloc) :
    ∃ c, Path s.ptr (s.freep :: c) s.freep ∧ s.freep ∉ c ∧ c.length = l.length ∧
      (s.freep :: c).Perm (base :: l) := by
  obtain ⟨c, hpath, hperm⟩ := h.circular.rotate h.freep
  have hnodup : (s.freep :: c).Nodup := hperm.nodup_iff.mpr (h.lt.imp fun hxy => Nat.ne_of_lt hxy)
  exact ⟨c, hpath, (List.nodup_cons.mp hnodup).1, by simpa using hperm.length_eq, hperm⟩

theorem Wf.mallocLoop (h : Wf base s l alloc) (hfit : w.fits s.top) (hbase : 0 < base)
    (hpos : 0 < nu)
    (hsbrk : ∀ n, nu ≤ n → n ≤ max 4096 nu → Gives w sbrk s.top (n * sizeofHeader)) :
    ∃ s' ap l', mallocLoop w sbrk nu (2 * s.units + 4) s s.freep (s.ptr s.freep) = .ok (s', ap) ∧
      w.fits s'.top ∧ s'.alloc = s.alloc ∧
      (ap = 0 ∧ Wf base s' l' alloc ∨
        ∃ hp, ap = hp + sizeofHeader ∧ Wf base s' l' (hp :: alloc) ∧ s'.size hp = nu) := by
  obtain ⟨c, hpath, hout, hlen, hperm⟩ := h.round
  have hle := h.length_le
  rcases mallocLoop_round w sbrk nu (n := 2 * s.units + 4) hpath hout (by omega) with
    ⟨q, hq, hsize, hloop⟩ | ⟨-, m, hm, hloop⟩
  · obtain ⟨hp, l', s', htake, hwf, htop, halloc, hnu⟩ :=
      h.take hfit hpos (hperm.mem_iff.mp hq) hsize
    rw [htake] at hloop
    exact ⟨s', _, l', hloop, by rwa [htop], halloc, .inr ⟨hp, rfl, hwf, hnu⟩⟩
  rcases h.morecore hsbrk with hmore | ⟨s1, l1, hmore, hwf1, hfit1, halloc1, hlen1, x, hx, hsize⟩
  · exact ⟨s, 0, l, by rw [hloop, hmore]; rfl, hfit, rfl, .inl ⟨rfl, h⟩⟩
  · -- the new block is found in the second round
    have hfreep : s1.freep ≠ 0 := by
      have := hwf1.base_le hwf1.freep
      omega
    obtain ⟨c1, hpath1, hout1, hlen2, hperm1⟩ := hwf1.round
    rcases mallocLoop_round w sbrk nu (n := m) hpath1 hout1 (by omega) with
      ⟨q, hq, hle, hloop1⟩ | ⟨hsmall, -⟩
    · obtain ⟨hp, l', s', htake, hwf, htop, halloc, hnu⟩ :=
        hwf1.take hfit1 hpos (hperm1.mem_iff.mp hq) hle
      refine ⟨s', _, l', ?_, by rwa [htop], halloc.trans halloc1, .inr ⟨hp, rfl, hwf, hnu⟩⟩
      rw [hloop, hmore]
      dsimp only
      rw [if_neg hfreep, hloop1, htake]
    · have := hsmall x (hperm1.mem_iff.mpr (List.mem_cons_of_mem _ hx))
      omega

end Malloc

/-! ## Runs -/

section Runs

variable {w : Arith} {sbrk : Brk} {base : Nat} {s : Heap} {l : List Nat}

/-- No call yet, or a well-formed heap. -/
def Inv (base : Nat) (s : Heap) : Prop :=
  s.freep = 0 ∧ s.units = 0 ∧ s.alloc = [] ∧ base + sizeofHeader ≤ s.top ∨
    ∃ l, Wf base s l s.alloc

theorem nunits_pos (nbytes : Nat) : 0 < nunits nbytes := Nat.succ_pos _

theorem Inv.ready (h : Inv base s) (hbase : 0 < base) :
    (s.ready base).alloc = s.alloc ∧ ∃ l, Wf base (s.ready base) l s.alloc := by
  rcases h with ⟨hfreep, hunits, halloc, htop⟩ | ⟨l, hwf⟩
  · rw [Heap.ready, if_pos hfreep]
    refine ⟨rfl, [], ⟨?_, trivial⟩, ?_, ?_, List.mem_cons_self, ?_, htop⟩
    · exact update_self ..
    · exact List.pairwise_singleton _ _
    · exact update_self ..
    · rw [halloc]
      exact ⟨nofun, nofun, nofun, .nil, hunits.symm⟩
  · have := hwf.base_le hwf.freep
    rw [Heap.ready, if_neg (by omega)]
    exact ⟨rfl, l, hwf⟩

/-- **`malloc` returns** null or a block of the units asked for, and the heap is well-formed. -/
theorem Inv.malloc (h : Inv base s) (hbase : 0 < base) (hfit : w.fits s.top) {nbytes : Nat}
    (hsbrk : ∀ n, nunits nbytes ≤ n → n ≤ max 4096 (nunits nbytes) →
      Gives w sbrk s.top (n * sizeofHeader)) :
    ∃ s' ap l', malloc w sbrk base s nbytes = .ok (s', ap) ∧ w.fits s'.top ∧ s'.alloc = s.alloc ∧
      (ap = 0 ∧ Wf base s' l' s.alloc ∨ ∃ hp, ap = hp + sizeofHeader ∧
        Wf base s' l' (hp :: s.alloc) ∧ s'.size hp = nunits nbytes) := by
  obtain ⟨halloc, l, hwf⟩ := h.ready hbase
  have htop : (s.ready base).top = s.top := by
    unfold Heap.ready
    split <;> rfl
  rw [← htop] at hfit hsbrk
  obtain ⟨s', ap, l', hm, hfit', halloc', hor⟩ :=
    hwf.mallocLoop hfit hbase (nunits_pos nbytes) hsbrk
  exact ⟨s', ap, l', hm, hfit', halloc'.trans halloc, hor⟩

theorem Inv.mallocStep (h : Inv base s) (hbase : 0 < base) (hfit : w.fits s.top) {nbytes : Nat}
    (hsbrk : ∀ n, nunits nbytes ≤ n → n ≤ max 4096 (nunits nbytes) →
      Gives w sbrk s.top (n * sizeofHeader)) :
    ∃ s', mallocStep w sbrk base s nbytes = .ok s' ∧ w.fits s'.top ∧
      ∃ l, Wf base s' l s'.alloc := by
  obtain ⟨s', ap, l', hm, hfit', halloc, hor⟩ := h.malloc hbase hfit hsbrk
  rw [Umalloc.mallocStep, hm]
  refine ⟨_, rfl, ?_⟩
  rcases hor with ⟨rfl, hwf⟩ | ⟨hp, rfl, hwf, -⟩
  · rw [if_pos rfl, halloc]
    exact ⟨hfit', l', hwf⟩
  · rw [if_neg (Nat.ne_of_gt (Nat.add_pos_right _ sizeofHeader_pos)), Nat.add_sub_cancel, halloc]
    exact ⟨hfit', l', { hwf with }⟩

theorem Inv.freeStep (h : Inv base s) (hfit : w.fits s.top) {ap : Nat} (hle : sizeofHeader ≤ ap)
    (hmem : ap - sizeofHeader ∈ s.alloc) :
    ∃ s', freeStep w s ap = .ok s' ∧ w.fits s'.top ∧ ∃ l, Wf base s' l s'.alloc := by
  rcases h with ⟨-, -, halloc, -⟩ | ⟨l, hwf⟩
  · rw [halloc] at hmem
    cases hmem
  · obtain ⟨s', l', hfree, hwf', htop, halloc, -⟩ :=
      (hwf.perm (List.perm_cons_erase hmem)).free hfit
    rw [Nat.sub_add_cancel hle] at hfree
    rw [Umalloc.freeStep, hfree]
    refine ⟨_, rfl, by rwa [htop], l', ?_⟩
    rw [halloc]
    exact { hwf' with }

theorem Sbrk.gives (sbrk : Sbrk) {top n : Nat} (hn : n < 2 ^ 32) : Gives .nat sbrk.brk top n := by
  unfold Gives Sbrk.brk
  rw [Nat.mod_eq_of_lt hn]
  cases hcall : sbrk.call top n with
  | none => exact .inl rfl
  | some p => exact .inr ⟨p, rfl, sbrk.fresh hcall, trivial⟩

theorem Inv.step (h : Inv base s) (hbase : 0 < base) {a : Action} (ha : Allowed s a) :
    ∃ s', step base s a = .ok s' ∧ ∃ l, Wf base s' l s'.alloc := by
  cases a with
  | malloc nbytes sbrk =>
    have hlt := ha.2
    have hgives : ∀ n, nunits nbytes ≤ n → n ≤ max 4096 (nunits nbytes) →
        Gives .nat sbrk.brk s.top (n * sizeofHeader) := fun n _ hn =>
      sbrk.gives (by simp only [sizeofHeader] at *; omega)
    obtain ⟨s', hs, -, hwf⟩ := h.mallocStep hbase trivial hgives
    exact ⟨s', hs, hwf⟩
  | free ap =>
    obtain ⟨s', hs, -, hwf⟩ := h.freeStep (w := .nat) trivial ha.1 ha.2
    exact ⟨s', hs, hwf⟩

/-- **Heap integrity.** -/
theorem heap_integrity (base : Nat) (hbase : 0 < base) (ptr size : Nat → Nat) (top : Nat)
    (htop : base + sizeofHeader ≤ top) (as : List Action)
    (hg : Guarded (step base) Allowed (init ptr size top) as) :
    ∃ t, run (step base) (init ptr size top) as = .ok t ∧
      (as ≠ [] → ∃ l, Wf base t l t.alloc) := by
  cases as with
  | nil => exact ⟨_, rfl, fun h => absurd rfl h⟩
  | cons a as =>
    obtain ⟨s, hs, hwf⟩ := Inv.step (.inl ⟨rfl, rfl, rfl, htop⟩) hbase hg.1
    obtain ⟨t, ht, hwf'⟩ := run_total (fun s => ∃ l, Wf base s l s.alloc)
      (fun s a hwf ha => Inv.step (.inr hwf) hbase ha) hwf ((guarded_cons hs).mp hg).2
    exact ⟨t, run_cons.mpr ⟨s, hs, ht⟩, fun _ => hwf'⟩

/-- Memory is always there, right above the earlier one. -/
def Sbrk.adjacent : Sbrk := ⟨fun top _ => some top, fun h => Nat.le_of_eq (Option.some.inj h)⟩

instance (s : Heap) : ∀ a, Decidable (Allowed s a)
  | .malloc nbytes _ =>
    inferInstanceAs (Decidable
      (nbytes + sizeofHeader - 1 < 2 ^ 32 ∧ nunits nbytes * sizeofHeader < 2 ^ 32))
  | .free ap => inferInstanceAs (Decidable (sizeofHeader ≤ ap ∧ ap - sizeofHeader ∈ s.alloc))

/-- Two blocks from one region, and the first one given back. -/
theorem heap_integrity_two_blocks :
    ∃ t, run (step 8) (init (fun _ => 0) (fun _ => 0) 16)
      [.malloc 10 .adjacent, .malloc 0 .adjacent, .free 32768] = .ok t ∧
      ([Action.malloc 10 .adjacent, .malloc 0 .adjacent, .free 32768] ≠ [] →
        ∃ l, Wf 8 t l t.alloc) :=
  heap_integrity 8 (by decide) _ _ 16 (by decide) _ (by decide +kernel)

end Runs

end Xv6Mmap.Umalloc
