import Xv6Mmap.Sbrk
import Xv6Mmap.Umalloc

/-!
# `malloc` in 32 bits (`umalloc.c`, `sysproc.c:45-57`, `proc.c:193-212`)

In `Umalloc` addresses and sizes are natural numbers and `sbrk` returns memory above all earlier
one. Here the arithmetic of `malloc` and `free` is that of the machine, and `sbrk` is the system
call: its argument is an `int`, it adds it to the size of the process modulo `2 ^ 32` and returns the
size before, whatever became of it. The field `top` of the heap is the break of the process. An
access to memory that is not mapped is not modelled; the process is killed, and `malloc` does not
return.

* `growproc_sysSbrk`: `sysSbrk` is `growproc` without the page table.
* `kernelBrk_gives`: for less than `2 ^ 31` bytes `sbrk` fails, or gives memory at the break and
  below `KERNBASE`. Then nothing wraps, and what `Umalloc` says of the heap holds here.
* **`malloc_enough_of_guarded_run`**: `malloc` returns enough memory, as long as a request is less
  than `2 ^ 31` bytes, header included. A larger request is counted modulo `2 ^ 32` and gets eight
  bytes, or turns `sbrk` around and gets memory above the break (`malloc_too_small`).
-/

namespace Xv6Mmap.Umalloc

open Lib

/-! ## `sbrk` -/

/-- The size that `allocuvm` and `deallocuvm` return in `growproc`, zero for failure; `enough` says
whether there is memory for a growth. -/
def newSize (enough : Bool) (sz n : Word) : Word :=
  if 0 < n.toInt then
    if kernBase ≤ sz + n then 0#32
    else if sz + n < sz then sz
    else if enough then sz + n else 0#32
  else if sz ≤ sz + n then sz else sz + n

/-- `sys_sbrk`: the address it returns, none for `-1`, and the size of the process after it. -/
def sysSbrk (enough : Bool) (sz n : Word) : Option Word × Word :=
  if n.toInt = 0 then (some sz, sz)
  else if newSize enough sz n = 0#32 then (none, sz)
  else (some sz, newSize enough sz n)

variable {k k' : Kmem} {d : PgDir} {sz : Word}

theorem setSize_ok {p p' : Proc} {b : Bool} (h : setSize k p d sz = .ok (b, k', p')) :
    b = true ∧ p'.sz = sz := by
  unfold setSize at h
  rcases hs : switchuvm { p with pgdir := d, sz := sz } with _ | u <;> rw [hs] at h
  · cases h
  cases h
  exact ⟨rfl, rfl⟩

variable {r : Word} {d' : PgDir}

theorem allocLoop_size {oldsz newsz : Word} {a : Word} {fuel : Nat}
    (h : allocLoop oldsz newsz fuel k d a = .ok (r, k', d')) : r = 0#32 ∨ r = newsz := by
  induction fuel generalizing k d a with
  | zero => cases h
  | succ fuel ih =>
    rw [allocLoop] at h
    split at h
    · split at h
      · split at h <;> cases h
        exact .inl rfl
      · split at h
        · cases h
        · exact ih h
        · split at h
          · cases h
          · split at h <;> cases h
            exact .inl rfl
    · cases h
      exact .inr rfl

variable {n : Word}

theorem allocuvm_size (hn : 0 < n.toInt) (h : allocuvm k d sz (sz + n) = .ok (r, k', d')) :
    ∃ enough, r = newSize enough sz n := by
  unfold allocuvm at h
  unfold newSize
  simp only [if_pos hn]
  split at h
  case isTrue hk =>
    cases h
    exact ⟨true, by rw [if_pos hk]⟩
  case isFalse hk =>
    simp only [if_neg hk]
    split at h
    case isTrue hw =>
      cases h
      exact ⟨true, by rw [if_pos hw]⟩
    case isFalse hw =>
      simp only [if_neg hw]
      rcases allocLoop_size h with rfl | rfl
      · exact ⟨false, rfl⟩
      · exact ⟨true, rfl⟩

theorem deallocuvm_size (hn : ¬ 0 < n.toInt) (h : deallocuvm k d sz (sz + n) = .ok (r, k', d')) :
    r = newSize true sz n := by
  unfold deallocuvm at h
  unfold newSize
  rw [if_neg hn]
  split at h
  case isTrue hle =>
    cases h
    rw [if_pos hle]
  case isFalse hle =>
    rw [if_neg hle]
    split at h <;> cases h
    rfl

/-- **`sysSbrk` is `growproc`**, if it returns. -/
theorem growproc_sysSbrk {p p' : Proc} {done : Bool} (h : growproc k p n = .ok (done, k', p')) :
    ∃ enough, sysSbrk enough p.sz n = (if done then some p.sz else none, p'.sz) := by
  have hend : ∀ {r : Word} {k1 : Kmem} {d1 : PgDir} {enough : Bool}, n.toInt ≠ 0 →
      r = newSize enough p.sz n →
      (if r = 0#32 then .ok (false, k1, { p with pgdir := d1 }) else setSize k1 p d1 r) =
        (.ok (done, k', p') : Except Halt (Bool × Kmem × Proc)) →
      sysSbrk enough p.sz n = (if done then some p.sz else none, p'.sz) := by
    intro r k1 d1 enough hn hr hcase
    unfold sysSbrk
    rw [if_neg hn, ← hr]
    split at hcase
    case isTrue hzero =>
      cases hcase
      rw [if_pos hzero]
      rfl
    case isFalse hpos =>
      obtain ⟨rfl, hsz⟩ := setSize_ok hcase
      rw [if_neg hpos, hsz]
      rfl
  unfold growproc at h
  by_cases hpos : 0 < n.toInt
  · rw [if_pos hpos] at h
    cases ha : allocuvm k p.pgdir p.sz (p.sz + n) with
    | error e =>
      simp only [ha] at h
      cases h
    | ok r =>
      obtain ⟨r, k1, d1⟩ := r
      simp only [ha] at h
      obtain ⟨enough, hr⟩ := allocuvm_size hpos ha
      exact ⟨enough, hend (by omega) hr h⟩
  · rw [if_neg hpos] at h
    by_cases hneg : n.toInt < 0
    · rw [if_pos hneg] at h
      cases hd : deallocuvm k p.pgdir p.sz (p.sz + n) with
      | error e =>
        simp only [hd] at h
        cases h
      | ok r =>
        obtain ⟨r, k1, d1⟩ := r
        simp only [hd] at h
        exact ⟨true, hend (by omega) (deallocuvm_size hpos hd) h⟩
    · rw [if_neg hneg] at h
      obtain ⟨rfl, hsz⟩ := setSize_ok h
      refine ⟨true, ?_⟩
      unfold sysSbrk
      rw [if_pos (by omega), hsz]
      rfl

/-! ## The code -/

/-- The value of a `uint`. -/
def u32 (n : Nat) : Nat := n % 2 ^ 32

/-- `(Header*)ap - 1`. -/
def headerOf (ap : Nat) : Nat :=
  if sizeofHeader ≤ ap then ap - sizeofHeader else 2 ^ 32 + ap - sizeofHeader

theorem u32_of_le {top n : Nat} (htop : top < 2 ^ 31) (hn : n ≤ top) : u32 n = n :=
  Nat.mod_eq_of_lt (by omega)

theorem headerOf_add (bp : Nat) : headerOf (bp + sizeofHeader) = bp := by
  rw [headerOf, if_pos (Nat.le_add_left ..), Nat.add_sub_cancel]

/-- In 32 bits: nothing wraps where memory ends below `KERNBASE`. -/
def Arith.machine : Arith where
  wrap := u32
  header := headerOf
  fits top := top < 2 ^ 31
  exact := u32_of_le
  header_add := headerOf_add

/-- `sbrk(n)` at size `top`; `enough` says whether it finds memory. -/
def kernelBrk (enough : Word → Word → Bool) : Brk := fun top n =>
  let sz := BitVec.ofNat 32 top
  let n := BitVec.ofNat 32 n
  let r := sysSbrk (enough sz n) sz n
  (r.1.map BitVec.toNat, r.2.toNat)

/-- `malloc(nbytes)`. -/
def malloc32 (base : Nat) (s : Heap) (nbytes : Nat) (enough : Word → Word → Bool) :
    Except Halt (Heap × Nat) :=
  malloc .machine (kernelBrk enough) base s nbytes

inductive Action32 where
  | malloc (nbytes : Nat) (enough : Word → Word → Bool)
  | free (ap : Nat)

def step32 (base : Nat) (s : Heap) : Action32 → Except Halt Heap
  | .malloc nbytes enough => mallocStep .machine (kernelBrk enough) base s nbytes
  | .free ap => freeStep .machine s ap

/-- A request is less than `2 ^ 31` bytes with the header and the rounding, and a `free` is of a
block that `malloc` returned. -/
def Allowed32 (s : Heap) : Action32 → Prop
  | .malloc nbytes _ => nbytes ≤ 2 ^ 31 - 16
  | .free ap => sizeofHeader ≤ ap ∧ ap - sizeofHeader ∈ s.alloc

/-! ## Where nothing wraps -/

theorem toNat_ofNat_of_lt {n : Nat} (h : n < 2 ^ 32) : (BitVec.ofNat 32 n).toNat = n := by
  rw [BitVec.toNat_ofNat, Nat.mod_eq_of_lt h]

theorem sysSbrk_eq {sz n : Nat} (hsz : sz < 2 ^ 31) (hn : 0 < n) (hlt : n < 2 ^ 31) (b : Bool) :
    sysSbrk b (BitVec.ofNat 32 sz) (BitVec.ofNat 32 n) =
      if sz + n < 2 ^ 31 ∧ b = true then (some (BitVec.ofNat 32 sz), BitVec.ofNat 32 (sz + n))
      else (none, BitVec.ofNat 32 sz) := by
  have hnat : (BitVec.ofNat 32 n).toNat = n := toNat_ofNat_of_lt (by omega)
  have hsznat : (BitVec.ofNat 32 sz).toNat = sz := toNat_ofNat_of_lt (by omega)
  have hint : (BitVec.ofNat 32 n).toInt = n := by
    rw [BitVec.toInt_eq_toNat_of_lt (by omega), hnat]
  have hsum : BitVec.ofNat 32 sz + BitVec.ofNat 32 n = BitVec.ofNat 32 (sz + n) :=
    (BitVec.ofNat_add ..).symm
  have hsumnat : (BitVec.ofNat 32 (sz + n)).toNat = sz + n := toNat_ofNat_of_lt (by omega)
  have hbase : kernBase ≤ BitVec.ofNat 32 (sz + n) ↔ ¬ sz + n < 2 ^ 31 := by
    rw [BitVec.le_def, hsumnat]
    show 2 ^ 31 ≤ sz + n ↔ _
    omega
  have hwrap : ¬ BitVec.ofNat 32 (sz + n) < BitVec.ofNat 32 sz := by
    rw [BitVec.lt_def, hsumnat, hsznat]
    omega
  have hpos : BitVec.ofNat 32 (sz + n) ≠ 0#32 := fun h => by
    have := congrArg BitVec.toNat h
    rw [hsumnat] at this
    simp at this
    omega
  have hnew : newSize b (BitVec.ofNat 32 sz) (BitVec.ofNat 32 n) =
      if sz + n < 2 ^ 31 ∧ b = true then BitVec.ofNat 32 (sz + n) else 0#32 := by
    unfold newSize
    rw [hint, if_pos (by omega), hsum, if_neg hwrap]
    by_cases hlow : sz + n < 2 ^ 31
    · rw [if_neg (fun h => hbase.mp h hlow)]
      cases b with
      | true => rw [if_pos rfl, if_pos ⟨hlow, rfl⟩]
      | false => rw [if_neg Bool.false_ne_true, if_neg (fun h => Bool.false_ne_true h.2)]
    · rw [if_pos (hbase.mpr hlow), if_neg (fun h => hlow h.1)]
  unfold sysSbrk
  rw [hnew, hint, if_neg (by omega)]
  by_cases hok : sz + n < 2 ^ 31 ∧ b = true
  · rw [if_pos hok, if_pos hok, if_neg hpos]
  · rw [if_neg hok, if_neg hok, if_pos rfl]

theorem kernelBrk_gives {top n : Nat} (htop : top < 2 ^ 31) (hn : 0 < n) (hlt : n < 2 ^ 31)
    (enough : Word → Word → Bool) : Gives .machine (kernelBrk enough) top n := by
  unfold Gives kernelBrk
  dsimp only
  rw [sysSbrk_eq htop hn hlt]
  split
  case isTrue hok =>
    refine .inr ⟨top, ?_, le_rfl, hok.1⟩
    rw [Option.map_some, toNat_ofNat_of_lt (by omega), toNat_ofNat_of_lt (by omega)]
  case isFalse =>
    refine .inl ?_
    rw [Option.map_none, toNat_ofNat_of_lt (by omega)]

/-! ## What `malloc` returns -/

/-- The `nbytes` bytes from `ap` on lie in a block of the heap below the break, which is apart from
all other blocks. -/
structure Enough (base nbytes : Nat) (s : Heap) (ap : Nat) : Prop where
  header : sizeofHeader ≤ ap
  inside : ap + nbytes ≤ ap - sizeofHeader + sizeofHeader * s.size (ap - sizeofHeader)
  below : ap - sizeofHeader + sizeofHeader * s.size (ap - sizeofHeader) ≤ s.top
  /-- `l` are the free blocks, `s.alloc` the other blocks in use. -/
  apart : ∃ l, Path s.ptr (base :: l) base ∧
    ∀ x ∈ l ++ s.alloc, Apart sizeofHeader s.size (ap - sizeofHeader) x

section Runs

variable {base : Nat} {s : Heap} {nbytes : Nat}

theorem nunits_mul_lt (h : nbytes ≤ 2 ^ 31 - 16) :
    nunits nbytes * sizeofHeader < 2 ^ 31 := by
  unfold nunits sizeofHeader
  omega

theorem le_nunits_mul (h : nbytes ≤ 2 ^ 31 - 16) :
    sizeofHeader + nbytes ≤ sizeofHeader * nunits nbytes := by
  unfold nunits sizeofHeader
  omega

theorem gives_of_le (hn : nbytes ≤ 2 ^ 31 - 16) (htop : s.top < 2 ^ 31)
    (enough : Word → Word → Bool) (n : Nat) (hle : nunits nbytes ≤ n)
    (hmax : n ≤ max 4096 (nunits nbytes)) :
    Gives .machine (kernelBrk enough) s.top (n * sizeofHeader) := by
  have hpos := nunits_pos nbytes
  have hlt := nunits_mul_lt hn
  unfold sizeofHeader at *
  exact kernelBrk_gives htop (by omega) (by omega) enough

/-- **`malloc` returns enough memory**, or null. -/
theorem Inv.malloc32 (h : Inv base s) (hbase : 0 < base) (htop : s.top < 2 ^ 31)
    (hn : nbytes ≤ 2 ^ 31 - 16) (enough : Word → Word → Bool) :
    ∃ s' ap, Umalloc.malloc32 base s nbytes enough = .ok (s', ap) ∧
      (ap ≠ 0 → Enough base nbytes s' ap) := by
  obtain ⟨s', ap, l', hm, -, halloc, hor⟩ := h.malloc hbase htop (gives_of_le hn htop enough)
  refine ⟨s', ap, hm, fun hap => ?_⟩
  obtain ⟨hp, rfl, hwf, hsize⟩ := hor.resolve_left fun h => hap h.1
  have hle := le_nunits_mul hn
  refine ⟨Nat.le_add_left .., ?_, ?_, l', hwf.circular, fun x hx => ?_⟩ <;>
    rw [Nat.add_sub_cancel]
  · rw [hsize]
    omega
  · exact hwf.tiles.le_hi hp (by simp)
  · rw [halloc] at hx
    exact (hwf.tiles.perm List.perm_middle).apart_cons x hx

theorem Inv.step32 (h : Inv base s) (hbase : 0 < base) (htop : s.top < 2 ^ 31) {a : Action32}
    (ha : Allowed32 s a) :
    ∃ s', Umalloc.step32 base s a = .ok s' ∧ Inv base s' ∧ s'.top < 2 ^ 31 := by
  cases a with
  | malloc nbytes enough =>
    obtain ⟨s', hs, hfit, hwf⟩ := h.mallocStep (w := .machine) hbase htop (gives_of_le ha htop enough)
    exact ⟨s', hs, .inr hwf, hfit⟩
  | free ap =>
    obtain ⟨s', hs, hfit, hwf⟩ := h.freeStep (w := .machine) htop ha.1 ha.2
    exact ⟨s', hs, .inr hwf, hfit⟩

/-- **`malloc` returns enough memory.** In every run of `malloc` and `free` whose requests are at
most `2 ^ 31 - 16` bytes, from a process with any memory and any break below `KERNBASE`. -/
theorem malloc_enough_of_guarded_run (base : Nat) (hbase : 0 < base) (ptr size : Nat → Nat)
    (sz : Nat) (hsz : base + sizeofHeader ≤ sz) (hlow : sz < 2 ^ 31) (as : List Action32)
    (hg : Guarded (step32 base) Allowed32 (init ptr size sz) as) (nbytes : Nat)
    (hn : nbytes ≤ 2 ^ 31 - 16) (enough : Word → Word → Bool) :
    ∃ t s' ap, run (step32 base) (init ptr size sz) as = .ok t ∧
      malloc32 base t nbytes enough = .ok (s', ap) ∧
      (ap ≠ 0 → Enough base nbytes s' ap) := by
  have hinit : Inv base (init ptr size sz) ∧ (init ptr size sz).top < 2 ^ 31 :=
    ⟨.inl ⟨rfl, rfl, rfl, hsz⟩, hlow⟩
  obtain ⟨t, ht, hinv, htop⟩ := run_total (fun s => Inv base s ∧ s.top < 2 ^ 31)
    (fun s a h ha => h.1.step32 hbase h.2 ha) hinit hg
  obtain ⟨s', ap, hm, henough⟩ := hinv.malloc32 hbase htop hn enough
  exact ⟨t, s', ap, ht, hm, henough⟩

instance (s : Heap) : ∀ a, Decidable (Allowed32 s a)
  | .malloc nbytes _ => inferInstanceAs (Decidable (nbytes ≤ 2 ^ 31 - 16))
  | .free ap => inferInstanceAs (Decidable (sizeofHeader ≤ ap ∧ ap - sizeofHeader ∈ s.alloc))

/-- A block given back, and then a larger one. -/
theorem malloc_enough_after_free :
    ∃ t s' ap, run (step32 8192) (init (fun _ => 0) (fun _ => 0) 12288)
        [.malloc 10 fun _ _ => true, .free 45040] = .ok t ∧
      malloc32 8192 t 100 (fun _ _ => true) = .ok (s', ap) ∧
      (ap ≠ 0 → Enough 8192 100 s' ap) :=
  malloc_enough_of_guarded_run 8192 (by decide) _ _ 12288 (by decide) (by decide) _
    (by decide +kernel) 100 (by decide) _

theorem exists_ok_of_any {α : Type} {x : Except Halt α} {P : α → Bool}
    (h : x.toOption.any P = true) : ∃ r, x = .ok r ∧ P r = true := by
  cases x with
  | error e => cases h
  | ok r => exact ⟨r, rfl, h⟩

/-- The first request of a process for almost all of the address space: it gets a block of eight
bytes. And a request for half of it, when the break is in the middle of a page: `sbrk` of a
negative number changes nothing, and the block is above the break. -/
theorem malloc_too_small :
    (∃ s' ap, malloc32 8192 (init (fun _ => 0) (fun _ => 0) 12288) (2 ^ 32 - 1)
        (fun _ _ => true) = .ok (s', ap) ∧ ap ≠ 0 ∧ s'.size (ap - sizeofHeader) = 1) ∧
      ∃ t s' ap, run (step32 8192) (init (fun _ => 0) (fun _ => 0) 12288)
          [.malloc 40000 fun _ _ => true] = .ok t ∧
        malloc32 8192 t (2 ^ 31) (fun _ _ => true) = .ok (s', ap) ∧ ap ≠ 0 ∧ s'.top < ap := by
  constructor
  · obtain ⟨⟨s', ap⟩, hm, hP⟩ := exists_ok_of_any (P := fun r : Heap × Nat =>
      decide (r.2 ≠ 0 ∧ r.1.size (r.2 - sizeofHeader) = 1))
      (x := malloc32 8192 (init (fun _ => 0) (fun _ => 0) 12288) (2 ^ 32 - 1) fun _ _ => true)
      (by decide +kernel)
    exact ⟨s', ap, hm, of_decide_eq_true hP⟩
  · obtain ⟨t, ht, hP⟩ := exists_ok_of_any (P := fun t : Heap =>
      (malloc32 8192 t (2 ^ 31) fun _ _ => true).toOption.any fun r : Heap × Nat =>
        decide (r.2 ≠ 0 ∧ r.1.top < r.2))
      (x := run (step32 8192) (init (fun _ => 0) (fun _ => 0) 12288)
        [.malloc 40000 fun _ _ => true]) (by decide +kernel)
    obtain ⟨⟨s', ap⟩, hm, hP⟩ := exists_ok_of_any hP
    exact ⟨t, s', ap, ht, hm, of_decide_eq_true hP⟩

end Runs

end Xv6Mmap.Umalloc
