import Mathlib.Data.BitVec
import Mathlib.Tactic.Linarith

/-!
# Words, pages and the address macros (`types.h`, `param.h`, `fcntl.h`, `mmu.h`, `memlayout.h`,
`wmap.h`)

An `int` and a `uint` of the source are the same 32 bits, so both are a `Word`. A comparison of
`uint`s is a comparison of `toNat`, one of `int`s a comparison of `toInt`, and arithmetic wraps:
the kernel is built for a two's complement machine, and the code relies on it (`MAX_ADDR + 1`
stored in an `int`, `uint` addresses kept in `int` variables).

* `pgRoundUp`, `pgRoundDown`, `pdx`, `ptx`, `pteAddr` are the macros as written; the lemmas next
  to them give their values in `Nat` arithmetic, and nothing later unfolds them.
* `vpn va` is the number of the virtual page of `va`; it decides the pair of indices
  `walkpgdir` uses (`pdx_eq`, `ptx_eq`).
-/

namespace Xv6Mmap

/-- The 32 bits of an `int`, a `uint` or a pointer. -/
abbrev Word := BitVec 32

/-! ## Constants -/

def pgSize : Word := 4096#32
def kernBase : Word := 0x80000000#32
def extMem : Word := 0x100000#32
def phystop : Word := 0xE000000#32
def devSpace : Word := 0xFE000000#32
def kernLink : Word := kernBase + extMem
def minAddr : Word := 0x60000000#32
def maxAddr : Word := 0x80000000#32

/-- `MAX_WMMAP_INFO`: the slots of a mapping table. -/
def maxWmmapInfo : Nat := 16
/-- `NPROC`. -/
def nproc : Nat := 64
/-- `NOFILE`. -/
def nofile : Nat := 16
/-- `NFILE`. -/
def nfile : Nat := 100

def mapPrivate : Word := 1#32
def mapShared : Word := 2#32
def mapAnonymous : Word := 4#32
def mapFixed : Word := 8#32

def oWronly : Word := 1#32
def oRdwr : Word := 2#32
def oCreate : Word := 0x200#32

def pteP : Word := 1#32
def pteW : Word := 2#32
def pteU : Word := 4#32

/-- `FAILED`, the `-1` of every failing system call. -/
def failed : Word := -1#32
/-- `SUCCESS`. -/
def success : Word := 0#32

/-- A flag test `flags & f` of the source. -/
def hasFlag (flags f : Word) : Bool := flags &&& f != 0#32

/-! ## Macros -/

def pgRoundUp (sz : Word) : Word := (sz + pgSize - 1#32) &&& ~~~(pgSize - 1#32)
def pgRoundDown (a : Word) : Word := a &&& ~~~(pgSize - 1#32)
def pteAddr (pte : Word) : Word := pte &&& ~~~0xFFF#32
def pteFlags (pte : Word) : Word := pte &&& 0xFFF#32
def v2p (a : Word) : Word := a - kernBase
/-- `P2V(a)`, with the constant first: evaluation then stops at an `a` that is not a numeral. -/
def p2v (a : Word) : Word := kernBase + a

/-- `PDX(va)`, as an index. -/
def pdx (va : Word) : Nat := ((va >>> 22) &&& 0x3FF#32).toNat
/-- `PTX(va)`, as an index. -/
def ptx (va : Word) : Nat := ((va >>> 12) &&& 0x3FF#32).toNat

/-- `PGADDR(d, 0, 0)`. -/
def pgAddr (d : Nat) : Word := BitVec.ofNat 32 d <<< 22

/-- The number of the virtual page that holds `va`. -/
def vpn (va : Word) : Nat := va.toNat / 4096

/-! ## Their values -/

theorem and_not_low_toNat (x : Word) {n : Nat} (hn : n ≤ 32) :
    (x &&& ~~~BitVec.ofNat 32 (2 ^ n - 1)).toNat = x.toNat / 2 ^ n * 2 ^ n := by
  apply Nat.eq_of_testBit_eq
  intro i
  rw [Nat.testBit_mul_two_pow, Nat.testBit_div_two_pow, BitVec.testBit_toNat, BitVec.getLsbD_and,
    BitVec.getLsbD_not, BitVec.getLsbD_ofNat, Nat.testBit_two_pow_sub_one]
  by_cases hin : n ≤ i
  · by_cases h32 : i < 32
    · simp [hin, h32, Nat.not_lt.mpr hin, BitVec.testBit_toNat]
    · simp [hin, h32, BitVec.testBit_toNat, BitVec.getLsbD_of_ge x i (by omega)]
  · have h32 : i < 32 := by omega
    simp [hin, h32, Nat.lt_of_not_le hin]

theorem and_not_fff_toNat (x : Word) : (x &&& ~~~0xFFF#32).toNat = x.toNat / 4096 * 4096 :=
  and_not_low_toNat x (n := 12) (by decide)

theorem pgRoundDown_toNat (a : Word) : (pgRoundDown a).toNat = a.toNat / 4096 * 4096 :=
  and_not_fff_toNat a

theorem pteAddr_toNat (a : Word) : (pteAddr a).toNat = a.toNat / 4096 * 4096 :=
  and_not_fff_toNat a

/-- `PGROUNDUP` before the wrap of `sz + PGSIZE - 1` is taken into account. -/
theorem pgRoundUp_toNat (sz : Word) :
    (pgRoundUp sz).toNat = (sz.toNat + 4095) % 2 ^ 32 / 4096 * 4096 := by
  have h : (sz + pgSize - 1#32).toNat = (sz.toNat + 4095) % 2 ^ 32 := by
    unfold pgSize
    bv_omega
  rw [← h]
  exact and_not_fff_toNat _

theorem and_3ff_toNat (x : Word) : (x &&& 0x3FF#32).toNat = x.toNat % 1024 := by
  rw [BitVec.toNat_and, show (0x3FF#32 : Word).toNat = 2 ^ 10 - 1 from rfl,
    Nat.and_two_pow_sub_one_eq_mod]

theorem pdx_eq (va : Word) : pdx va = vpn va / 1024 := by
  have := va.isLt
  unfold pdx vpn
  rw [and_3ff_toNat, BitVec.toNat_ushiftRight, Nat.shiftRight_eq_div_pow]
  omega

theorem ptx_eq (va : Word) : ptx va = vpn va % 1024 := by
  unfold ptx vpn
  rw [and_3ff_toNat, BitVec.toNat_ushiftRight, Nat.shiftRight_eq_div_pow]

theorem toNat_add_pgSize {a : Word} (h : a.toNat + 4096 < 2 ^ 32) :
    (a + pgSize).toNat = a.toNat + 4096 := by
  unfold pgSize
  bv_omega

theorem vpn_add_pgSize {a : Word} (h : a.toNat + 4096 < 2 ^ 32) :
    vpn (a + pgSize) = vpn a + 1 := by
  unfold vpn
  rw [toNat_add_pgSize h]
  omega

theorem pgAddr_toNat {d : Nat} (h : d < 1024) : (pgAddr d).toNat = d * 4194304 := by
  unfold pgAddr
  rw [BitVec.toNat_shiftLeft, BitVec.toNat_ofNat, Nat.shiftLeft_eq]
  omega

theorem p2v_v2p (v : Word) : p2v (v2p v) = v := by
  unfold p2v v2p
  bv_omega

/-! ## Page table entries -/

/-- The flag bits of a mapping request: what fits in the low twelve bits. -/
theorem pteAddr_or {pa perm : Word} (hpa : pa.toNat % 4096 = 0) (hperm : perm.toNat < 4096) :
    pteAddr (pa ||| perm ||| pteP) = pa := by
  have hlow : ∀ x : Word, x.toNat < 4096 → x &&& ~~~0xFFF#32 = 0#32 := fun x hx => by
    apply BitVec.eq_of_toNat_eq
    rw [and_not_fff_toNat]
    simp only [BitVec.toNat_ofNat]
    omega
  have hself : pa &&& ~~~0xFFF#32 = pa := by
    apply BitVec.eq_of_toNat_eq
    rw [and_not_fff_toNat]
    omega
  unfold pteAddr
  rw [BitVec.and_or_distrib_right, BitVec.and_or_distrib_right, hself, hlow perm hperm,
    hlow pteP (by decide)]
  simp

theorem v2p_aligned {v : Word} (h : v.toNat % 4096 = 0) : (v2p v).toNat % 4096 = 0 := by
  unfold v2p kernBase
  bv_omega

/-- The kernel address of the page that an entry was made for. -/
theorem p2v_pteAddr_or {v perm : Word} (hv : v.toNat % 4096 = 0) (hperm : perm.toNat < 4096) :
    p2v (pteAddr (v2p v ||| perm ||| pteP)) = v := by
  rw [pteAddr_or (v2p_aligned hv) hperm, p2v_v2p]

theorem pteFlags_lt (pte : Word) : (pteFlags pte).toNat < 4096 := by
  unfold pteFlags
  rw [BitVec.toNat_and]
  exact Nat.lt_of_le_of_lt Nat.and_le_right (by decide)

theorem toNat_add_ofNat {a : Word} {i : Nat} (h : a.toNat + i < 2 ^ 32) :
    (a + BitVec.ofNat 32 i).toNat = a.toNat + i := by
  bv_omega

/-- The entry is present (`*pte & PTE_P`). -/
def present (pte : Word) : Bool := hasFlag pte pteP
/-- The entry is a user entry (`*pte & PTE_U`). -/
def userPte (pte : Word) : Bool := hasFlag pte pteU

/-- The address bits of an aligned physical address say nothing about `PTE_U`. -/
theorem userPte_or {pa : Word} (hpa : pa.toNat % 4096 = 0) (perm : Word) :
    userPte (pa ||| perm ||| pteP) = userPte perm := by
  have hself : pa &&& ~~~0xFFF#32 = pa := by
    apply BitVec.eq_of_toNat_eq
    rw [and_not_fff_toNat]
    omega
  have hpaU : pa &&& pteU = 0#32 := by
    rw [← hself, BitVec.and_assoc, show ~~~0xFFF#32 &&& pteU = 0#32 by decide, BitVec.and_zero]
  unfold userPte hasFlag
  rw [BitVec.and_or_distrib_right, BitVec.and_or_distrib_right, hpaU,
    show pteP &&& pteU = 0#32 by decide, BitVec.zero_or, BitVec.or_zero]

@[simp] theorem present_zero : present 0#32 = false := by decide

theorem present_or (pa perm : Word) : present (pa ||| perm ||| pteP) = true := by
  unfold present hasFlag
  rw [bne_iff_ne]
  intro h
  have := congrArg (fun x : Word => x.getLsbD 0) h
  simp [pteP] at this

end Xv6Mmap
