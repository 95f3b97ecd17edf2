import Xv6Mmap.Holdings

/-!
# The ways `fork` goes (`proc.c:300-407`)

One inversion lemma for each loop of `fork` and for the function: what was called, in which order,
and with what the call ends. A private mapping takes a page for each page of its interval, a shared
one gets the parent's.
-/

namespace Xv6Mmap

open Lib

/-- The page `n` is one that the loops of `fork` visit. -/
def MemBlock.Inside (b : MemBlock) (n : Nat) : Prop :=
  b.start.toNat ≤ 4096 * n ∧ 4096 * n < b.end_.toNat

theorem next_page {va bound : Word} (hal : va.toNat % 4096 = 0) (hb : bound.toNat ≤ 0xFFFFF000)
    (h : va < bound) : (va + pgSize).toNat = va.toNat + 4096 ∧ va.toNat = 4096 * vpn va := by
  rw [BitVec.lt_def] at h
  unfold pgSize vpn
  refine ⟨?_, by omega⟩
  bv_omega

/-! ## The inheritance loop -/

/-- The entry is one that `fork` passes on. -/
def MemBlock.Inherited (b : MemBlock) : Prop :=
  b.valid ≠ 0#32 ∧ (hasFlag b.flags mapPrivate = true ∨ hasFlag b.flags mapShared = true)

theorem forkEntry_cases {cur np np' : Proc} {k k' : Kmem} {i : Nat}
    (h : forkEntry cur np k i = .ok (k', np')) :
    (¬ (cur.maps.arr i).Inherited ∧ k' = k ∧ np' = np) ∨
      (cur.maps.arr i).Inherited ∧ ∃ d,
        np' = { np with maps := np.maps.inherit cur.maps i, pgdir := d } ∧
        (hasFlag (cur.maps.arr i).flags mapPrivate = true ∧
          privateLoop cur.pgdir (cur.maps.arr i) 1048577 k np.pgdir (cur.maps.arr i).start
            = .ok (k', d) ∨
          hasFlag (cur.maps.arr i).flags mapPrivate = false ∧
          sharedLoop cur.pgdir (cur.maps.arr i) 1048577 k np.pgdir (cur.maps.arr i).start
            = .ok (k', d)) := by
  unfold forkEntry at h
  dsimp only at h
  by_cases hv : (cur.maps.arr i).valid = 0#32
  · rw [if_pos hv] at h
    cases h
    exact .inl ⟨fun hin => hin.1 hv, rfl, rfl⟩
  rw [if_neg hv] at h
  by_cases hpriv : hasFlag (cur.maps.arr i).flags mapPrivate = true
  · rw [if_pos hpriv] at h
    rcases hl : privateLoop cur.pgdir (cur.maps.arr i) 1048577 k np.pgdir (cur.maps.arr i).start
      with _ | r <;> rw [hl] at h <;> cases h
    exact .inr ⟨⟨hv, .inl hpriv⟩, r.2, rfl, .inl ⟨hpriv, rfl⟩⟩
  rw [if_neg hpriv] at h
  by_cases hsh : hasFlag (cur.maps.arr i).flags mapShared = true
  · rw [if_pos hsh] at h
    rcases hl : sharedLoop cur.pgdir (cur.maps.arr i) 1048577 k np.pgdir (cur.maps.arr i).start
      with _ | r <;> rw [hl] at h <;> cases h
    exact .inr ⟨⟨hv, .inr hsh⟩, r.2, rfl, .inr ⟨Bool.eq_false_iff.mpr hpriv, rfl⟩⟩
  · rw [if_neg hsh] at h
    cases h
    exact .inl ⟨fun hin => hin.2.elim hpriv hsh, rfl, rfl⟩

/-! ## `fork` -/

theorem fork_cases {s s' : Sys} {i : Fin nproc} {o : Option (Fin nproc)}
    (h : fork s i = .ok (o, s')) :
    (o = none ∧ allocproc s = .ok (none, s')) ∨
      ∃ j s1, allocproc s = .ok (some j, s1) ∧
        ((o = none ∧ ∃ k k', copyuvm s1.kmem (s1.proc i).pgdir (s1.proc i).sz = .ok (none, k) ∧
            kfree k (s1.proc j).kstack = .ok k' ∧
            s' = s1.setProc k' j { s1.proc j with kstack := 0#32, state := .unused }) ∨
          ∃ d k k' np, o = some j ∧
            copyuvm s1.kmem (s1.proc i).pgdir (s1.proc i).sz = .ok (some d, k) ∧
            forkEntries (s1.proc i) (List.range maxWmmapInfo) k
              { s1.proc j with
                pgdir := d, sz := (s1.proc i).sz, parent := some i
                ofile := fun fd => ((s1.proc i).ofile fd).or ((s1.proc j).ofile fd) }
              = .ok (k', np) ∧
            s' = s1.setProc k' j { np with state := .runnable }) := by
  unfold fork at h
  rcases ha : allocproc s with _ | ⟨_ | j, s1⟩ <;> rw [ha] at h
  · cases h
  · cases h
    exact .inl ⟨rfl, rfl⟩
  dsimp only at h
  refine .inr ⟨j, s1, rfl, ?_⟩
  rcases hc : copyuvm s1.kmem (s1.proc i).pgdir (s1.proc i).sz with _ | ⟨_ | d, k⟩ <;> rw [hc] at h
  · cases h
  · dsimp only at h
    rcases hf : kfree k (s1.proc j).kstack with _ | k' <;> rw [hf] at h <;> cases h
    exact .inl ⟨rfl, k, k', rfl, hf, rfl⟩
  · dsimp only at h
    split at h
    · cases h
    · next k' np hfe =>
      cases h
      exact .inr ⟨d, k, k', np, rfl, rfl, hfe, rfl⟩

end Xv6Mmap
