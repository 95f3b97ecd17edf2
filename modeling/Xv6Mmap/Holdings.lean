import Xv6Mmap.Calls
import Xv6Mmap.Progress

/-!
# The ways `allocproc` can end
-/

namespace Xv6Mmap

open Lib

/-- The two differ at most in the bytes of the pages. -/
def Kmem.BytesOnly (k k' : Kmem) : Prop := k' = { k with mem := k'.mem }

/-- `allocproc`: no slot, no page for the stack, or a slot with all its kernel pages. -/
theorem allocproc_cases {s s' : Sys} {o : Option (Fin nproc)} (h : allocproc s = .ok (o, s')) :
    (o = none ∧ s'.kmem = s.kmem ∧ s'.initproc = s.initproc ∧
        ∀ j, s'.proc j = s.proc j ∨ ((s.proc j).state = .unused ∧ (s'.proc j).state = .unused)) ∨
      ∃ i k kstack wmap pages k1 k2, o = some i ∧ s.unusedSlot = some i ∧
        kalloc s.kmem .kstack = some (kstack, k1) ∧ kalloc k1 .wmapinfo = some (wmap, k2) ∧
        allocBlocks maxWmmapInfo 0 k2 (s.proc i).arrPage = .ok (k, pages) ∧
        s' = { s with nextpid := s.nextpid + 1 }.setProc k i
          { s.proc i with
            state := .embryo, pid := s.nextpid, kstack := kstack, maps := Maps.init
            wmapinfoPage := wmap, arrPage := pages } := by
  unfold allocproc at h
  cases hi : s.unusedSlot with
  | none =>
    rw [hi] at h
    cases h
    exact .inl ⟨rfl, rfl, rfl, fun _ => .inl rfl⟩
  | some i =>
    rw [hi] at h
    dsimp only at h
    have hunused : (s.proc i).state = .unused := by
      have := List.find?_some hi
      simpa using this
    cases ha : kalloc s.kmem .kstack with
    | none =>
      rw [ha] at h
      cases h
      refine .inl ⟨rfl, rfl, rfl, fun j => ?_⟩
      by_cases hj : j = i
      · subst hj
        rw [Sys.setProc_proc_self]
        exact .inr ⟨hunused, rfl⟩
      · rw [Sys.setProc_proc_of_ne _ _ _ hj]
        exact .inl rfl
    | some r =>
      obtain ⟨kstack, k1⟩ := r
      rw [ha] at h
      dsimp only at h
      rcases hw : kalloc k1 .wmapinfo with _ | ⟨wmap, k2⟩ <;> rw [hw] at h
      · cases h
      dsimp only at h
      rcases hb : allocBlocks maxWmmapInfo 0 k2 (s.proc i).arrPage
        with _ | ⟨k, pages⟩ <;> rw [hb] at h
      · cases h
      cases h
      exact .inr ⟨i, k, kstack, wmap, pages, k1, k2, rfl, rfl, rfl, hw, hb, rfl⟩

end Xv6Mmap
