import Mathlib.Data.List.TakeDrop

/-!
# Crashes between atomic writes

A program that writes to a disk is the list of its writes, each a function of the disk it finds.
A crash keeps the effect of some first writes and loses the rest (`CrashesTo`). A recovery program
reads the disk it starts from, and can itself crash and be started again any number of times
before one run completes (`Recovers`).

* `crash_loop`: a loop of writes, by an invariant indexed with the number of turns made.
* `recovers_rule`: what holds at every crash point of a recovery, and what a complete recovery
  makes of it, give what holds in the end.
-/

namespace Xv6Mmap.Lib

variable {δ : Type}

/-- All the writes, in order. -/
def exec (ws : List (δ → δ)) (d : δ) : δ := ws.foldl (fun d w => w d) d

/-- A crash left the disk `d'`: some first writes were made. -/
def CrashesTo (ws : List (δ → δ)) (d d' : δ) : Prop := ∃ n, exec (ws.take n) d = d'

/-- Recovery, crashed and restarted any number of times, then complete. -/
inductive Recovers (recover : δ → List (δ → δ)) : δ → δ → Prop where
  | done (d : δ) : Recovers recover d (exec (recover d) d)
  | crash {d d₁ d₂ : δ} (h : CrashesTo (recover d) d d₁) (hr : Recovers recover d₁ d₂) :
      Recovers recover d d₂

theorem exec_append (ws vs : List (δ → δ)) (d : δ) : exec (ws ++ vs) d = exec vs (exec ws d) :=
  List.foldl_append ..

theorem CrashesTo.append {ws vs : List (δ → δ)} {d d' : δ} (h : CrashesTo (ws ++ vs) d d') :
    CrashesTo ws d d' ∨ CrashesTo vs (exec ws d) d' := by
  obtain ⟨n, rfl⟩ := h
  by_cases hn : n ≤ ws.length
  · left
    exact ⟨n, by rw [List.take_append_of_le_length hn]⟩
  · right
    refine ⟨n - ws.length, ?_⟩
    have hws : ws.take n = ws := List.take_of_length_le (by omega)
    rw [List.take_append, hws, exec_append]

theorem CrashesTo.single {w : δ → δ} {d d' : δ} (h : CrashesTo [w] d d') : d' = d ∨ d' = w d := by
  obtain ⟨n, rfl⟩ := h
  cases n with
  | zero => exact .inl rfl
  | succ n => exact .inr (by simp [exec])

/-- A loop of `n` writes, with an invariant of the number of turns made. -/
theorem exec_loop {I : Nat → δ → Prop} {w : Nat → δ → δ} {n : Nat}
    (hstep : ∀ t < n, ∀ d, I t d → I (t + 1) (w t d)) {d : δ} (h0 : I 0 d) :
    ∀ m ≤ n, I m (exec ((List.range m).map w) d) := by
  intro m
  induction m with
  | zero =>
    intro _
    exact h0
  | succ m ih =>
    intro hm
    rw [List.range_succ, List.map_append, exec_append]
    exact hstep m (by omega) _ (ih (by omega))

/-- A crash inside the loop stops after some turn. -/
theorem crash_loop {I : Nat → δ → Prop} {w : Nat → δ → δ} {n : Nat}
    (hstep : ∀ t < n, ∀ d, I t d → I (t + 1) (w t d)) {d d' : δ} (h0 : I 0 d)
    (h : CrashesTo ((List.range n).map w) d d') : ∃ t ≤ n, I t d' := by
  obtain ⟨m, rfl⟩ := h
  refine ⟨min m n, Nat.min_le_right .., ?_⟩
  rw [← List.map_take, List.take_range]
  exact exec_loop hstep h0 _ (Nat.min_le_right ..)

theorem recovers_rule {recover : δ → List (δ → δ)} {I Q : δ → Prop}
    (hcrash : ∀ d d1, I d → CrashesTo (recover d) d d1 → I d1)
    (hdone : ∀ d, I d → Q (exec (recover d) d)) {d d' : δ} (h : I d)
    (hr : Recovers recover d d') : Q d' := by
  induction hr with
  | done d => exact hdone d h
  | crash hc _ ih => exact ih (hcrash _ _ h hc)

end Xv6Mmap.Lib
