import Mathlib.Data.List.Basic

/-!
# Lines

A text is cut at each separator. `lines sep cur s` are the lines that end in `s`, when `cur` is what
was read of the first of them before, and `unfinished sep cur s` is what `s` leaves of a line that
has not ended. Both are computed piece by piece (`lines_append`, `unfinished_append`), so that it
does not matter how a text is cut into pieces.
-/

namespace Xv6Mmap.Lib

variable {α : Type} [DecidableEq α] (sep : α)

/-- The lines of `cur ++ s` that end in `s`. -/
def lines (cur : List α) : List α → List (List α)
  | [] => []
  | x :: s => if x = sep then cur :: lines [] s else lines (cur ++ [x]) s

/-- The line of `cur ++ s` that has not ended. -/
def unfinished (cur : List α) : List α → List α
  | [] => cur
  | x :: s => if x = sep then unfinished [] s else unfinished (cur ++ [x]) s

variable {sep} {cur s t : List α}

theorem lines_append :
    lines sep cur (s ++ t) = lines sep cur s ++ lines sep (unfinished sep cur s) t := by
  induction s generalizing cur with
  | nil => rfl
  | cons x s ih =>
    rw [List.cons_append, lines, lines, unfinished]
    by_cases hx : x = sep
    · rw [if_pos hx, if_pos hx, if_pos hx, ih, List.cons_append]
    · rw [if_neg hx, if_neg hx, if_neg hx, ih]

theorem unfinished_append :
    unfinished sep cur (s ++ t) = unfinished sep (unfinished sep cur s) t := by
  induction s generalizing cur with
  | nil => rfl
  | cons x s ih =>
    rw [List.cons_append, unfinished, unfinished]
    by_cases hx : x = sep
    · rw [if_pos hx, if_pos hx, ih]
    · rw [if_neg hx, if_neg hx, ih]

/-- A piece without a separator ends no line. -/
theorem lines_of_not_mem (h : sep ∉ s) : lines sep cur s = [] := by
  induction s generalizing cur with
  | nil => rfl
  | cons x s ih =>
    rw [List.mem_cons, not_or] at h
    rw [lines, if_neg (Ne.symm h.1), ih h.2]

theorem unfinished_of_not_mem (h : sep ∉ s) : unfinished sep cur s = cur ++ s := by
  induction s generalizing cur with
  | nil => rw [unfinished, List.append_nil]
  | cons x s ih =>
    rw [List.mem_cons, not_or] at h
    rw [unfinished, if_neg (Ne.symm h.1), ih h.2, List.append_assoc, List.singleton_append]

/-- The first line. -/
theorem lines_line (h : sep ∉ s) :
    lines sep cur (s ++ sep :: t) = (cur ++ s) :: lines sep [] t := by
  rw [lines_append, lines_of_not_mem h, unfinished_of_not_mem h, List.nil_append, lines, if_pos rfl]

theorem unfinished_line (h : sep ∉ s) :
    unfinished sep cur (s ++ sep :: t) = unfinished sep [] t := by
  rw [unfinished_append, unfinished_of_not_mem h, unfinished, if_pos rfl]

theorem not_mem_unfinished (h : sep ∉ cur) : sep ∉ unfinished sep cur s := by
  induction s generalizing cur with
  | nil => exact h
  | cons x s ih =>
    rw [unfinished]
    by_cases hx : x = sep
    · rw [if_pos hx]
      exact ih List.not_mem_nil
    · rw [if_neg hx]
      refine ih fun hmem => ?_
      rcases List.mem_append.mp hmem with hmem | hmem
      · exact h hmem
      · exact hx (List.mem_singleton.mp hmem).symm

/-- A line in progress that is read in one piece with what follows. -/
theorem lines_nil_append (h : sep ∉ cur) : lines sep [] (cur ++ s) = lines sep cur s := by
  rw [lines_append, lines_of_not_mem h, unfinished_of_not_mem h, List.nil_append, List.nil_append]

theorem unfinished_nil_append (h : sep ∉ cur) :
    unfinished sep [] (cur ++ s) = unfinished sep cur s := by
  rw [unfinished_append, unfinished_of_not_mem h, List.nil_append]

/-- The lines with their separators and the unfinished line are the text. -/
theorem flatMap_lines_append_unfinished (sep : α) (cur s : List α) :
    (lines sep cur s).flatMap (· ++ [sep]) ++ unfinished sep cur s = cur ++ s := by
  induction s generalizing cur with
  | nil => rw [lines, unfinished, List.flatMap_nil, List.nil_append, List.append_nil]
  | cons x s ih =>
    rw [lines, unfinished]
    by_cases hx : x = sep
    · rw [if_pos hx, if_pos hx, List.flatMap_cons, List.append_assoc, ih, hx, List.nil_append,
        List.append_assoc, List.singleton_append]
    · rw [if_neg hx, if_neg hx, ih, List.append_assoc, List.singleton_append]

theorem mem_of_mem_unfinished {x : α} (h : x ∈ unfinished sep cur s) : x ∈ cur ++ s := by
  rw [← flatMap_lines_append_unfinished]
  exact List.mem_append_right _ h

/-- What was read of a line before is at the front of the first line that ends, and of no other. -/
theorem lines_of_mem (h : sep ∈ s) :
    ∃ l ls, lines sep [] s = l :: ls ∧ ∀ cur, lines sep cur s = (cur ++ l) :: ls := by
  obtain ⟨a, b, rfl, ha⟩ := List.eq_append_cons_of_mem h
  refine ⟨a, lines sep [] b, lines_line ha, fun cur => lines_line ha⟩

end Xv6Mmap.Lib
