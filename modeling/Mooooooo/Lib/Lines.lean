import Mathlib.Data.List.Basic

/-!
# Streams cut into lines

A stream over any alphabet with a newline: the complete lines, and what follows the last
newline. The rules say what one more character does to both, so that a buffer that is
filled character by character can be compared with the split stream.
-/

namespace Lines

variable {α : Type*}

/-- One more character that does not split is added to the last piece. -/
theorem splitOnPPrepend_concat (p : α → Bool) {x : α} (hx : p x = false) (s acc : List α) :
    ∃ ls l, s.splitOnPPrepend p acc = ls ++ [l] ∧ (s ++ [x]).splitOnPPrepend p acc = ls ++ [l ++ [x]] := by
  induction s generalizing acc with
  | nil =>
    refine ⟨[], acc.reverse, by simp, ?_⟩
    rw [List.nil_append, List.splitOnPPrepend_cons_neg hx]
    simp
  | cons a s ih =>
    by_cases ha : p a = true
    · obtain ⟨ls, l, h1, h2⟩ := ih []
      refine ⟨acc.reverse :: ls, l, ?_, ?_⟩
      · rw [List.splitOnPPrepend_cons_pos ha, ← List.splitOnPPrepend_nil_right, h1]
        rfl
      · rw [List.cons_append, List.splitOnPPrepend_cons_pos ha, ← List.splitOnPPrepend_nil_right, h2]
        rfl
    · obtain ⟨ls, l, h1, h2⟩ := ih (a :: acc)
      rw [Bool.not_eq_true] at ha
      refine ⟨ls, l, ?_, ?_⟩
      · rw [List.splitOnPPrepend_cons_neg ha, h1]
      · rw [List.cons_append, List.splitOnPPrepend_cons_neg ha, h2]

variable [DecidableEq α] (nl : α) (s : List α)

/-- The complete lines, without their newlines. -/
def complete : List (List α) := (s.splitOn nl).dropLast

/-- What follows the last newline. -/
def last : List α := (s.splitOn nl).getLast (List.splitOn_ne_nil nl s)

theorem complete_append_last : complete nl s ++ [last nl s] = s.splitOn nl :=
  List.dropLast_append_getLast _

/-- **One more newline** completes the last line. -/
theorem split_newline : complete nl (s ++ [nl]) = complete nl s ++ [last nl s] ∧ last nl (s ++ [nl]) = [] := by
  have h : complete nl (s ++ [nl]) ++ [last nl (s ++ [nl])] = (complete nl s ++ [last nl s]) ++ [[]] := by
    rw [complete_append_last, complete_append_last, List.splitOn_append_cons_self, List.splitOn_nil]
  obtain ⟨hcomplete, hlast⟩ := List.append_inj' h rfl
  exact ⟨hcomplete, List.singleton_inj.1 hlast⟩

/-- **One more character** of a line goes to the last line. -/
theorem split_char {x : α} (hx : x ≠ nl) :
    complete nl (s ++ [x]) = complete nl s ∧ last nl (s ++ [x]) = last nl s ++ [x] := by
  obtain ⟨ls, l, h1, h2⟩ := splitOnPPrepend_concat (· == nl) (beq_eq_false_iff_ne.2 hx) s []
  rw [List.splitOnPPrepend_nil_right, ← List.splitOn_eq_splitOnP, ← complete_append_last] at h1 h2
  obtain ⟨hc, hl⟩ := List.append_inj' h1 rfl
  obtain ⟨hc', hl'⟩ := List.append_inj' h2 rfl
  rw [hc, hc', List.singleton_inj.1 hl, List.singleton_inj.1 hl']
  exact ⟨rfl, rfl⟩

end Lines
