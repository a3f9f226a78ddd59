import Mathlib.Algebra.BigOperators.Group.List.Basic
import Mathlib.Algebra.Order.BigOperators.Group.List
import Mathlib.Algebra.Order.Ring.Nat

/-!
The maximal runs of a list that hold no separator, and their join with single
separators. A list is blanks, or blanks before a first word; joined words are
never longer than the list they came from.
-/

namespace Words

variable {α : Type} [DecidableEq α] (sep : α)

/-- The maximal runs of elements other than `sep`. -/
def words (l : List α) : List (List α) := (l.splitOn sep).filter (· ≠ [])

theorem words_nil : words sep [] = [] := by simp [words]

theorem words_sep (l : List α) : words sep (sep :: l) = words sep l := by
  have split := List.splitOn_append_cons_self_of_not_mem (List.not_mem_nil (a := sep)) l
  rw [List.nil_append] at split
  simp [words, split]

theorem words_blanks (k : Nat) (l : List α) : words sep (List.replicate k sep ++ l) = words sep l := by
  induction k with
  | zero => rfl
  | succ k ih => rw [List.replicate_succ, List.cons_append, words_sep, ih]

variable {sep}

theorem words_last {w : List α} (some_ : w ≠ []) (plain : sep ∉ w) : words sep w = [w] := by
  simp [words, List.splitOn_eq_singleton plain, some_]

theorem words_first {w : List α} (some_ : w ≠ []) (plain : sep ∉ w) (rest : List α) :
    words sep (w ++ sep :: rest) = w :: words sep rest := by
  simp [words, List.splitOn_append_cons_self_of_not_mem plain, some_]

variable (sep)

/-- A list starts with blanks; what follows is nothing, the last word, or a word
and a separator. -/
theorem split_word (l : List α) :
    (∃ k, l = List.replicate k sep) ∨
    (∃ k w, w ≠ [] ∧ sep ∉ w ∧ l = List.replicate k sep ++ w) ∨
    ∃ k w rest, w ≠ [] ∧ sep ∉ w ∧ l = List.replicate k sep ++ (w ++ sep :: rest) := by
  induction l with
  | nil => exact Or.inl ⟨0, rfl⟩
  | cons c l ih =>
      by_cases blank : c = sep
      · subst blank
        rcases ih with ⟨k, rfl⟩ | ⟨k, w, some_, plain, rfl⟩ | ⟨k, w, rest, some_, plain, rfl⟩
        · exact Or.inl ⟨k + 1, rfl⟩
        · exact Or.inr (Or.inl ⟨k + 1, w, some_, plain, rfl⟩)
        · exact Or.inr (Or.inr ⟨k + 1, w, rest, some_, plain, rfl⟩)
      · -- a word starts here: it ends with the list or at the next separator
        right
        by_cases more : sep ∈ l
        · obtain ⟨front, rest, rfl, plain⟩ := List.eq_append_cons_of_mem more
          exact Or.inr ⟨0, c :: front, rest, by simp, by simp [Ne.symm blank, plain], rfl⟩
        · exact Or.inl ⟨0, c :: l, by simp, by simp [Ne.symm blank, more], rfl⟩

omit [DecidableEq α] in
theorem joined_cons (part : List α) (rest : List (List α)) :
    [sep].intercalate (part :: rest) = part ++ rest.flatMap fun next => sep :: next := by
  induction rest generalizing part with
  | nil => simp
  | cons next rest ih => rw [List.intercalate_cons_cons, ih, List.flatMap_cons]; simp

omit [DecidableEq α] in
/-- Length of a join, counted with one separator behind each part. -/
theorem joined_length (parts : List (List α)) (some_ : parts ≠ []) :
    ([sep].intercalate parts).length + 1 = (parts.map fun part => part.length + 1).sum := by
  induction parts with
  | nil => exact absurd rfl some_
  | cons part rest ih =>
      cases rest with
      | nil => simp
      | cons next rest =>
          have later := ih (by simp)
          rw [List.intercalate_cons_cons, List.map_cons, List.sum_cons, ← later]
          simp
          omega

theorem joined_words_length (l : List α) (parts : List (List α)) (sub : parts.Sublist (words sep l)) :
    ([sep].intercalate parts).length ≤ l.length := by
  by_cases none_ : parts = []
  · simp [none_]
  · have whole := joined_length sep (l.splitOn sep) (List.splitOn_ne_nil sep l)
    rw [List.intercalate_splitOn] at whole
    have some_ := joined_length sep parts none_
    have fewer : (parts.map fun part => part.length + 1).sum ≤
        ((l.splitOn sep).map fun part => part.length + 1).sum :=
      ((sub.trans List.filter_sublist).map _).sum_le_sum fun _ _ => Nat.zero_le _
    omega

end Words
