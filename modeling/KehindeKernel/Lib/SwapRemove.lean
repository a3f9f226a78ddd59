import Mathlib.Data.List.Induction
import Mathlib.Data.List.Perm.Basic

/-!
Removal from an unordered list in place: the last element overwrites the removed
one and the last position is dropped.
-/

namespace SwapRemove

variable {α β : Type}

def swapRemove (l : List α) (i : Nat) : List α :=
  match l.getLast? with
  | none => []
  | some last => (l.set i last).dropLast

theorem swapRemove_append (front : List α) (last : α) (i : Nat) :
    swapRemove (front ++ [last]) i = if i < front.length then front.set i last else front := by
  have shown : swapRemove (front ++ [last]) i = ((front ++ [last]).set i last).dropLast := by
    simp only [swapRemove, List.getLast?_concat]
  rw [shown]
  by_cases before : i < front.length
  · rw [if_pos before, List.set_append_left i last before, List.dropLast_concat]
  · rw [if_neg before]
    by_cases here : i = front.length
    · subst here
      simp
    · rw [List.set_eq_of_length_le (by rw [List.length_append, List.length_singleton]; omega),
        List.dropLast_concat]

theorem swapRemove_length (l : List α) (i : Nat) : (swapRemove l i).length = l.length - 1 := by
  induction l using List.reverseRecOn with
  | nil => rfl
  | append_singleton front last _ =>
      rw [swapRemove_append]
      split <;> simp

theorem swapRemove_get (l : List α) (i k : Nat) (inside : k < l.length - 1) :
    (swapRemove l i)[k]? = if k = i then l[l.length - 1]? else l[k]? := by
  induction l using List.reverseRecOn with
  | nil => simp at inside
  | append_singleton front last _ =>
      have below : k < front.length := by simpa using inside
      rw [swapRemove_append, List.getElem?_append_left below]
      by_cases before : i < front.length
      · rw [if_pos before, List.getElem?_set]
        by_cases same : i = k
        · simp [same, below]
        · simp [same, Ne.symm same]
      · have different : k ≠ i := by omega
        rw [if_neg before, if_neg different]

theorem swapRemove_perm (l : List α) (i : Nat) (inside : i < l.length) :
    (swapRemove l i).Perm (l.eraseIdx i) := by
  induction l using List.reverseRecOn with
  | nil => simp at inside
  | append_singleton front last _ =>
      rw [swapRemove_append]
      by_cases before : i < front.length
      · rw [if_pos before, List.eraseIdx_append_of_lt_length before]
        exact (List.set_perm_cons_eraseIdx before last).trans (List.perm_append_singleton last _).symm
      · have here : i = front.length := by
          rw [List.length_append, List.length_singleton] at inside
          omega
        subst here
        rw [if_neg before, List.eraseIdx_append_of_length_le (Nat.le_refl _)]
        simp

theorem mem_swapRemove (l : List α) (i : Nat) (inside : i < l.length) (a : α)
    (member : a ∈ swapRemove l i) : a ∈ l :=
  List.mem_of_mem_eraseIdx ((swapRemove_perm l i inside).mem_iff.mp member)

theorem swapRemove_nodup (f : α → β) (l : List α) (i : Nat) (inside : i < l.length)
    (distinct : (l.map f).Nodup) : ((swapRemove l i).map f).Nodup := by
  rw [((swapRemove_perm l i inside).map f).nodup_iff]
  exact distinct.sublist ((List.eraseIdx_sublist l i).map f)

/-- The element removed is gone. -/
theorem swapRemove_absent (f : α → β) (l : List α) (i : Nat) (inside : i < l.length)
    (distinct : (l.map f).Nodup) : f l[i] ∉ (swapRemove l i).map f := by
  have split := (List.getElem_cons_eraseIdx_perm inside).map f
  rw [((swapRemove_perm l i inside).map f).mem_iff]
  rw [← split.nodup_iff, List.map_cons, List.nodup_cons] at distinct
  exact distinct.1

end SwapRemove
