import Mathlib.Order.Interval.Set.Disjoint
import Mathlib.Order.CompletePartialOrder

/-!
Half-open intervals laid one above another. Of such a stack every interval lies
between the two ends, and no two intervals meet.
-/

namespace Intervals

variable {α : Type} [LinearOrder α]

/-- Each interval starts at or above the end of the one before it. -/
def Stacked (low high : α) : List (α × α) → Prop
  | [] => low ≤ high
  | span :: rest => low ≤ span.1 ∧ span.1 ≤ span.2 ∧ Stacked span.2 high rest

theorem Stacked.le {low high : α} {spans : List (α × α)} (stacked : Stacked low high spans) : low ≤ high := by
  induction spans generalizing low with
  | nil => exact stacked
  | cons span rest ih => exact stacked.1.trans (stacked.2.1.trans (ih stacked.2.2))

theorem Stacked.lower {low high base : α} {spans : List (α × α)} (below : base ≤ low)
    (stacked : Stacked low high spans) : Stacked base high spans := by
  cases spans with
  | nil => exact below.trans stacked
  | cons span rest => exact ⟨below.trans stacked.1, stacked.2⟩

theorem Stacked.within {low high : α} {spans : List (α × α)} (stacked : Stacked low high spans) :
    ∀ span ∈ spans, low ≤ span.1 ∧ span.2 ≤ high := by
  induction spans generalizing low with
  | nil => simp
  | cons span rest ih =>
      obtain ⟨above, ordered, later⟩ := stacked
      intro other member
      rcases List.mem_cons.mp member with rfl | member
      · exact ⟨above, later.le⟩
      · obtain ⟨start, stop⟩ := ih later other member
        exact ⟨above.trans (ordered.trans start), stop⟩

theorem Stacked.disjoint {low high : α} {spans : List (α × α)} (stacked : Stacked low high spans) :
    spans.Pairwise fun one other => Disjoint (Set.Ico one.1 one.2) (Set.Ico other.1 other.2) := by
  induction spans generalizing low with
  | nil => exact .nil
  | cons span rest ih =>
      refine .cons ?_ (ih stacked.2.2)
      intro other member
      have above := (stacked.2.2.within other member).1
      exact Set.Ico_disjoint_Ico.mpr ((min_le_left _ _).trans (above.trans (le_max_right _ _)))

end Intervals
