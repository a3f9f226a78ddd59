import Mathlib.Data.List.Count
import Mathlib.Logic.Function.Iterate

/-!
Parties that take turns at something they share. Where all but one of them keep
quiet, the one and what is shared are where the one alone would have got to, in
whatever order the turns came.
-/

namespace Turns

variable {ι σ μ : Type} [DecidableEq ι]

def turn (step : σ × μ → σ × μ) (s : (ι → σ) × μ) (i : ι) : (ι → σ) × μ :=
  let next := step (s.1 i, s.2)
  (Function.update s.1 i next.1, next.2)

def run (step : σ × μ → σ × μ) (s : (ι → σ) × μ) (schedule : List ι) : (ι → σ) × μ :=
  schedule.foldl (turn step) s

/-- A quiet party stays quiet, and what is shared stays as it is. -/
def KeepsQuiet (step : σ × μ → σ × μ) (quiet : σ → Prop) : Prop :=
  ∀ own shared, quiet own → quiet (step (own, shared)).1 ∧ (step (own, shared)).2 = shared

variable {step : σ × μ → σ × μ} {quiet : σ → Prop}

variable (step) in
theorem turn_own (s : (ι → σ) × μ) (i : ι) :
    ((turn step s i).1 i, (turn step s i).2) = step (s.1 i, s.2) :=
  Prod.ext (Function.update_self _ _ _) rfl

variable (step) in
theorem turn_other (s : (ι → σ) × μ) {i j : ι} (other : j ≠ i) : (turn step s i).1 j = s.1 j :=
  Function.update_of_ne other _ _

theorem run_solo (keeps : KeepsQuiet step quiet) (main : ι) (schedule : List ι) (s : (ι → σ) × μ)
    (others : ∀ i, i ≠ main → quiet (s.1 i)) :
    ((run step s schedule).1 main, (run step s schedule).2) = step^[schedule.count main] (s.1 main, s.2) ∧
      ∀ i, i ≠ main → quiet ((run step s schedule).1 i) := by
  induction schedule generalizing s with
  | nil => exact ⟨rfl, others⟩
  | cons i rest ih =>
      by_cases here : i = main
      · subst here
        obtain ⟨alone, still⟩ := ih (turn step s i) fun j other => turn_other step s other ▸ others j other
        refine ⟨?_, still⟩
        rw [List.count_cons_self, Function.iterate_succ_apply, ← turn_own step s i]
        exact alone
      · obtain ⟨stays, same⟩ := keeps (s.1 i) s.2 (others i here)
        obtain ⟨alone, still⟩ := ih (turn step s i) fun j other => by
          by_cases mine : j = i
          · subst mine
            have own := congrArg Prod.fst (turn_own step s j)
            dsimp only at own
            rw [own]
            exact stays
          · exact turn_other step s mine ▸ others j other
        refine ⟨?_, still⟩
        have shared : (turn step s i).2 = s.2 := same
        rw [List.count_cons_of_ne here, ← turn_other step s (Ne.symm here), ← shared]
        exact alone

end Turns
