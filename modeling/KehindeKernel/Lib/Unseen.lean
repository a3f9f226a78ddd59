import KehindeKernel.Lib.Outcome

/-!
Events of which some leave no trace. Where the hidden ones keep to what counts as
the same, and all others go in lockstep, a run is the same as the run without them.
-/

namespace Unseen

open Outcome

variable {σ ε : Type}

def run (turn : σ → ε → Run σ) (s : σ) : List ε → Run σ
  | [] => pure s
  | e :: rest => do
      let s' ← turn s e
      run turn s' rest

structure Hides (turn : σ → ε → Run σ) (hidden : ε → Bool) (same : σ → σ → Prop) : Prop where
  unseen : ∀ s t e, hidden e = true → same s t → ∃ s', turn s e = .ok s' ∧ same s' t
  lockstep : ∀ s t e, hidden e = false → same s t → ∃ s' t', turn s e = .ok s' ∧ turn t e = .ok t' ∧ same s' t'

variable {turn : σ → ε → Run σ} {hidden : ε → Bool} {same : σ → σ → Prop}

theorem run_cons {s s' : σ} {e : ε} (known : turn s e = .ok s') (rest : List ε) :
    run turn s (e :: rest) = run turn s' rest := by
  rw [run, known]
  rfl

theorem Hides.run_filter (hides : Hides turn hidden same) (events : List ε) (s t : σ) (start : same s t) :
    ∃ s' t', run turn s events = .ok s' ∧ run turn t (events.filter fun e => !hidden e) = .ok t' ∧ same s' t' := by
  induction events generalizing s t with
  | nil => exact ⟨s, t, rfl, rfl, start⟩
  | cons e rest ih =>
      cases secret : hidden e with
      | true =>
          obtain ⟨s', known, still⟩ := hides.unseen s t e secret start
          rw [run_cons known, List.filter_cons_of_neg (by simp [secret])]
          exact ih s' t still
      | false =>
          obtain ⟨s', t', known, known', still⟩ := hides.lockstep s t e secret start
          rw [run_cons known, List.filter_cons_of_pos (by simp [secret]), run_cons known']
          exact ih s' t' still

end Unseen
