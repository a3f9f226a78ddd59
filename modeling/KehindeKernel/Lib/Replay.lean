import KehindeKernel.Lib.Outcome
import Mathlib.Data.List.Forall2

/-!
Replaying a list of operations against a state machine. `run` replays a total
step; `attempt` replays a step that may stop. One step lemma gives the invariant
of every run, and one simulation step relates two whole runs.
-/

namespace Replay

open Outcome

variable {σ τ ι ο : Type}

def run (step : σ → ι → ο × σ) : σ → List ι → List ο × σ
  | state, [] => ([], state)
  | state, op :: rest =>
      let next := step state op
      let tail := run step next.2 rest
      (next.1 :: tail.1, tail.2)

theorem run_invariant (step : σ → ι → ο × σ) (Inv : σ → Prop)
    (kept : ∀ state op, Inv state → Inv (step state op).2)
    (state : σ) (start : Inv state) (ops : List ι) : Inv (run step state ops).2 := by
  induction ops generalizing state with
  | nil => exact start
  | cons op rest ih => exact ih (step state op).2 (kept state op start)

theorem run_simulation (step : σ → ι → ο × σ) (spec : τ → ι → ο × τ) (Rel : σ → τ → Prop)
    (agree : ∀ state model op, Rel state model →
      (step state op).1 = (spec model op).1 ∧ Rel (step state op).2 (spec model op).2)
    (state : σ) (model : τ) (start : Rel state model) (ops : List ι) :
    (run step state ops).1 = (run spec model ops).1 ∧
      Rel (run step state ops).2 (run spec model ops).2 := by
  induction ops generalizing state model with
  | nil => exact ⟨rfl, start⟩
  | cons op rest ih =>
      have first := agree state model op start
      have later := ih (step state op).2 (spec model op).2 first.2
      exact ⟨by simp only [run, first.1, later.1], later.2⟩

def attempt (step : σ → ι → Run (ο × σ)) : σ → List ι → Run (List ο × σ)
  | state, [] => .ok ([], state)
  | state, op :: rest => do
      let next ← step state op
      let tail ← attempt step next.2 rest
      .ok (next.1 :: tail.1, tail.2)

theorem attempt_cons_ok (step : σ → ι → Run (ο × σ)) (state : σ) (op : ι) (rest : List ι)
    (outs : List ο) (last : σ) :
    attempt step state (op :: rest) = .ok (outs, last) ↔
      ∃ out middle tail, step state op = .ok (out, middle) ∧
        attempt step middle rest = .ok (tail, last) ∧ outs = out :: tail := by
  simp only [attempt, bind_ok_iff, Except.ok.injEq, Prod.mk.injEq]
  constructor
  · rintro ⟨⟨out, middle⟩, first, ⟨tail, final⟩, later, same, stop⟩
    subst stop
    exact ⟨out, middle, tail, first, later, same.symm⟩
  · rintro ⟨out, middle, tail, first, later, same⟩
    exact ⟨(out, middle), first, (tail, last), later, same.symm, rfl⟩

theorem attempt_total (step : σ → ι → Run (ο × σ)) (total : σ → ι → ο × σ) (Inv : σ → Prop)
    (agree : ∀ state op, Inv state → step state op = .ok (total state op))
    (kept : ∀ state op, Inv state → Inv (total state op).2)
    (state : σ) (start : Inv state) (ops : List ι) : attempt step state ops = .ok (run total state ops) := by
  induction ops generalizing state with
  | nil => rfl
  | cons op rest ih =>
      rw [attempt, agree state op start, ok_bind, ih _ (kept state op start), ok_bind]
      rfl

/-- Every operation meets `Ok` in the state it is called in. -/
def Along (step : σ → ι → Run (ο × σ)) (Ok : σ → ι → Prop) : σ → List ι → Prop
  | _, [] => True
  | state, op :: rest =>
      Ok state op ∧ ∀ out next, step state op = .ok (out, next) → Along step Ok next rest

theorem along_of_forall (step : σ → ι → Run (ο × σ)) (Ok : ι → Prop) (ops : List ι) (state : σ)
    (all : ∀ op ∈ ops, Ok op) : Along step (fun _ op => Ok op) state ops := by
  induction ops generalizing state with
  | nil => trivial
  | cons op rest ih =>
      exact ⟨all op List.mem_cons_self, fun _ next _ =>
        ih next fun later member => all later (List.mem_cons_of_mem op member)⟩

theorem Along.invariant {step : σ → ι → Run (ο × σ)} {Ok : σ → ι → Prop} (Inv : σ → Prop)
    (kept : ∀ state op out next, Inv state → Ok state op → step state op = .ok (out, next) → Inv next)
    (ops : List ι) (state : σ) (outs : List ο) (last : σ) (along : Along step Ok state ops)
    (start : Inv state) (done : attempt step state ops = .ok (outs, last)) : Inv last := by
  induction ops generalizing state outs with
  | nil =>
      simp only [attempt, Except.ok.injEq, Prod.mk.injEq] at done
      exact done.2 ▸ start
  | cons op rest ih =>
      obtain ⟨out, middle, tail, first, later, _⟩ :=
        (attempt_cons_ok step state op rest outs last).mp done
      exact ih middle tail (along.2 out middle first) (kept state op out middle start along.1 first) later

theorem attempt_invariant (step : σ → ι → Run (ο × σ)) (Inv : σ → Prop)
    (kept : ∀ state op out next, Inv state → step state op = .ok (out, next) → Inv next)
    (ops : List ι) (state : σ) (outs : List ο) (last : σ) (start : Inv state)
    (done : attempt step state ops = .ok (outs, last)) : Inv last :=
  (along_of_forall step (fun _ => True) ops state fun _ _ => trivial).invariant Inv
    (fun state op out next holds _ => kept state op out next holds) ops state outs last start done

theorem Along.and {step : σ → ι → Run (ο × σ)} {Ok Fit : σ → ι → Prop} (ops : List ι) (state : σ)
    (first : Along step Ok state ops) (second : Along step Fit state ops) :
    Along step (fun s op => Ok s op ∧ Fit s op) state ops := by
  induction ops generalizing state with
  | nil => trivial
  | cons op rest ih =>
      exact ⟨⟨first.1, second.1⟩, fun out next done =>
        ih next (first.2 out next done) (second.2 out next done)⟩

/-- Under an invariant that a step keeps where it meets `Ok`, conditions that
agree step by step agree along runs. -/
theorem along_congr (step : σ → ι → Run (ο × σ)) (Inv : σ → Prop) (Fit : ι → Prop)
    (Ok Ok' : σ → ι → Prop) (same : ∀ state op, Inv state → Fit op → (Ok state op ↔ Ok' state op))
    (kept : ∀ state op out next, Inv state → Fit op → Ok state op → step state op = .ok (out, next) → Inv next)
    (ops : List ι) (state : σ) (start : Inv state) (all : ∀ op ∈ ops, Fit op) :
    Along step Ok state ops ↔ Along step Ok' state ops := by
  induction ops generalizing state with
  | nil => exact Iff.rfl
  | cons op rest ih =>
      have fits := all op List.mem_cons_self
      have later : Ok state op → ∀ out next, step state op = .ok (out, next) →
          (Along step Ok next rest ↔ Along step Ok' next rest) := fun met out next done =>
        ih next (kept state op out next start fits met done)
          fun more member => all more (List.mem_cons_of_mem op member)
      constructor
      · rintro ⟨met, along⟩
        exact ⟨(same state op start fits).mp met, fun out next done =>
          (later met out next done).mp (along out next done)⟩
      · rintro ⟨met, along⟩
        have metOk := (same state op start fits).mpr met
        exact ⟨metOk, fun out next done => (later metOk out next done).mpr (along out next done)⟩

/-- The same along a run that returns, where the conditions need agree only at
steps that return. -/
theorem along_congr_returned (step : σ → ι → Run (ο × σ)) (Inv : σ → Prop) (Fit : ι → Prop)
    (Ok Ok' : σ → ι → Prop)
    (same : ∀ state op out next, Inv state → Fit op → step state op = .ok (out, next) →
      (Ok state op ↔ Ok' state op))
    (kept : ∀ state op out next, Inv state → Fit op → Ok state op → step state op = .ok (out, next) → Inv next)
    (ops : List ι) (state last : σ) (outs : List ο) (start : Inv state) (all : ∀ op ∈ ops, Fit op)
    (done : attempt step state ops = .ok (outs, last)) : Along step Ok state ops ↔ Along step Ok' state ops := by
  induction ops generalizing state outs with
  | nil => exact Iff.rfl
  | cons op rest ih =>
      obtain ⟨out, middle, tail, first, later, _⟩ :=
        (attempt_cons_ok step state op rest outs last).mp done
      have fits := all op List.mem_cons_self
      have agree := same state op out middle start fits first
      have next : Ok state op → (Along step Ok middle rest ↔ Along step Ok' middle rest) := fun met =>
        ih middle tail (kept state op out middle start fits met first)
          (fun more member => all more (List.mem_cons_of_mem op member)) later
      have only : ∀ out' next', step state op = .ok (out', next') → next' = middle := by
        intro out' next' again
        rw [first, Except.ok.injEq, Prod.mk.injEq] at again
        exact again.2.symm
      constructor
      · rintro ⟨met, along⟩
        refine ⟨agree.mp met, fun out' next' again => ?_⟩
        rw [only out' next' again]
        exact (next met).mp (along out middle first)
      · rintro ⟨met, along⟩
        refine ⟨agree.mpr met, fun out' next' again => ?_⟩
        rw [only out' next' again]
        exact (next (agree.mpr met)).mpr (along out middle first)

/-- A machine that shows another one's steps through `view` shows its runs. -/
theorem attempt_view (step : σ → ι → Run (ο × σ)) (base : τ → ι → Run (ο × τ)) (view : σ → τ)
    (shows_ : ∀ state op, (step state op).map (Prod.map id view) = base (view state) op)
    (ops : List ι) (state : σ) :
    (attempt step state ops).map (Prod.map id view) = attempt base (view state) ops := by
  induction ops generalizing state with
  | nil => rfl
  | cons op rest ih =>
      rw [attempt, attempt, ← shows_ state op]
      cases step state op with
      | error stop => rfl
      | ok next =>
          have later := ih next.2
          simp only [ok_bind, Except.map, Prod.map] at later ⊢
          rw [← later]
          cases attempt step next.2 rest with
          | error stop => rfl
          | ok tail => rfl

theorem Along.reached {step : σ → ι → Run (ο × σ)} {Ok : σ → ι → Prop} (front : List ι) (op : ι)
    (state last : σ) (outs : List ο) (along : Along step Ok state (front ++ [op]))
    (done : attempt step state front = .ok (outs, last)) : Ok last op := by
  induction front generalizing state outs with
  | nil =>
      obtain ⟨_, rfl⟩ := Prod.mk.inj (Except.ok.inj done)
      exact along.1
  | cons first rest ih =>
      obtain ⟨out, middle, tail, stepped, later, _⟩ := (attempt_cons_ok step state first rest outs last).mp done
      exact ih middle tail (along.2 out middle stepped) later

theorem along_of_invariant (step : σ → ι → Run (ο × σ)) (Inv : σ → Prop) (Fit : ι → Prop)
    (Ok : σ → ι → Prop) (meets : ∀ state op, Inv state → Fit op → Ok state op)
    (kept : ∀ state op out next, Inv state → Fit op → step state op = .ok (out, next) → Inv next)
    (ops : List ι) (state : σ) (start : Inv state) (all : ∀ op ∈ ops, Fit op) : Along step Ok state ops := by
  induction ops generalizing state with
  | nil => trivial
  | cons op rest ih =>
      have fits := all op List.mem_cons_self
      refine ⟨meets state op start fits, ?_⟩
      intro out next done
      exact ih next (kept state op out next start fits done)
        fun later member => all later (List.mem_cons_of_mem op member)

/-- A step that meets its contract or panics makes whole runs do so: the outputs
match those of the specification, and the last states are related. -/
theorem attempt_simulation {π : Type} (step : σ → ι → Run (ο × σ)) (spec : τ → ι → π × τ)
    (Rel : σ → τ → Prop) (Match : ο → π → Prop) (Ok : σ → ι → Prop)
    (agree : ∀ state model op, Rel state model → Ok state op →
      Guarded (fun r => Match r.1 (spec model op).1 ∧ Rel r.2 (spec model op).2) (step state op))
    (ops : List ι) (state : σ) (model : τ) (start : Rel state model) (along : Along step Ok state ops) :
    Guarded (fun r => List.Forall₂ Match r.1 (run spec model ops).1 ∧ Rel r.2 (run spec model ops).2)
      (attempt step state ops) := by
  induction ops generalizing state model with
  | nil => exact .ok _ ⟨.nil, start⟩
  | cons op rest ih =>
      rw [attempt]
      apply (agree state model op start along.1).bind_eq
      rintro next result ⟨matched, related⟩
      apply (ih next.2 _ related (along.2 next.1 next.2 result)).bind
      rintro tail ⟨outs, last⟩
      exact .ok _ ⟨.cons matched outs, last⟩

/-- A step that follows its specification makes whole runs do so: they stop
where the specification stops, or the outputs match and the last states are related. -/
theorem attempt_follows {π : Type} (step : σ → ι → Run (ο × σ)) (spec : τ → ι → Run (π × τ))
    (Rel : σ → τ → Prop) (Match : ο → π → Prop) (Ok : σ → ι → Prop)
    (agree : ∀ state model op, Rel state model → Ok state op →
      Follows (fun m r => Match r.1 m.1 ∧ Rel r.2 m.2) (spec model op) (step state op))
    (ops : List ι) (state : σ) (model : τ) (start : Rel state model) (along : Along step Ok state ops) :
    Follows (fun m r => List.Forall₂ Match r.1 m.1 ∧ Rel r.2 m.2) (attempt spec model ops)
      (attempt step state ops) := by
  induction ops generalizing state model with
  | nil => exact .ok _ _ ⟨.nil, start⟩
  | cons op rest ih =>
      rw [attempt, attempt]
      have first := agree state model op start along.1
      cases result : step state op with
      | error stop =>
          rw [result] at first
          cases planned : spec model op with
          | error _ =>
              rw [planned] at first
              cases first
              exact .stop stop
          | ok m =>
              rw [planned] at first
              cases first
      | ok next =>
          have later := along.2 next.1 next.2 result
          rw [result] at first
          cases planned : spec model op with
          | error _ =>
              rw [planned] at first
              cases first
          | ok m =>
              rw [planned] at first
              cases first with
              | ok _ _ holds =>
                  apply (ih next.2 m.2 holds.2 later).bind
                  rintro ⟨specs, last⟩ ⟨outs, final⟩ ⟨matched, related⟩
                  exact .ok _ _ ⟨.cons holds.1 matched, related⟩

/-- The same for an invariant alone. -/
theorem attempt_guarded (step : σ → ι → Run (ο × σ)) (Inv : σ → Prop) (Ok : σ → ι → Prop)
    (kept : ∀ state op, Inv state → Ok state op → Guarded (fun r => Inv r.2) (step state op))
    (ops : List ι) (state : σ) (start : Inv state) (along : Along step Ok state ops) :
    Guarded (fun r => Inv r.2) (attempt step state ops) :=
  (attempt_simulation step (fun (_ : Unit) _ => ((), ())) (fun s _ => Inv s) (fun _ (_ : Unit) => True) Ok
    (fun s _ op holds ok => (kept s op holds ok).mono fun _ next => ⟨trivial, next⟩)
    ops state () start along).mono fun _ last => last.2

end Replay
