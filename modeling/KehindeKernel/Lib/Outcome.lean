import Mathlib.Logic.Function.Basic

/-!
Outcomes of sequential code over a store. A call returns a value or it stops
for good, and then no later call runs. Stops are kept apart because their
causes are: a program that parks itself, an access outside every live object,
and a loop that never ends.
-/

namespace Outcome

inductive Stop where
  | panic
  | fault
  | hang
  deriving DecidableEq, Repr

abbrev Run (α : Type) := Except Stop α

variable {α β τ υ : Type}

def fetch : Option α → Run α
  | some value => pure value
  | none => throw .fault

/-- A store into an array; a place past its end is a fault. -/
def storeAt (cells : List α) (i : Nat) (value : α) : Run (List α) :=
  if i < cells.length then pure (cells.set i value) else throw .fault

@[simp] theorem pure_ok (value : α) : (pure value : Run α) = .ok value := rfl

@[simp] theorem throw_error (stop : Stop) : (throw stop : Run α) = .error stop := rfl

@[simp] theorem ok_bind (value : α) (next : α → Run β) :
    ((.ok value : Run α) >>= next) = next value := rfl

@[simp] theorem error_bind (stop : Stop) (next : α → Run β) :
    ((.error stop : Run α) >>= next) = .error stop := rfl

@[simp] theorem fetch_some (value : α) : fetch (some value) = .ok value := rfl

@[simp] theorem fetch_none : fetch (none : Option α) = .error .fault := rfl

/-- A store at the end of what is filled. -/
theorem storeAt_next (filled room : List α) (old value : α) :
    storeAt (filled ++ old :: room) filled.length value = .ok (filled ++ value :: room) := by
  simp [storeAt]

theorem bind_ok_iff (first : Run α) (next : α → Run β) (result : β) :
    (first >>= next) = .ok result ↔ ∃ value, first = .ok value ∧ next value = .ok result := by
  cases first with
  | error stop => simp
  | ok value => simp

theorem fetch_ok_iff (cell : Option α) (value : α) :
    fetch cell = .ok value ↔ cell = some value := by
  cases cell <;> simp

/-- Whatever the run returns satisfies `post`; how it stops is left open. -/
def Returns (post : α → Prop) (run : Run α) : Prop := ∀ value, run = .ok value → post value

theorem returns_ok {post : α → Prop} {value : α} (holds : post value) : Returns post (.ok value) := by
  rintro _ ⟨⟩
  exact holds

theorem returns_error {post : α → Prop} (stop : Stop) : Returns post (.error stop) := by
  intro _ returned
  contradiction

theorem returns_bind {final : β → Prop} {first : Run α} {next : α → Run β}
    (later : ∀ value, first = .ok value → Returns final (next value)) : Returns final (first >>= next) := by
  intro result returned
  obtain ⟨value, known, rest⟩ := (bind_ok_iff first next result).mp returned
  exact later value known result rest

theorem returns_ite {post : α → Prop} {c : Prop} [Decidable c] {left right : Run α}
    (yes : c → Returns post left) (no : ¬ c → Returns post right) :
    Returns post (if c then left else right) := by
  split
  · exact yes ‹_›
  · exact no ‹_›

theorem Returns.mono {post weaker : α → Prop} {run : Run α} (returns : Returns post run)
    (weaken : ∀ value, post value → weaker value) : Returns weaker run :=
  fun value returned => weaken value (returns value returned)

/-- The run panics or returns a value that satisfies `post`. -/
inductive Guarded (post : α → Prop) : Run α → Prop where
  | ok (value : α) : post value → Guarded post (.ok value)
  | panic : Guarded post (.error .panic)

theorem Guarded.bind {post : α → Prop} {final : β → Prop} {first : Run α} {next : α → Run β}
    (guarded : Guarded post first) (later : ∀ value, post value → Guarded final (next value)) :
    Guarded final (first >>= next) := by
  cases guarded with
  | ok value holds => exact later value holds
  | panic => exact .panic

theorem Guarded.mono {post weaker : α → Prop} {run : Run α} (guarded : Guarded post run)
    (weaken : ∀ value, post value → weaker value) : Guarded weaker run := by
  cases guarded with
  | ok value holds => exact .ok value (weaken value holds)
  | panic => exact .panic

theorem Guarded.of_eq {post : α → Prop} {run : Run α} (guarded : Guarded post run) {value : α}
    (done : run = .ok value) : post value := by
  cases guarded with
  | ok result holds =>
      rw [Except.ok.injEq] at done
      exact done ▸ holds
  | panic => contradiction

/-- The rest of a run may use what its first part returned. -/
theorem Guarded.bind_eq {post : α → Prop} {final : β → Prop} {first : Run α} {next : α → Run β}
    (guarded : Guarded post first)
    (later : ∀ value, first = .ok value → post value → Guarded final (next value)) :
    Guarded final (first >>= next) := by
  cases guarded with
  | ok value holds => exact later value rfl holds
  | panic => exact .panic

theorem Guarded.mono_eq {post weaker : α → Prop} {run : Run α} (guarded : Guarded post run)
    (weaken : ∀ value, run = .ok value → post value → weaker value) : Guarded weaker run := by
  cases guarded with
  | ok value holds => exact .ok value (weaken value rfl holds)
  | panic => exact .panic

/-- A run that is seen to return satisfies `post`. -/
theorem Guarded.returned {post : α → Prop} {run : Run α} (guarded : Guarded post run)
    (returns : run.toBool = true) : ∃ value, run = .ok value ∧ post value := by
  cases guarded with
  | ok value holds => exact ⟨value, rfl, holds⟩
  | panic => exact absurd returns Bool.false_ne_true

/-- The run stops where `plan` stops; where `plan` returns, it returns a value
that satisfies `post` together with what `plan` returned. -/
inductive Follows (post : τ → α → Prop) : Run τ → Run α → Prop where
  | ok (reached : τ) (value : α) : post reached value → Follows post (.ok reached) (.ok value)
  | stop (stop : Stop) : Follows post (.error stop) (.error stop)

theorem Follows.bind {post : τ → α → Prop} {final : υ → β → Prop} {plan : Run τ} {more : τ → Run υ}
    {first : Run α} {next : α → Run β} (follows : Follows post plan first)
    (later : ∀ reached value, post reached value → Follows final (more reached) (next value)) :
    Follows final (plan >>= more) (first >>= next) := by
  cases follows with
  | ok reached value holds => exact later reached value holds
  | stop stop => exact .stop stop

/-- The rest of the run goes on without the plan. -/
theorem Follows.rest {post : τ → α → Prop} {final : τ → β → Prop} {plan : Run τ} {first : Run α}
    {next : α → Run β} (follows : Follows post plan first)
    (later : ∀ reached value, post reached value → Follows final (.ok reached) (next value)) :
    Follows final plan (first >>= next) := by
  cases follows with
  | ok reached value holds => exact later reached value holds
  | stop stop => exact .stop stop

theorem Follows.mono {post weaker : τ → α → Prop} {plan : Run τ} {run : Run α}
    (follows : Follows post plan run) (weaken : ∀ reached value, post reached value → weaker reached value) :
    Follows weaker plan run := by
  cases follows with
  | ok reached value holds => exact .ok reached value (weaken reached value holds)
  | stop stop => exact .stop stop

/-- Two runs that follow one plan stop together or return together. -/
theorem Follows.both {post : τ → α → Prop} {other : τ → β → Prop} {plan : Run τ} {first : Run α}
    {second : Run β} (left : Follows post plan first) (right : Follows other plan second) :
    (∃ stop, first = .error stop ∧ second = .error stop) ∨
    ∃ reached value result, first = .ok value ∧ second = .ok result ∧ post reached value ∧
      other reached result := by
  cases left with
  | ok reached value holds =>
      cases right with
      | ok _ result keeps => exact Or.inr ⟨reached, value, result, rfl, rfl, holds, keeps⟩
  | stop stop =>
      cases right with
      | stop => exact Or.inl ⟨stop, rfl, rfl⟩

/-- The plan goes on without the run. -/
theorem Follows.report {post : τ → α → Prop} {final : υ → α → Prop} {plan : Run τ} {run : Run α}
    {more : τ → υ} (follows : Follows post plan run)
    (later : ∀ reached value, post reached value → final (more reached) value) :
    Follows final (plan >>= fun reached => pure (more reached)) run := by
  cases follows with
  | ok reached value holds => exact .ok (more reached) value (later reached value holds)
  | stop stop => exact .stop stop

theorem follows_ite {post : τ → α → Prop} {c : Prop} [Decidable c] {plan other : Run τ} {left right : Run α}
    (yes : Follows post plan left) (no : Follows post other right) :
    Follows post (if c then plan else other) (if c then left else right) := by
  split
  · exact yes
  · exact no

/-- Plan and run without what is made of their results at the end. -/
theorem Follows.strip {post : υ → β → Prop} {plan : Run τ} {run : Run α} {f : τ → υ} {g : α → β}
    (follows : Follows post (plan >>= fun reached => pure (f reached)) (run >>= fun value => pure (g value))) :
    Follows (fun reached value => post (f reached) (g value)) plan run := by
  cases plan with
  | error stop =>
      cases run with
      | error _ =>
          cases follows with
          | stop => exact .stop stop
      | ok _ => cases follows
  | ok reached =>
      cases run with
      | error _ => cases follows
      | ok value =>
          cases follows with
          | ok _ _ holds => exact .ok reached value holds

/-- A plan may itself follow a plan. -/
theorem Follows.trans {outer : υ → τ → Prop} {post : τ → α → Prop} {spec : Run υ} {plan : Run τ}
    {run : Run α} (first : Follows outer spec plan) (second : Follows post plan run) :
    Follows (fun budget value => ∃ reached, outer budget reached ∧ post reached value) spec run := by
  cases first with
  | ok budget reached holds =>
      cases second with
      | ok _ value keeps => exact .ok budget value ⟨reached, holds, keeps⟩
  | stop stop =>
      cases second with
      | stop => exact .stop stop

theorem Follows.guarded {post : τ → α → Prop} {weaker : α → Prop} {plan : Run τ} {run : Run α}
    (follows : Follows post plan run) (panics : ∀ stop, plan = .error stop → stop = .panic)
    (weaken : ∀ reached value, post reached value → weaker value) : Guarded weaker run := by
  cases follows with
  | ok reached value holds => exact .ok value (weaken reached value holds)
  | stop stop =>
      rw [panics stop rfl]
      exact .panic

end Outcome
