/-!
Reading delimited segments off a stream with a bounded buffer. A call feeds
items into its state until an item ends the segment or until the state is full,
and the next call goes on where it stopped. Calls and segments match one to one
exactly when no segment that is reached fills the state.
-/

namespace Framing

structure Reader (α β : Type) where
  init : β
  step : β → α → β
  ends : α → Bool
  finish : β → β
  full : β → Bool

variable {α β : Type} (r : Reader α β) (s : Nat → Option α)

/-- One call from position `pos` on: its state and the next position. A stream
that is over has `none` from some position on, and a call waits there for good. -/
def Reader.read : Nat → Nat → β → Option (β × Nat)
  | 0, _, _ => none
  | trips + 1, pos, b =>
      if r.full b then some (b, pos)
      else
        match s pos with
        | none => none
        | some a =>
            if r.ends a then some (r.finish b, pos + 1) else Reader.read trips (pos + 1) (r.step b a)

def Reader.Call (pos : Nat) (b : β) (next : Nat) : Prop :=
  ∃ trips, r.read s trips pos r.init = some (b, next)

/-- The `n` items from `start` on have arrived and none ends the segment. -/
def Quiet (start n : Nat) : Prop := ∀ k, k < n → ∃ a, s (start + k) = some a ∧ r.ends a = false

def Ends (pos : Nat) : Prop := ∃ a, s pos = some a ∧ r.ends a = true

/-- The state after the `n` items from `start` on. -/
def fed (start : Nat) : Nat → β
  | 0 => r.init
  | n + 1 => ((s (start + n)).map (r.step (fed start n))).getD (fed start n)

/-- A whole segment, with its end, and the state it is meant to leave. -/
def Segment (pos : Nat) (b : β) (next : Nat) : Prop :=
  ∃ n, Quiet r s pos n ∧ Ends r s (pos + n) ∧ next = pos + n + 1 ∧ b = r.finish (fed r s pos n)

/-- Steps along the stream, one after the other as long as `goesOn` allows
another: their results in order and the position reached. -/
inductive Chain (goesOn : List β → Prop) (step : Nat → β → Nat → Prop) : List β → Nat → Prop where
  | nil : Chain goesOn step [] 0
  | snoc (results : List β) (pos : Nat) (b : β) (next : Nat) : Chain goesOn step results pos →
      goesOn results → step pos b next → Chain goesOn step (results ++ [b]) next

variable (goesOn : List β → Prop)

/-- Every call takes one whole segment, and takes it whenever it is complete. -/
def Framed (call : Nat → β → Nat → Prop) : Prop :=
  ∀ results pos, Chain goesOn call results pos → goesOn results →
    ∀ b next, call pos b next ↔ Segment r s pos b next

/-- No segment that is reached, complete or not, fills the state. -/
def Roomy : Prop :=
  ∀ results start, Chain goesOn (Segment r s) results start → goesOn results →
    ∀ n, Quiet r s start n → r.full (fed r s start n) = false

variable {r s goesOn}

theorem Quiet.mono {start n k : Nat} (quiet : Quiet r s start n) (le : k ≤ n) : Quiet r s start k :=
  fun j below => quiet j (Nat.lt_of_lt_of_le below le)

theorem Quiet.snoc {start n : Nat} {a : α} (quiet : Quiet r s start n)
    (here : s (start + n) = some a) (plain : r.ends a = false) : Quiet r s start (n + 1) := by
  intro k below
  rcases Nat.lt_succ_iff_lt_or_eq.mp below with earlier | rfl
  · exact quiet k earlier
  · exact ⟨a, here, plain⟩

theorem fed_succ {start n : Nat} {a : α} (here : s (start + n) = some a) :
    fed r s start (n + 1) = r.step (fed r s start n) a := by
  rw [fed, here]
  rfl

/-- A call gets through quiet items as long as there is room. -/
theorem read_quiet (start n trips : Nat) (quiet : Quiet r s start n)
    (room : ∀ k, k < n → r.full (fed r s start k) = false) :
    r.read s (trips + n) start r.init = r.read s trips (start + n) (fed r s start n) := by
  induction n generalizing trips with
  | zero => rfl
  | succ n ih =>
      obtain ⟨a, here, plain⟩ := quiet n (Nat.lt_succ_self n)
      have before := ih (trips + 1) (quiet.mono (Nat.le_succ n))
        (fun k below => room k (Nat.lt_succ_of_lt below))
      rw [Nat.add_right_comm, Nat.add_assoc] at before
      rw [before, Reader.read, room n (Nat.lt_succ_self n), fed_succ here]
      simp only [Bool.false_eq_true, ↓reduceIte, here, plain, Nat.add_assoc]

theorem call_full (start n : Nat) (quiet : Quiet r s start n)
    (room : ∀ k, k < n → r.full (fed r s start k) = false)
    (full : r.full (fed r s start n) = true) : r.Call s start (fed r s start n) (start + n) := by
  refine ⟨1 + n, ?_⟩
  rw [read_quiet start n 1 quiet room, Reader.read, if_pos full]

theorem call_ended (start n : Nat) (quiet : Quiet r s start n)
    (room : ∀ k, k ≤ n → r.full (fed r s start k) = false) (ended : Ends r s (start + n)) :
    r.Call s start (r.finish (fed r s start n)) (start + n + 1) := by
  obtain ⟨a, here, stops⟩ := ended
  refine ⟨1 + n, ?_⟩
  rw [read_quiet start n 1 quiet (fun k below => room k (Nat.le_of_lt below)), Reader.read,
    room n (Nat.le_refl n)]
  simp only [Bool.false_eq_true, ↓reduceIte, here, stops]

/-- How a call that returns has ended: the state was full, or the segment was over. -/
inductive Stopped (r : Reader α β) (s : Nat → Option α) (start : Nat) (b : β) (next : Nat) : Prop where
  | full (n : Nat) : Quiet r s start n → (∀ k, k < n → r.full (fed r s start k) = false) →
      r.full (fed r s start n) = true → b = fed r s start n → next = start + n → Stopped r s start b next
  | ended (n : Nat) : Quiet r s start n → (∀ k, k ≤ n → r.full (fed r s start k) = false) →
      Ends r s (start + n) → b = r.finish (fed r s start n) → next = start + n + 1 →
      Stopped r s start b next

theorem read_inv (start m trips : Nat) (b : β) (next : Nat) (quiet : Quiet r s start m)
    (room : ∀ k, k < m → r.full (fed r s start k) = false)
    (returned : r.read s trips (start + m) (fed r s start m) = some (b, next)) :
    Stopped r s start b next := by
  induction trips generalizing m with
  | zero => exact absurd returned.symm (Option.some_ne_none _)
  | succ trips ih =>
      rw [Reader.read] at returned
      cases full : r.full (fed r s start m) with
      | true =>
          rw [if_pos full, Option.some.injEq, Prod.mk.injEq] at returned
          exact .full m quiet room full returned.1.symm returned.2.symm
      | false =>
          have room : ∀ k, k < m + 1 → r.full (fed r s start k) = false := by
            intro k below
            rcases Nat.lt_succ_iff_lt_or_eq.mp below with earlier | rfl
            · exact room k earlier
            · exact full
          rw [full, if_neg Bool.false_ne_true] at returned
          cases here : s (start + m) with
          | none =>
              rw [here] at returned
              exact absurd returned.symm (Option.some_ne_none _)
          | some a =>
              rw [here] at returned
              dsimp only at returned
              cases stops : r.ends a with
              | true =>
                  rw [if_pos stops, Option.some.injEq, Prod.mk.injEq] at returned
                  exact .ended m quiet (fun k le => room k (Nat.lt_succ_of_le le)) ⟨a, here, stops⟩
                    returned.1.symm returned.2.symm
              | false =>
                  rw [stops, if_neg Bool.false_ne_true, ← fed_succ here, Nat.add_assoc] at returned
                  exact ih (m + 1) (quiet.snoc here stops) room returned

theorem call_stopped (start : Nat) (b : β) (next : Nat) :
    r.Call s start b next ↔ Stopped r s start b next := by
  constructor
  · rintro ⟨trips, returned⟩
    exact read_inv start 0 trips b next (fun k below => absurd below (Nat.not_lt_zero k))
      (fun k below => absurd below (Nat.not_lt_zero k)) returned
  · intro stopped
    cases stopped with
    | full n quiet room filled same place =>
        rw [same, place]
        exact call_full start n quiet room filled
    | ended n quiet room ends same place =>
        rw [same, place]
        exact call_ended start n quiet room ends

/-- Two readers that stop at the same items and are full together. `Rel` relates
their states, `Post` the states they return. -/
structure Agree {γ : Type} (r : Reader α β) (q : Reader α γ) (Rel Post : β → γ → Prop) : Prop where
  init : Rel r.init q.init
  step : ∀ b c a, r.ends a = false → Rel b c → Rel (r.step b a) (q.step c a)
  stop : ∀ b c, Rel b c → Post b c
  finish : ∀ b c, Rel b c → Post (r.finish b) (q.finish c)
  ends : ∀ a, r.ends a = q.ends a
  full : ∀ b c, Rel b c → r.full b = q.full c

section Agreement

variable {γ : Type} {q : Reader α γ} {Rel Post : β → γ → Prop}

theorem Agree.quiet (agree : Agree r q Rel Post) {start n : Nat} (quiet : Quiet r s start n) :
    Quiet q s start n := by
  intro k below
  obtain ⟨a, here, plain⟩ := quiet k below
  exact ⟨a, here, (agree.ends a).symm.trans plain⟩

theorem Agree.fed (agree : Agree r q Rel Post) {start n : Nat} (quiet : Quiet r s start n) :
    Rel (fed r s start n) (fed q s start n) := by
  induction n with
  | zero => exact agree.init
  | succ n ih =>
      obtain ⟨a, here, plain⟩ := quiet n (Nat.lt_succ_self n)
      rw [fed_succ here, fed_succ here]
      exact agree.step _ _ a plain (ih (quiet.mono (Nat.le_succ n)))

/-- A call of one reader is a call of the other, with the related state. -/
theorem Agree.call (agree : Agree r q Rel Post) {start next : Nat} {b : β} (call : r.Call s start b next) :
    ∃ c, q.Call s start c next ∧ Post b c := by
  have transfer : ∀ n, Quiet r s start n → ∀ k, k ≤ n →
      r.full (Framing.fed r s start k) = q.full (Framing.fed q s start k) :=
    fun n quiet k le => agree.full _ _ (agree.fed (quiet.mono le))
  cases (call_stopped start b next).mp call with
  | full n quiet room filled same place =>
      refine ⟨Framing.fed q s start n, ?_, same ▸ agree.stop _ _ (agree.fed quiet)⟩
      apply (call_stopped start _ next).mpr
      refine .full n (agree.quiet quiet) (fun k below => ?_) ?_ rfl place
      · rw [← transfer n quiet k (Nat.le_of_lt below)]
        exact room k below
      · rw [← transfer n quiet n (Nat.le_refl n)]
        exact filled
  | ended n quiet room ends same place =>
      refine ⟨q.finish (Framing.fed q s start n), ?_, same ▸ agree.finish _ _ (agree.fed quiet)⟩
      apply (call_stopped start _ next).mpr
      refine .ended n (agree.quiet quiet) (fun k le => ?_) ?_ rfl place
      · rw [← transfer n quiet k le]
        exact room k le
      · obtain ⟨a, here, stops⟩ := ends
        exact ⟨a, here, (agree.ends a).symm.trans stops⟩

theorem Agree.swap (agree : Agree r q Rel Post) : Agree q r (fun c b => Rel b c) fun c b => Post b c where
  init := agree.init
  step := fun c b a plain related => agree.step b c a ((agree.ends a).trans plain) related
  stop := fun c b related => agree.stop b c related
  finish := fun c b related => agree.finish b c related
  ends := fun a => (agree.ends a).symm
  full := fun c b related => (agree.full b c related).symm

end Agreement

/-- Where a segment has room throughout, calling is taking it. -/
theorem call_iff (start : Nat) (room : ∀ n, Quiet r s start n → r.full (fed r s start n) = false)
    (b : β) (next : Nat) : r.Call s start b next ↔ Segment r s start b next := by
  constructor
  · intro call
    cases (call_stopped start b next).mp call with
    | full n quiet _ filled _ _ =>
        rw [room n quiet] at filled
        exact absurd filled Bool.false_ne_true
    | ended n quiet _ ends same place => exact ⟨n, quiet, ends, place, same⟩
  · rintro ⟨n, quiet, ended, rfl, rfl⟩
    exact call_ended start n quiet (fun k le => room k (quiet.mono le)) ended

theorem first_full (start n : Nat) (full : r.full (fed r s start n) = true) :
    ∃ k, k ≤ n ∧ r.full (fed r s start k) = true ∧ ∀ j, j < k → r.full (fed r s start j) = false := by
  induction n using Nat.strongRecOn with
  | ind n ih =>
      by_cases earlier : ∃ k, k < n ∧ r.full (fed r s start k) = true
      · obtain ⟨k, below, filled⟩ := earlier
        obtain ⟨j, le, least⟩ := ih k below filled
        exact ⟨j, Nat.le_trans le (Nat.le_of_lt below), least⟩
      · refine ⟨n, Nat.le_refl n, full, fun j below => ?_⟩
        cases filled : r.full (fed r s start j) with
        | true => exact absurd ⟨j, below, filled⟩ earlier
        | false => rfl

/-- A chain whose steps agree with another relation is a chain of that one. -/
theorem Chain.map {step other : Nat → β → Nat → Prop} (results : List β) (pos : Nat)
    (chain : Chain goesOn step results pos)
    (agree : ∀ earlier start b next, Chain goesOn step earlier start →
      Chain goesOn other earlier start → goesOn earlier → step start b next → other start b next) :
    Chain goesOn other results pos := by
  induction chain with
  | nil => exact .nil
  | snoc results pos b next before more taken ih =>
      exact .snoc results pos b next ih more (agree results pos b next before ih more taken)

/-- Calls and segments match one to one exactly when no segment that is reached
fills the state. -/
theorem framed_iff : Framed r s goesOn (r.Call s) ↔ Roomy r s goesOn := by
  constructor
  · intro framed results start segments more n quiet
    have calls := segments.map results start fun earlier pos b next _ reached goes segment =>
      (framed earlier pos reached goes b next).mpr segment
    cases filled : r.full (fed r s start n) with
    | false => rfl
    | true =>
        obtain ⟨k, le, full, room⟩ := first_full start n filled
        have call := call_full start k (quiet.mono le) room full
        -- this call stops short of the end that it would have to take
        obtain ⟨j, _, ⟨a, here, stops⟩, next, _⟩ := (framed results start calls more _ _).mp call
        obtain ⟨c, same, plain⟩ := quiet j (by omega)
        rw [here, Option.some.injEq] at same
        rw [← same, stops] at plain
        exact absurd plain.symm Bool.false_ne_true
  · intro roomy results pos calls more
    have segments := calls.map results pos fun earlier start b next _ reached goes call =>
      (call_iff start (roomy earlier start reached goes) b next).mp call
    exact call_iff pos (roomy results pos segments more)

end Framing
