import KehindeKernel.Lib.Outcome
import Mathlib.Data.List.Basic

/-!
Null-terminated linked lists in a partial store. `Holds` says which cells a head
pointer leads to, with the part of each record that `view` shows. A walk through
a held list finds its cells in order; a write to a cell that keeps the link, and
a cell linked behind the last one, change the list in that one place.
-/

namespace Linked

open Outcome

variable {α ρ ν : Type} (null : α) (next : ρ → α)

section Walks

variable [DecidableEq α] (store : α → Option ρ)

/-- The first cell that passes the test, `null` when none does. -/
def find (test : ρ → Bool) : Nat → α → Run α
  | 0, _ => throw .hang
  | fuel + 1, p =>
      if p = null then pure null
      else do
        let r ← fetch (store p)
        if test r then pure p else find test fuel (next r)

/-- `k` links further on; `none` when the list ended before the last step. -/
def advance : Nat → α → Run (Option α)
  | 0, p => pure (some p)
  | k + 1, p =>
      if p = null then pure none
      else do
        let r ← fetch (store p)
        advance k (next r)

/-- The cell without a successor. The first read is not guarded. -/
def last : Nat → α → Run α
  | 0, _ => throw .hang
  | fuel + 1, p => do
      let r ← fetch (store p)
      if next r = null then pure p else last fuel (next r)

def count : Nat → α → Run Nat
  | 0, _ => throw .hang
  | fuel + 1, p =>
      if p = null then pure 0
      else do
        let r ← fetch (store p)
        let rest ← count fuel (next r)
        pure (rest + 1)

end Walks

variable (view : ρ → ν)

def Holds (store : α → Option ρ) : α → List (α × ν) → Prop
  | p, [] => p = null
  | p, (a, v) :: rest =>
      p = a ∧ a ≠ null ∧ ∃ r, store a = some r ∧ view r = v ∧ Holds store (next r) rest

/-- The address of cell `k`, `null` past the end. -/
def cell (l : List (α × ν)) (k : Nat) : α := (l[k]?.map Prod.fst).getD null

variable {null next view} {store : α → Option ρ}

theorem Holds.member {p : α} {l : List (α × ν)} (holds : Holds null next view store p l)
    (x : α × ν) (present : x ∈ l) : x.1 ≠ null ∧ ∃ r, store x.1 = some r ∧ view r = x.2 := by
  induction l generalizing p with
  | nil => contradiction
  | cons y rest ih =>
      obtain ⟨_, nonnull, r, stored, seen, later⟩ := holds
      rcases List.mem_cons.mp present with rfl | inside
      · exact ⟨nonnull, r, stored, seen⟩
      · exact ih later inside

theorem Holds.head {p : α} {l : List (α × ν)} (holds : Holds null next view store p l) :
    p = cell null l 0 := by
  cases l with
  | nil => exact holds
  | cons x rest => exact holds.1

theorem Holds.null_iff {p : α} {l : List (α × ν)} (holds : Holds null next view store p l) :
    p = null ↔ l = [] := by
  cases l with
  | nil => exact ⟨fun _ => rfl, fun _ => holds⟩
  | cons x rest =>
      have nonnull := holds.2.1
      rw [holds.1]
      simp [nonnull]

/-- A store holds one list from an address on. -/
theorem Holds.unique {p : α} {l l' : List (α × ν)} (holds : Holds null next view store p l)
    (again : Holds null next view store p l') : l = l' := by
  induction l generalizing p l' with
  | nil =>
      cases l' with
      | nil => rfl
      | cons y rest => exact absurd (again.1.symm.trans holds) again.2.1
  | cons x rest ih =>
      obtain ⟨a, v⟩ := x
      obtain ⟨rfl, nonnull, r, stored, rfl, later⟩ := holds
      cases l' with
      | nil => exact absurd again nonnull
      | cons y rest' =>
          obtain ⟨b, w⟩ := y
          obtain ⟨rfl, _, r', stored', rfl, later'⟩ := again
          -- one store has one cell there, so the tails start at the same place
          obtain rfl : r = r' := Option.some.inj (stored.symm.trans stored')
          rw [ih later later']

/-- A tail of a held list is held from the cell it starts at. -/
theorem Holds.drop {p : α} {l : List (α × ν)} (holds : Holds null next view store p l) (k : Nat) :
    Holds null next view store (cell null l k) (l.drop k) := by
  induction l generalizing p k with
  | nil => simp [cell, Holds]
  | cons x rest ih =>
      cases k with
      | zero => exact holds.head ▸ holds
      | succ k =>
          obtain ⟨_, _, r, _, _, later⟩ := holds
          simpa [cell] using ih later k

/-- A list is held by every store that agrees on its cells. -/
theorem Holds.frame {p : α} {l : List (α × ν)} (holds : Holds null next view store p l)
    (store' : α → Option ρ) (same : ∀ x ∈ l, store' x.1 = store x.1) :
    Holds null next view store' p l := by
  induction l generalizing p with
  | nil => exact holds
  | cons x rest ih =>
      obtain ⟨start, nonnull, r, stored, seen, later⟩ := holds
      refine ⟨start, nonnull, r, ?_, seen, ih later fun y inside => same y (List.mem_cons_of_mem x inside)⟩
      rw [same x List.mem_cons_self]
      exact stored

variable [DecidableEq α]

theorem find_spec (test : ρ → Bool) (check : ν → Bool) (agree : ∀ r, test r = check (view r))
    (fuel : Nat) (p : α) (l : List (α × ν)) (holds : Holds null next view store p l)
    (enough : l.length < fuel) :
    find null next store test fuel p =
      .ok (((l.find? fun x => check x.2).map Prod.fst).getD null) := by
  induction l generalizing p fuel with
  | nil =>
      obtain ⟨fuel, rfl⟩ := Nat.exists_eq_succ_of_ne_zero (Nat.ne_of_gt enough)
      have ends : p = null := holds
      simp [find, ends]
  | cons x rest ih =>
      obtain ⟨fuel, rfl⟩ := Nat.exists_eq_succ_of_ne_zero (Nat.ne_of_gt (Nat.zero_lt_of_lt enough))
      obtain ⟨rfl, nonnull, r, stored, seen, later⟩ := holds
      simp only [find, if_neg nonnull, stored, fetch_some, ok_bind, agree r, seen]
      by_cases hit : check x.2 = true
      · simp [hit]
      · simp only [hit, Bool.false_eq_true, ↓reduceIte, not_false_eq_true, List.find?_cons_of_neg]
        exact ih fuel (next r) later (Nat.lt_of_succ_lt_succ enough)

theorem advance_spec (k : Nat) (p : α) (l : List (α × ν)) (holds : Holds null next view store p l) :
    advance null next store k p = .ok (if k ≤ l.length then some (cell null l k) else none) := by
  induction l generalizing p k with
  | nil =>
      have ends : p = null := holds
      cases k with
      | zero => simp [advance, cell, ends]
      | succ k => simp [advance, ends]
  | cons x rest ih =>
      cases k with
      | zero =>
          have start := holds.head
          simpa [advance] using start
      | succ k =>
          obtain ⟨rfl, nonnull, r, stored, _, later⟩ := holds
          simp only [advance, if_neg nonnull, stored, fetch_some, ok_bind, ih k (next r) later]
          simp [cell]

theorem last_spec (fuel : Nat) (p : α) (l : List (α × ν)) (x : α × ν)
    (holds : Holds null next view store p (l ++ [x])) (enough : l.length < fuel) :
    last null next store fuel p = .ok x.1 := by
  induction l generalizing p fuel with
  | nil =>
      obtain ⟨fuel, rfl⟩ := Nat.exists_eq_succ_of_ne_zero (Nat.ne_of_gt enough)
      obtain ⟨rfl, _, r, stored, _, ends⟩ := holds
      have ends : next r = null := ends
      simp [last, stored, ends]
  | cons y rest ih =>
      obtain ⟨fuel, rfl⟩ := Nat.exists_eq_succ_of_ne_zero (Nat.ne_of_gt (Nat.zero_lt_of_lt enough))
      obtain ⟨rfl, _, r, stored, _, later⟩ := holds
      have more : next r ≠ null := by
        rw [Ne, later.null_iff]
        simp
      simp only [last, stored, fetch_some, ok_bind, if_neg more]
      exact ih fuel (next r) later (Nat.lt_of_succ_lt_succ enough)

theorem count_spec (fuel : Nat) (p : α) (l : List (α × ν))
    (holds : Holds null next view store p l) (enough : l.length < fuel) :
    count null next store fuel p = .ok l.length := by
  induction l generalizing p fuel with
  | nil =>
      obtain ⟨fuel, rfl⟩ := Nat.exists_eq_succ_of_ne_zero (Nat.ne_of_gt enough)
      have ends : p = null := holds
      simp [count, ends]
  | cons x rest ih =>
      obtain ⟨fuel, rfl⟩ := Nat.exists_eq_succ_of_ne_zero (Nat.ne_of_gt (Nat.zero_lt_of_lt enough))
      obtain ⟨rfl, nonnull, r, stored, _, later⟩ := holds
      simp [count, nonnull, stored, ih fuel (next r) later (Nat.lt_of_succ_lt_succ enough)]

/-- A write that keeps the link of the cell it hits. -/
theorem Holds.update {p : α} {l : List (α × ν)} (holds : Holds null next view store p l) (a : α)
    (r r' : ρ) (stored : store a = some r) (link : next r' = next r) :
    Holds null next view (Function.update store a (some r')) p
      (l.map fun x => if x.1 = a then (a, view r') else x) := by
  induction l generalizing p with
  | nil => exact holds
  | cons x rest ih =>
      obtain ⟨start, nonnull, q, here, seen, later⟩ := holds
      rw [List.map_cons]
      by_cases hit : x.1 = a
      · rw [if_pos hit]
        refine ⟨start.trans hit, hit ▸ nonnull, r', by simp, rfl, ?_⟩
        rw [hit, stored, Option.some.injEq] at here
        rw [link, here]
        exact ih later
      · rw [if_neg hit]
        exact ⟨start, nonnull, q, by simpa [hit] using here, seen, ih later⟩

/-- A fresh last cell, linked behind the one that was last. -/
theorem Holds.snoc {p : α} {l : List (α × ν)} {x : α × ν} (r r' fresh : ρ) (b : α)
    (holds : Holds null next view store p (l ++ [x])) (apart : ((l ++ [x]).map Prod.fst).Nodup)
    (stored : store x.1 = some r) (nonnull : b ≠ null) (outside : b ∉ (l ++ [x]).map Prod.fst)
    (link : next r' = b) (kept : view r' = view r) (ends : next fresh = null) :
    Holds null next view
      (Function.update (Function.update store b (some fresh)) x.1 (some r')) p
      (l ++ [x, (b, view fresh)]) := by
  induction l generalizing p with
  | nil =>
      obtain ⟨start, nonnullX, q, here, seen, _⟩ := holds
      have different : b ≠ x.1 := by simpa using outside
      rw [stored, Option.some.injEq] at here
      refine ⟨start, nonnullX, r', by simp, by rw [kept, here, seen], link, nonnull, fresh, ?_, rfl, ends⟩
      simp [different]
  | cons y rest ih =>
      obtain ⟨start, nonnullY, q, here, seen, later⟩ := holds
      simp only [List.cons_append, List.map_cons, List.mem_cons, not_or] at outside
      obtain ⟨outY, outRest⟩ := outside
      obtain ⟨freshY, apartRest⟩ := List.nodup_cons.mp apart
      have notLast : y.1 ≠ x.1 := by
        intro same
        exact freshY (by simp [same])
      refine ⟨start, nonnullY, q, ?_, seen, ih later apartRest outRest⟩
      rw [Function.update_of_ne notLast, Function.update_of_ne (Ne.symm outY)]
      exact here

end Linked
