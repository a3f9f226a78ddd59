import KehindeKernel.Lib.Linked
import Mathlib.Data.Finset.Card

/-!
Linked lists of which only the front is known. `Reaches` counts cells that follow
each other, whatever the last of them links to; it survives every change of the
store that keeps the cells and the links between them.
-/

namespace Linked

open Outcome

variable {α ρ : Type} {null : α} {next : ρ → α}

variable (null next) in
/-- At least `n` cells follow each other from the pointer on. -/
def Reaches (store : α → Option ρ) : Nat → α → Prop
  | 0, _ => True
  | n + 1, p => p ≠ null ∧ ∃ r, store p = some r ∧ Reaches store n (next r)

variable (null next) in
/-- Cells stay, and a link changes only where there was none. -/
def Grows (store store' : α → Option ρ) : Prop :=
  ∀ a r, store a = some r → ∃ r', store' a = some r' ∧ (next r = null ∨ next r' = next r)

theorem grows_refl (store : α → Option ρ) : Grows null next store store :=
  fun _ r stored => ⟨r, stored, Or.inr rfl⟩

theorem Grows.trans {store store' store'' : α → Option ρ} (first : Grows null next store store')
    (second : Grows null next store' store'') : Grows null next store store'' := by
  intro a r stored
  obtain ⟨r', stored', link⟩ := first a r stored
  obtain ⟨r'', stored'', link'⟩ := second a r' stored'
  refine ⟨r'', stored'', ?_⟩
  rcases link with ends | same
  · exact Or.inl ends
  · rw [← same]
    exact link'

theorem grows_fresh [DecidableEq α] {store : α → Option ρ} {a : α} (dead : store a = none) (r : ρ) :
    Grows null next store (Function.update store a (some r)) := by
  intro b q stored
  have apart : b ≠ a := by
    rintro rfl
    rw [dead] at stored
    contradiction
  exact ⟨q, by rw [Function.update_of_ne apart]; exact stored, Or.inr rfl⟩

theorem grows_update [DecidableEq α] {store : α → Option ρ} {a : α} {r : ρ} (stored : store a = some r) (r' : ρ)
    (link : next r = null ∨ next r' = next r) : Grows null next store (Function.update store a (some r')) := by
  intro b q storedB
  by_cases hit : b = a
  · subst hit
    obtain rfl : r = q := Option.some.inj (stored.symm.trans storedB)
    exact ⟨r', Function.update_self .., link⟩
  · exact ⟨q, by rw [Function.update_of_ne hit]; exact storedB, Or.inr rfl⟩

theorem Reaches.mono {store : α → Option ρ} {m n : Nat} {p : α} (reaches : Reaches null next store n p)
    (fewer : m ≤ n) : Reaches null next store m p := by
  induction m generalizing n p with
  | zero => trivial
  | succ m ih =>
      obtain ⟨n, rfl⟩ := Nat.exists_eq_succ_of_ne_zero (Nat.ne_of_gt (Nat.lt_of_lt_of_le m.succ_pos fewer))
      obtain ⟨nonnull, r, stored, later⟩ := reaches
      exact ⟨nonnull, r, stored, ih later (Nat.le_of_succ_le_succ fewer)⟩

theorem Reaches.grows {store store' : α → Option ρ} {n : Nat} {p : α} (reaches : Reaches null next store n p)
    (grows : Grows null next store store') : Reaches null next store' n p := by
  induction n generalizing p with
  | zero => trivial
  | succ n ih =>
      obtain ⟨nonnull, r, stored, later⟩ := reaches
      obtain ⟨r', stored', link⟩ := grows p r stored
      refine ⟨nonnull, r', stored', ?_⟩
      cases n with
      | zero => trivial
      | succ n =>
          -- a cell follows, so the link was not null and has not changed
          have same := link.resolve_left later.1
          rw [same]
          exact ih later

variable [DecidableEq α]

theorem reaches_iff_advance {store : α → Option ρ} (n : Nat) (p : α) :
    Reaches null next store n p ↔ ∃ q, advance null next store n p = .ok (some q) := by
  induction n generalizing p with
  | zero => exact ⟨fun _ => ⟨p, rfl⟩, fun _ => trivial⟩
  | succ n ih =>
      rw [advance]
      by_cases ends : p = null
      · rw [if_pos ends]
        constructor
        · intro reaches
          exact absurd ends reaches.1
        · rintro ⟨_, none_⟩
          simp at none_
      · rw [if_neg ends]
        cases stored : store p with
        | none =>
            constructor
            · rintro ⟨_, r, found, _⟩
              rw [stored] at found
              contradiction
            · rintro ⟨_, faults⟩
              contradiction
        | some r =>
            rw [fetch_some, ok_bind, ← ih (next r)]
            constructor
            · rintro ⟨_, r', found, later⟩
              obtain rfl : r = r' := Option.some.inj (stored.symm.trans found)
              exact later
            · intro later
              exact ⟨ends, r, stored, later⟩

theorem count_reaches {store : α → Option ρ} (fuel : Nat) (p : α) (n : Nat)
    (counted : count null next store fuel p = .ok n) : Reaches null next store n p ∧ n < fuel := by
  induction fuel generalizing p n with
  | zero => contradiction
  | succ fuel ih =>
      rw [count] at counted
      by_cases ends : p = null
      · rw [if_pos ends] at counted
        obtain rfl : 0 = n := Except.ok.inj counted
        exact ⟨trivial, fuel.succ_pos⟩
      · rw [if_neg ends] at counted
        obtain ⟨r, stored, rest⟩ := (bind_ok_iff _ _ _).mp counted
        obtain ⟨m, later, same⟩ := (bind_ok_iff _ _ _).mp rest
        obtain rfl : m + 1 = n := Except.ok.inj same
        obtain ⟨reaches, below⟩ := ih (next r) m later
        exact ⟨⟨ends, r, (fetch_ok_iff _ _).mp stored, reaches⟩, Nat.succ_lt_succ below⟩

theorem count_cons {store : α → Option ρ} {fuel : Nat} {p : α} {n : Nat} (some_ : p ≠ null)
    (counted : count null next store fuel p = .ok n) :
    ∃ fuel' r m, store p = some r ∧ count null next store fuel' (next r) = .ok m ∧ n = m + 1 := by
  cases fuel with
  | zero => contradiction
  | succ fuel =>
      rw [count, if_neg some_] at counted
      obtain ⟨r, stored, rest⟩ := (bind_ok_iff _ _ _).mp counted
      obtain ⟨m, later, same⟩ := (bind_ok_iff _ _ _).mp rest
      exact ⟨fuel, r, m, (fetch_ok_iff _ _).mp stored, later, (Except.ok.inj same).symm⟩

theorem count_null {store : α → Option ρ} {fuel : Nat} {p : α} {n : Nat} (ends : p = null)
    (counted : count null next store fuel p = .ok n) : n = 0 := by
  cases fuel with
  | zero => contradiction
  | succ fuel =>
      rw [count, if_pos ends] at counted
      exact (Except.ok.inj counted).symm

theorem count_unique {store : α → Option ρ} {fuel fuel' : Nat} {p : α} {n m : Nat}
    (first : count null next store fuel p = .ok n) (second : count null next store fuel' p = .ok m) :
    n = m := by
  induction n generalizing fuel fuel' p m with
  | zero =>
      by_cases ends : p = null
      · exact (count_null ends second).symm
      · obtain ⟨_, _, _, _, _, more⟩ := count_cons ends first
        omega
  | succ n ih =>
      by_cases ends : p = null
      · exact (count_null ends first).trans (count_null ends second).symm
      · obtain ⟨_, r, k, stored, later, length⟩ := count_cons ends first
        obtain ⟨_, r', k', stored', later', length'⟩ := count_cons ends second
        obtain rfl : r = r' := Option.some.inj (stored.symm.trans stored')
        obtain rfl : k = n := by omega
        rw [length', ih later later']

/-- A walk that ends meets each of its cells once: from a cell met twice it would
go on in the same way twice. -/
theorem count_cells {store : α → Option ρ} {fuel : Nat} {p : α} {n : Nat}
    (counted : count null next store fuel p = .ok n) :
    ∃ cells : List α, cells.length = n ∧ cells.Nodup ∧ ∀ a ∈ cells, store a ≠ none ∧
      ∃ fuel' m, count null next store fuel' a = .ok m ∧ m ≤ n := by
  induction n generalizing fuel p with
  | zero => exact ⟨[], rfl, .nil, by simp⟩
  | succ n ih =>
      have some_ : p ≠ null := fun ends => absurd (count_null ends counted) (Nat.succ_ne_zero n)
      obtain ⟨fuel', r, m, stored, later, length⟩ := count_cons some_ counted
      obtain rfl : m = n := by omega
      obtain ⟨cells, many, single, live⟩ := ih later
      refine ⟨p :: cells, by rw [List.length_cons, many], ?_, ?_⟩
      · refine List.nodup_cons.mpr ⟨?_, single⟩
        intro again
        obtain ⟨_, _, k, recounted, fewer⟩ := live p again
        have same := count_unique counted recounted
        omega
      · intro a member
        rcases List.mem_cons.mp member with rfl | inside
        · exact ⟨by rw [stored]; exact Option.some_ne_none r, fuel, _, counted, Nat.le_refl _⟩
        · obtain ⟨present, fuel', k, recounted, fewer⟩ := live a inside
          exact ⟨present, fuel', k, recounted, Nat.le_succ_of_le fewer⟩

/-- Such a walk has no more cells than the store holds. -/
theorem count_le_card {store : α → Option ρ} {fuel : Nat} {p : α} {n : Nat}
    (counted : count null next store fuel p = .ok n) (live : Finset α) (all : ∀ a, store a ≠ none → a ∈ live) :
    n ≤ live.card := by
  obtain ⟨cells, rfl, single, present⟩ := count_cells counted
  rw [← List.toFinset_card_of_nodup single]
  apply Finset.card_le_card
  intro a member
  exact all a (present a (List.mem_toFinset.mp member)).1

theorem last_null {store : α → Option ρ} {fuel : Nat} {p x : α} (ends : last null next store fuel p = .ok x) :
    ∃ r, store x = some r ∧ next r = null := by
  induction fuel generalizing p with
  | zero => contradiction
  | succ fuel ih =>
      rw [last] at ends
      obtain ⟨r, found, rest⟩ := (bind_ok_iff _ _ _).mp ends
      by_cases final : next r = null
      · rw [if_pos final] at rest
        obtain rfl : p = x := Except.ok.inj rest
        exact ⟨r, (fetch_ok_iff _ _).mp found, final⟩
      · rw [if_neg final] at rest
        exact ih rest

/-- Behind the cell without a successor a new one makes every count grow. -/
theorem Reaches.snoc {store store' : α → Option ρ} {n fuel : Nat} {p x b : α} {r' fresh : ρ}
    (reaches : Reaches null next store n p) (some_ : p ≠ null)
    (ends : last null next store fuel p = .ok x) (grows : Grows null next store store')
    (stored : store' x = some r') (link : next r' = b) (nonnull : b ≠ null) (new : store' b = some fresh) :
    Reaches null next store' (n + 1) p := by
  induction fuel generalizing n p with
  | zero => contradiction
  | succ fuel ih =>
      rw [last] at ends
      obtain ⟨r, found, rest⟩ := (bind_ok_iff _ _ _).mp ends
      have here := (fetch_ok_iff _ _).mp found
      by_cases final : next r = null
      · rw [if_pos final] at rest
        obtain rfl : p = x := Except.ok.inj rest
        have two : Reaches null next store' 2 p :=
          ⟨some_, r', stored, by rw [link]; exact ⟨nonnull, fresh, new, trivial⟩⟩
        apply two.mono
        cases n with
        | zero => decide
        | succ n =>
            cases n with
            | zero => decide
            | succ n =>
                obtain ⟨_, q, foundQ, later, _⟩ := reaches
                obtain rfl : r = q := Option.some.inj (here.symm.trans foundQ)
                exact absurd final later
      · rw [if_neg final] at rest
        obtain ⟨q, storedQ, linkQ⟩ := grows p r here
        have same := linkQ.resolve_left final
        have shorter : Reaches null next store (n - 1) (next r) := by
          cases n with
          | zero => trivial
          | succ n =>
              obtain ⟨_, q', foundQ, later⟩ := reaches
              obtain rfl : r = q' := Option.some.inj (here.symm.trans foundQ)
              exact later
        have further := ih shorter final rest
        exact ⟨some_, q, storedQ, by rw [same]; exact further.mono (by omega)⟩

end Linked
