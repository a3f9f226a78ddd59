import Mathlib.Data.List.Basic

/-!
Directories over numbered objects: each directory lists names with the numbers
they resolve to, and a path is a list of names followed from a start. Numbers
that grow along entries leave no way back.
-/

namespace DirectoryTree

variable {ν : Type} [DecidableEq ν]

/-- The object `name` resolves to in directory `d`. -/
def child (dirs : Nat → Option (List (ν × Nat))) (d : Nat) (name : ν) : Option Nat :=
  ((dirs d).bind fun l => l.find? fun e => e.1 == name).map Prod.snd

def walk (dirs : Nat → Option (List (ν × Nat))) : Nat → List ν → Option Nat
  | d, [] => some d
  | d, name :: rest => (child dirs d name).bind fun next => walk dirs next rest

variable (dirs : Nat → Option (List (ν × Nat)))

@[simp] theorem walk_nil (d : Nat) : walk dirs d [] = some d := rfl

@[simp] theorem walk_cons (d : Nat) (name : ν) (rest : List ν) :
    walk dirs d (name :: rest) = (child dirs d name).bind fun next => walk dirs next rest := rfl

theorem walk_append (d : Nat) (front back : List ν) :
    walk dirs d (front ++ back) = (walk dirs d front).bind fun next => walk dirs next back := by
  induction front generalizing d with
  | nil => rfl
  | cons name rest ih =>
      rw [List.cons_append, walk_cons, walk_cons]
      cases child dirs d name with
      | none => rfl
      | some next => exact ih next

theorem child_eq_some (d : Nat) (name : ν) (number : Nat) (found : child dirs d name = some number) :
    ∃ l, dirs d = some l ∧ (name, number) ∈ l := by
  obtain ⟨e, hit, rfl⟩ := Option.map_eq_some_iff.mp found
  obtain ⟨l, listed, first⟩ := Option.bind_eq_some_iff.mp hit
  have same : e.1 = name := by simpa using List.find?_some first
  exact ⟨l, listed, same ▸ List.mem_of_find?_eq_some first⟩

theorem child_of_mem (d : Nat) (l : List (ν × Nat)) (listed : dirs d = some l)
    (distinct : (l.map Prod.fst).Nodup) (name : ν) (number : Nat) (member : (name, number) ∈ l) :
    child dirs d name = some number := by
  have first : l.find? (fun e => e.1 == name) = some (name, number) := by
    induction l generalizing dirs with
    | nil => contradiction
    | cons e rest ih =>
        obtain ⟨fresh, later⟩ := List.nodup_cons.mp distinct
        rcases List.mem_cons.mp member with rfl | inside
        · simp
        · have different : e.1 ≠ name := by
            rintro rfl
            exact fresh (List.mem_map.mpr ⟨_, inside, rfl⟩)
          rw [List.find?_cons_of_neg (by simpa using different)]
          exact ih (fun _ => some rest) rfl later inside
  rw [child, listed, Option.bind_some, first]
  rfl

theorem child_eq_none (d : Nat) (name : ν) :
    child dirs d name = none ↔ ∀ l, dirs d = some l → name ∉ l.map Prod.fst := by
  rw [child, Option.map_eq_none_iff]
  cases listed : dirs d with
  | none => simp
  | some l =>
      simp only [Option.bind_some, List.find?_eq_none, beq_iff_eq, Option.some.injEq, forall_eq',
        List.mem_map, not_exists, not_and]

/-- A walk fails at the first name that its directory does not resolve. -/
theorem walk_eq_none (d : Nat) (path : List ν) : walk dirs d path = none ↔
    ∃ front name back here, path = front ++ name :: back ∧ walk dirs d front = some here ∧
      child dirs here name = none := by
  induction path generalizing d with
  | nil => simp
  | cons name rest ih =>
      rw [walk_cons]
      cases step : child dirs d name with
      | none => exact ⟨fun _ => ⟨[], name, rest, d, rfl, rfl, step⟩, fun _ => rfl⟩
      | some next =>
          rw [Option.bind_some, ih next]
          constructor
          · rintro ⟨front, missing, back, here, rfl, reached, lost⟩
            exact ⟨name :: front, missing, back, here, rfl, by rw [walk_cons, step]; exact reached, lost⟩
          · rintro ⟨front, missing, back, here, split, reached, lost⟩
            cases front with
            | nil =>
                obtain ⟨rfl, rfl⟩ := List.cons.inj split
                obtain rfl : d = here := Option.some.inj reached
                exact absurd (step.symm.trans lost) (Option.some_ne_none next)
            | cons first front =>
                obtain ⟨rfl, rfl⟩ := List.cons.inj split
                rw [walk_cons, step] at reached
                exact ⟨front, missing, back, here, rfl, reached, lost⟩

/-- Along entries with growing numbers a walk only goes up. -/
theorem walk_increases (grows : ∀ d l, dirs d = some l → ∀ e ∈ l, d < e.2) (d : Nat) (path : List ν)
    (last : Nat) (reached : walk dirs d path = some last) : d + path.length ≤ last := by
  induction path generalizing d with
  | nil => exact Nat.le_of_eq (Option.some.inj reached)
  | cons name rest ih =>
      obtain ⟨next, step, later⟩ := Option.bind_eq_some_iff.mp reached
      obtain ⟨l, listed, member⟩ := child_eq_some dirs d name next step
      have above : d < next := grows d l listed _ member
      have further := ih next later
      rw [List.length_cons]
      omega

/-- A walk depends only on directories with numbers below its end. -/
theorem walk_below (grows : ∀ d l, dirs d = some l → ∀ e ∈ l, d < e.2)
    (dirs' : Nat → Option (List (ν × Nat))) (d : Nat) (path : List ν) (last : Nat)
    (reached : walk dirs d path = some last) (same : ∀ k, k < last → dirs' k = dirs k) :
    walk dirs' d path = some last := by
  induction path generalizing d with
  | nil => exact reached
  | cons name rest ih =>
      have above := walk_increases dirs grows d (name :: rest) last reached
      obtain ⟨next, step, later⟩ := Option.bind_eq_some_iff.mp reached
      have here : child dirs' d name = some next := by
        rw [child, same d (by rw [List.length_cons] at above; omega)]
        exact step
      rw [walk_cons, here]
      exact ih next later

/-- The last step of a walk along a path that is not empty. -/
theorem walk_last (d : Nat) (front : List ν) (name : ν) (last : Nat)
    (reached : walk dirs d (front ++ [name]) = some last) :
    ∃ here, walk dirs d front = some here ∧ child dirs here name = some last := by
  rw [walk_append] at reached
  obtain ⟨here, first, step⟩ := Option.bind_eq_some_iff.mp reached
  obtain ⟨next, found, done⟩ := Option.bind_eq_some_iff.mp step
  exact ⟨here, first, found.trans done⟩

/-- Where every object is named once, a walk cut at `limit` steps reaches an entry
behind `base` only if it gets past `base` and takes that entry's name. -/
theorem walk_to_entry (grows : ∀ d l, dirs d = some l → ∀ e ∈ l, d < e.2)
    (once : ∀ a b l m e f, dirs a = some l → dirs b = some m → e ∈ l → f ∈ m → e.2 = f.2 → e.1 = f.1)
    (limit root c number : Nat) (base parts : List ν) (name : ν) (l : List (ν × Nat))
    (reached : walk dirs root (base.take limit) = some c) (listed : dirs c = some l)
    (member : (name, number) ∈ l) (some_ : parts ≠ [])
    (done : walk dirs root ((base ++ parts).take limit) = some number) :
    base.length < limit ∧ name ∈ parts := by
  by_cases past : base.length < limit
  · have taken : (base ++ parts).take limit = base ++ parts.take (limit - base.length) := by
      rw [List.take_append, List.take_of_length_le (Nat.le_of_lt past)]
    have more : parts.take (limit - base.length) ≠ [] := by
      rw [Ne, List.take_eq_nil_iff]
      exact not_or.mpr ⟨by omega, some_⟩
    obtain ⟨front, last, split⟩ := (List.eq_nil_or_concat _).resolve_left more
    rw [List.concat_eq_append] at split
    rw [taken, split, ← List.append_assoc] at done
    obtain ⟨here, _, step⟩ := walk_last dirs root (base ++ front) last number done
    obtain ⟨m, listedHere, inM⟩ := child_eq_some dirs here last number step
    have same : last = name := once here c m l _ _ listedHere listed inM member rfl
    refine ⟨past, List.mem_of_mem_take (i := limit - base.length) ?_⟩
    rw [split, same]
    exact List.mem_append_right front List.mem_cons_self
  · have taken : (base ++ parts).take limit = base.take limit :=
      List.take_append_of_le_length (Nat.not_lt.mp past)
    rw [taken, reached, Option.some.injEq] at done
    exact absurd done (Nat.ne_of_lt (grows c l listed _ member))

end DirectoryTree
