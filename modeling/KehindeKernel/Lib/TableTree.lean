import Mathlib.Logic.Function.Basic

/-!
A tree of tables in a flat store. A table is named by a frame, an entry by a
frame and an index, and `decode` reads an entry as a link to a child table. A
path lists indices, innermost first, so `[]` is the root table. Tables live at
paths of at most `depth` indices; the entries of the deepest ones are the leaves.
-/

namespace TableTree

variable {α ι δ : Type} (decode : δ → Option α) (inRange : ι → Prop)

def tableAt (mem : α → ι → δ) (root : α) : List ι → Option α
  | [] => some root
  | i :: path => (tableAt mem root path).bind fun table => decode (mem table i)

/-- The entry `i` of the table at `path`, or `blank` where there is no table. -/
def entry (blank : δ) (mem : α → ι → δ) (root : α) (i : ι) (path : List ι) : δ :=
  ((tableAt decode mem root path).map fun table => mem table i).getD blank

def Valid (depth : Nat) (path : List ι) : Prop := path.length ≤ depth ∧ ∀ i ∈ path, inRange i

/-- No two paths lead to one table. -/
def Distinct (depth : Nat) (mem : α → ι → δ) (root : α) : Prop :=
  ∀ left right table, Valid inRange depth left → Valid inRange depth right →
    tableAt decode mem root left = some table → tableAt decode mem root right = some table →
    left = right

variable {decode inRange} {depth : Nat} {mem : α → ι → δ} {root : α}

theorem Valid.tail {i : ι} {path : List ι} (valid : Valid inRange depth (i :: path)) :
    Valid inRange depth path :=
  ⟨Nat.le_of_succ_le valid.1, fun j member => valid.2 j (List.mem_cons_of_mem i member)⟩

theorem Valid.nil : Valid inRange depth ([] : List ι) := ⟨Nat.zero_le depth, by simp⟩

theorem tableAt_cons_some (i : ι) (path : List ι) (child : α) :
    tableAt decode mem root (i :: path) = some child ↔
      ∃ table, tableAt decode mem root path = some table ∧ decode (mem table i) = some child := by
  rw [tableAt, Option.bind_eq_some_iff]

/-- Two stores with the same links have the same tables. -/
theorem tableAt_congr (mem' : α → ι → δ) (path : List ι) (valid : Valid inRange depth path)
    (links : ∀ table i prior, Valid inRange depth (i :: prior) →
      tableAt decode mem root prior = some table → decode (mem' table i) = decode (mem table i)) :
    tableAt decode mem' root path = tableAt decode mem root path := by
  induction path with
  | nil => rfl
  | cons i path ih =>
      rw [tableAt, tableAt, ih valid.tail]
      cases found : tableAt decode mem root path with
      | none => rfl
      | some table => exact links table i path valid found

variable [DecidableEq α] [DecidableEq ι]

def setEntry (mem : α → ι → δ) (table : α) (i : ι) (word : δ) : α → ι → δ :=
  Function.update mem table (Function.update (mem table) i word)

theorem setEntry_same (table : α) (i : ι) (word : δ) :
    setEntry mem table i word table i = word := by
  simp [setEntry]

theorem setEntry_other (table other : α) (i j : ι) (word : δ)
    (different : ¬ (other = table ∧ j = i)) :
    setEntry mem table i word other j = mem other j := by
  by_cases same : other = table
  · subst same
    have index : j ≠ i := fun equal => different ⟨rfl, equal⟩
    simp [setEntry, index]
  · simp [setEntry, same]

/-- Writing a leaf moves no table. -/
theorem tableAt_setLeaf (distinct : Distinct decode inRange depth mem root)
    (path : List ι) (table : α) (i : ι) (word : δ)
    (deep : path.length = depth) (valid : Valid inRange depth path)
    (found : tableAt decode mem root path = some table)
    (other : List ι) (validOther : Valid inRange depth other) :
    tableAt decode (setEntry mem table i word) root other = tableAt decode mem root other := by
  apply tableAt_congr (setEntry mem table i word) other validOther
  intro t j prior validNext priorFound
  have shorter : prior ≠ path := by
    intro same
    have bound := validNext.1
    rw [List.length_cons, same, deep] at bound
    exact Nat.not_succ_le_self depth bound
  have different : t ≠ table := by
    intro same
    exact shorter (distinct prior path table validNext.tail valid (same ▸ priorFound) found)
  rw [setEntry_other table t i j word (fun both => different both.1)]

theorem entry_setLeaf (blank : δ) (distinct : Distinct decode inRange depth mem root)
    (path : List ι) (table : α) (i : ι) (word : δ)
    (deep : path.length = depth) (valid : Valid inRange depth path)
    (found : tableAt decode mem root path = some table)
    (j : ι) (other : List ι) (validOther : Valid inRange depth other) :
    entry decode blank (setEntry mem table i word) root j other =
      if j = i ∧ other = path then word else entry decode blank mem root j other := by
  unfold entry
  rw [tableAt_setLeaf distinct path table i word deep valid found other validOther]
  by_cases same : j = i ∧ other = path
  · obtain ⟨rfl, rfl⟩ := same
    simp [found, setEntry_same]
  · rw [if_neg same]
    cases here : tableAt decode mem root other with
    | none => rfl
    | some t =>
        have different : ¬ (t = table ∧ j = i) := by
          rintro ⟨rfl, rfl⟩
          exact same ⟨rfl, distinct other path t validOther valid here found⟩
        simp [setEntry_other table t i j word different]

/-- Clearing a fresh frame and linking it below `path` adds exactly one table. -/
theorem tableAt_link (distinct : Distinct decode inRange depth mem root)
    (path : List ι) (table child : α) (i : ι) (word : δ) (cleared : ι → δ)
    (valid : Valid inRange depth (i :: path)) (found : tableAt decode mem root path = some table)
    (empty : decode (mem table i) = none) (links : decode word = some child)
    (fresh : ∀ other, Valid inRange depth other → tableAt decode mem root other ≠ some child)
    (blanks : ∀ j, inRange j → decode (cleared j) = none)
    (other : List ι) (validOther : Valid inRange depth other) :
    tableAt decode (setEntry (Function.update mem child cleared) table i word) root other =
      if other = i :: path then some child else tableAt decode mem root other := by
  have apart : table ≠ child := fun same => fresh path valid.tail (same ▸ found)
  have readBack : ∀ t j, t ≠ child → ¬ (t = table ∧ j = i) →
      setEntry (Function.update mem child cleared) table i word t j = mem t j := by
    intro t j notChild different
    rw [setEntry_other table t i j word different, Function.update_of_ne notChild]
  induction other with
  | nil => simp [tableAt]
  | cons j rest ih =>
      have step := ih validOther.tail
      rw [tableAt, step]
      -- under the new table all is clear, and any other path reads as it did
      by_cases below : rest = i :: path
      · subst below
        have absent : tableAt decode mem root (i :: path) = none := by
          simp [tableAt, found, empty]
        have longer : j :: i :: path ≠ i :: path := by
          intro same
          have lengths := congrArg List.length same
          simp at lengths
        have silent : setEntry (Function.update mem child cleared) table i word child j = cleared j := by
          rw [setEntry_other table child i j word (fun both => apart both.1.symm),
            Function.update_self]
        rw [if_pos rfl, if_neg longer, tableAt, absent]
        simp [silent, blanks j (validOther.2 j List.mem_cons_self)]
      · rw [if_neg below, tableAt]
        cases here : tableAt decode mem root rest with
        | none =>
            have elsewhere : j :: rest ≠ i :: path := by
              rintro same
              obtain ⟨rfl, rfl⟩ := List.cons.inj same
              rw [found] at here
              contradiction
            rw [if_neg elsewhere]
            rfl
        | some t =>
            have notChild : t ≠ child := fun same => fresh rest validOther.tail (same ▸ here)
            by_cases target : j :: rest = i :: path
            · obtain ⟨rfl, rfl⟩ := List.cons.inj target
              have same : t = table := by rw [found] at here; exact (Option.some.inj here).symm
              subst same
              simp [setEntry_same, links]
            · have different : ¬ (t = table ∧ j = i) := by
                rintro ⟨rfl, rfl⟩
                exact target (by rw [distinct rest path t validOther.tail valid.tail here found])
              rw [if_neg target]
              simp [readBack t j notChild different]

theorem entry_link (blank : δ) (distinct : Distinct decode inRange depth mem root)
    (path : List ι) (table child : α) (i : ι) (word : δ) (cleared : ι → δ)
    (valid : Valid inRange depth (i :: path)) (found : tableAt decode mem root path = some table)
    (empty : decode (mem table i) = none) (links : decode word = some child)
    (fresh : ∀ other, Valid inRange depth other → tableAt decode mem root other ≠ some child)
    (zeros : ∀ j, inRange j → cleared j = blank) (silent : decode blank = none)
    (j : ι) (inside : inRange j) (other : List ι) (validOther : Valid inRange depth other) :
    entry decode blank (setEntry (Function.update mem child cleared) table i word) root j other =
      if j = i ∧ other = path then word else entry decode blank mem root j other := by
  have blanks : ∀ k, inRange k → decode (cleared k) = none := fun k range => by
    rw [zeros k range]; exact silent
  have apart : table ≠ child := fun same => fresh path valid.tail (same ▸ found)
  unfold entry
  rw [tableAt_link distinct path table child i word cleared valid found empty links fresh blanks
    other validOther]
  by_cases below : other = i :: path
  · subst below
    have absent : tableAt decode mem root (i :: path) = none := by
      simp [tableAt, found, empty]
    have longer : ¬ (j = i ∧ i :: path = path) := by
      rintro ⟨_, same⟩
      have lengths := congrArg List.length same
      simp at lengths
    rw [if_pos rfl, if_neg longer, absent]
    simp [setEntry_other table child i j word (fun both => apart both.1.symm), zeros j inside]
  · rw [if_neg below]
    cases here : tableAt decode mem root other with
    | none =>
        have elsewhere : ¬ (j = i ∧ other = path) := by
          rintro ⟨_, rfl⟩
          rw [found] at here
          contradiction
        rw [if_neg elsewhere]
        rfl
    | some t =>
        have notChild : t ≠ child := fun same => fresh other validOther (same ▸ here)
        by_cases target : j = i ∧ other = path
        · obtain ⟨rfl, rfl⟩ := target
          have same : t = table := by rw [found] at here; exact (Option.some.inj here).symm
          subst same
          simp [setEntry_same]
        · have different : ¬ (t = table ∧ j = i) := by
            rintro ⟨rfl, rfl⟩
            exact target ⟨rfl, distinct other path t validOther valid.tail here found⟩
          rw [if_neg target]
          simp [setEntry_other table t i j word different, Function.update_of_ne notChild]

theorem distinct_setLeaf (distinct : Distinct decode inRange depth mem root)
    (path : List ι) (table : α) (i : ι) (word : δ)
    (deep : path.length = depth) (valid : Valid inRange depth path)
    (found : tableAt decode mem root path = some table) :
    Distinct decode inRange depth (setEntry mem table i word) root := by
  intro left right t validLeft validRight atLeft atRight
  have keep := tableAt_setLeaf distinct path table i word deep valid found
  rw [keep left validLeft] at atLeft
  rw [keep right validRight] at atRight
  exact distinct left right t validLeft validRight atLeft atRight

theorem distinct_link (distinct : Distinct decode inRange depth mem root)
    (path : List ι) (table child : α) (i : ι) (word : δ) (cleared : ι → δ)
    (valid : Valid inRange depth (i :: path)) (found : tableAt decode mem root path = some table)
    (empty : decode (mem table i) = none) (links : decode word = some child)
    (fresh : ∀ other, Valid inRange depth other → tableAt decode mem root other ≠ some child)
    (blanks : ∀ j, inRange j → decode (cleared j) = none) :
    Distinct decode inRange depth
      (setEntry (Function.update mem child cleared) table i word) root := by
  intro left right t validLeft validRight atLeft atRight
  have keep := tableAt_link distinct path table child i word cleared valid found empty links fresh
    blanks
  rw [keep left validLeft] at atLeft
  rw [keep right validRight] at atRight
  by_cases newLeft : left = i :: path
  · by_cases newRight : right = i :: path
    · rw [newLeft, newRight]
    · rw [if_pos newLeft] at atLeft
      rw [if_neg newRight, ← atLeft] at atRight
      exact absurd atRight (fresh right validRight)
  · rw [if_neg newLeft] at atLeft
    by_cases newRight : right = i :: path
    · rw [if_pos newRight] at atRight
      rw [← atRight] at atLeft
      exact absurd atLeft (fresh left validLeft)
    · rw [if_neg newRight] at atRight
      exact distinct left right t validLeft validRight atLeft atRight

end TableTree
