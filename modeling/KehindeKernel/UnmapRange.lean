import KehindeKernel.FrameOwnership

/-!
Which translations `unmap` removes. It clears page after page and returns at the
first page whose L1 or L2 descriptor is invalid, as the header says, so mapped
pages behind such a gap stay. L3 tables that become empty are freed on the way;
the tree is followed here through a machine whose PMM does not change.
-/

namespace KehindeKernel

open TableTree

/-- `m` has the tables of `base`; its PMM and its log may differ. -/
def SameTree (base m : Machine) : Prop := m.mem = base.mem ∧ m.l1Table = base.l1Table

theorem SameTree.tableAt {base m : Machine} (same : SameTree base m) (path : List Nat) :
    m.tableAt path = base.tableAt path := by
  rw [Machine.tableAt, Machine.tableAt, same.1, same.2]

theorem SameTree.leaf {base m : Machine} (same : SameTree base m) (va : Nat) :
    m.leaf va = base.leaf va := by
  simp only [Machine.leaf, Machine.word, same.1, same.2]

theorem SameTree.clearPage {base m : Machine} (same : SameTree base m) (l3Table va : Nat) :
    SameTree (clearPage base l3Table va) (clearPage m l3Table va) := by
  obtain ⟨mem, top⟩ := same
  simp only [SameTree, KehindeKernel.clearPage, Machine.store, Machine.emit, mem, top, and_self]

/-- The second store of the same zero changes nothing. -/
theorem clearPage_again (m : Machine) (l3Table va : Nat) :
    SameTree (clearPage m l3Table va) (clearPage (clearPage m l3Table va) l3Table va) := by
  refine ⟨?_, rfl⟩
  simp only [clearPage, Machine.store, Machine.emit, Function.update_self, Function.update_idem]

theorem SameTree.trans {a b c : Machine} (first : SameTree a b) (second : SameTree b c) :
    SameTree a c :=
  ⟨second.1.trans first.1, second.2.trans first.2⟩

theorem reclaimL3_tree (m : Machine) (l3Table va : Nat) :
    SameTree (clearPage m l3Table va) (reclaimL3 (clearPage m l3Table va) l3Table va) := by
  rw [reclaimL3]
  split
  · exact clearPage_again m l3Table va
  · exact ⟨rfl, rfl⟩

/-- One trip of `unmap` whose walk succeeds clears one leaf, and whatever it
frees, the tree stays. -/
theorem unmapPage_clears (base m : Machine) (wf : WellFormed base) (same : SameTree base m) (va : Nat)
    (present : base.tableAt (l3Path va) ≠ none) :
    (unmapPage m va).2 = true ∧
      ∃ base', LeafWritten base base' va 0 ∧ SameTree base' (unmapPage m va).1 := by
  obtain ⟨l2, l3, atL2, atL3, done⟩ := unmapPage_present m va (by rw [same.tableAt]; exact present)
  rw [same.tableAt] at atL2 atL3
  have written : LeafWritten base (clearPage base l3 va) va 0 :=
    store_leaf base wf va l3 0 (.leafStore (va >>> 12) 0) atL3 (Or.inl rfl)
  have cleared := (same.clearPage l3 va).trans (reclaimL3_tree m l3 va)
  -- the L2 table still links the L3 table, so it is not empty
  have occupied := upperTable_occupied
    (fun path valid => (cleared.tableAt path).trans (written.tables path valid)) va l2 l3 atL2 atL3
  have linked : ¬ tableIsEmpty (reclaimL3 (clearPage m l3 va) l3 va) l2 = true := by
    rw [occupied]
    exact Bool.false_ne_true
  rw [done, reclaimL2, if_neg linked]
  dsimp only
  exact ⟨rfl, clearPage base l3 va, written, cleared⟩

/-- The pages in front of the first one whose table is missing. -/
structure Reached (m : Machine) (va i trips n : Nat) : Prop where
  within : n ≤ trips
  present : ∀ j, i ≤ j → j < i + n → m.tableAt (l3Path (pageOf va j)) ≠ none
  stopped : n < trips → m.tableAt (l3Path (pageOf va (i + n))) = none

/-- The loop clears the pages it reaches and no others. -/
theorem unmapPages_clears (va trips i : Nat) (base m : Machine) (wf : WellFormed base)
    (same : SameTree base m) :
    ∃ n, Reached base va i trips n ∧
      (∀ u j, i ≤ j → j < i + n → SamePage u (pageOf va j) → (unmapPages va trips i m).1.leaf u = 0) ∧
      ∀ u, (∀ j, i ≤ j → j < i + n → ¬ SamePage u (pageOf va j)) →
        (unmapPages va trips i m).1.leaf u = base.leaf u := by
  induction trips generalizing i base m with
  | zero =>
      refine ⟨0, ⟨Nat.le_refl 0, fun j _ _ => by omega, fun below => by omega⟩, fun u j _ _ => by omega, ?_⟩
      exact fun u _ => same.leaf u
  | succ trips ih =>
      rw [unmapPages_succ]
      -- a missing table ends the loop, else the page is cleared and it goes on
      by_cases absent : base.tableAt (l3Path (pageOf va i)) = none
      · have stop := unmapPage_absent m (pageOf va i) (by rw [same.tableAt]; exact absent)
        rw [stop, if_neg Bool.false_ne_true]
        refine ⟨0, ⟨Nat.zero_le _, fun j _ _ => by omega, fun _ => absent⟩, fun u j _ _ => by omega, ?_⟩
        exact fun u _ => same.leaf u
      · obtain ⟨going, base', written, tree⟩ := unmapPage_clears base m wf same (pageOf va i) absent
        obtain ⟨n, reached, inside, outside⟩ := ih (i + 1) base' _ written.wellFormed tree
        rw [if_pos going]
        refine ⟨n + 1, ⟨Nat.succ_le_succ reached.within, ?_, ?_⟩, ?_, ?_⟩
        · intro j low high
          by_cases first : j = i
          · rw [first]; exact absent
          · have later := reached.present j (by omega) (by omega)
            rwa [written.tables _ (l3Path_valid _)] at later
        · intro below
          have gap := reached.stopped (by omega)
          rwa [written.tables _ (l3Path_valid _), show i + 1 + n = i + (n + 1) by omega] at gap
        · intro u j low high page
          by_cases later : ∃ k, i + 1 ≤ k ∧ k < i + 1 + n ∧ SamePage u (pageOf va k)
          · obtain ⟨k, lowK, highK, pageK⟩ := later
            exact inside u k lowK highK pageK
          · -- the page itself, and no later trip writes it again
            have first : j = i := by
              by_contra other
              exact later ⟨j, by omega, by omega, page⟩
            subst first
            rw [outside u (fun k lowK highK pageK => later ⟨k, lowK, highK, pageK⟩), written.leaves u,
              if_pos (by exact page)]
        · intro u apart
          have here : ¬ SamePage u (pageOf va i) := apart i (Nat.le_refl i) (by omega)
          rw [outside u (fun j low high => apart j (by omega) (by omega)), written.leaves u,
            if_neg (by exact here)]

theorem pageOf_low (va size j : Nat) (ends : va + size ≤ 2 ^ 39) (below : j < size / pageSize) :
    pageOf va j = va + j * pageSize ∧ va + j * pageSize < 2 ^ 39 := by
  simp only [pageOf, pageSize] at *
  omega

theorem samePage_index (v va size j : Nat) (low : v < 2 ^ 39) (page : va % pageSize = 0)
    (ends : va + size ≤ 2 ^ 39) (below : j < size / pageSize) :
    SamePage v (pageOf va j) ↔ v / pageSize = va / pageSize + j := by
  obtain ⟨here, inside⟩ := pageOf_low va size j ends below
  rw [here]
  refine (same_walk v (va + j * pageSize) low inside).trans ?_
  simp only [pageSize] at *
  omega

theorem translate_cleared (m : Machine) (v : Nat) (cleared : m.leaf v = 0) :
    translate m v = 2 ^ 64 - 1 := by
  rw [translate_leaf, cleared]
  rfl

/-- `unmap` removes exactly the pages of its range in front of the first one
whose L1 or L2 descriptor is invalid. -/
theorem unmap_clears_up_to_gap (m : Machine) (wf : WellFormed m) (va size : Nat)
    (page : va % pageSize = 0) (ends : va + size ≤ 2 ^ 39) :
    ∃ n, n ≤ size / pageSize ∧
      (∀ j, j < n → m.tableAt (l3Path (va + j * pageSize)) ≠ none) ∧
      (n < size / pageSize → m.tableAt (l3Path (va + n * pageSize)) = none) ∧
      ∀ v, v < 2 ^ 39 → translate (unmap m va size) v =
        if va ≤ v ∧ v < va + n * pageSize then 2 ^ 64 - 1 else translate m v := by
  have trips : intTrips (size / pageSize) = size / pageSize := by
    apply intTrips_small; simp only [pageSize]; omega
  have edits := unmap_edits m va size
  rw [trips] at edits
  obtain ⟨n, reached, inside, outside⟩ := unmapPages_clears va (size / pageSize) 0 m
    (m.emit .dsbIshst) wf ⟨rfl, rfl⟩
  have within := reached.within
  refine ⟨n, within, ?_, ?_, ?_⟩
  · intro j below
    rw [← (pageOf_low va size j ends (by omega)).1]
    exact reached.present j (Nat.zero_le j) (by omega)
  · intro below
    have gap := reached.stopped below
    rwa [Nat.zero_add, (pageOf_low va size n ends below).1] at gap
  · intro v low
    by_cases hit : va ≤ v ∧ v < va + n * pageSize
    · -- the page of `v` is one of the first `n`
      obtain ⟨j, below, here⟩ : ∃ j, j < n ∧ v / pageSize = va / pageSize + j := by
        refine ⟨(v - va) / pageSize, ?_, ?_⟩
        · simp only [pageSize] at *; omega
        · simp only [pageSize] at *; omega
      have same := (samePage_index v va size j low page ends (by omega)).mpr here
      have cleared := inside v j (Nat.zero_le j) (by omega) same
      rw [if_pos hit, translate_cleared _ v ((edits.leaf v).trans cleared)]
    · have apart : ∀ j, 0 ≤ j → j < 0 + n → ¬ SamePage v (pageOf va j) := by
        intro j _ below same
        have here := (samePage_index v va size j low page ends (by omega)).mp same
        simp only [pageSize] at *
        omega
      rw [if_neg hit, translate_congr v ((edits.leaf v).trans (outside v apart))]

/-- A page mapped two megabytes into the range, nothing in front of it. -/
def gapMachine : Machine := map (bootMachine 0x3F7FA000) 0x100200000 0x3F000000 0x1000 pteNormalRw

theorem gapMachine_wellFormed : WellFormed gapMachine :=
  (map_grown _ (bootMachine_wellFormed 0x3F7FA000 (by decide) (by decide +kernel)).1 0x100200000
    0x3F000000 0x1000 pteNormalRw).1

theorem unmap_clears_up_to_gap_mapped_page :
    ∃ n, n ≤ 0x1000 / pageSize ∧
      (∀ j, j < n → gapMachine.tableAt (l3Path (0x100200000 + j * pageSize)) ≠ none) ∧
      (n < 0x1000 / pageSize → gapMachine.tableAt (l3Path (0x100200000 + n * pageSize)) = none) ∧
      ∀ v, v < 2 ^ 39 → translate (unmap gapMachine 0x100200000 0x1000) v =
        if 0x100200000 ≤ v ∧ v < 0x100200000 + n * pageSize then 2 ^ 64 - 1 else translate gapMachine v :=
  unmap_clears_up_to_gap gapMachine gapMachine_wellFormed 0x100200000 0x1000 (by decide) (by decide)

/-- The range starts in a part without an L3 table, and the page stays mapped. -/
theorem unmap_stops_at_gap :
    ¬ ∀ (m : Machine) (_ : WellFormed m) (va size : Nat) (_ : va % pageSize = 0)
      (_ : size % pageSize = 0) (_ : va + size ≤ 2 ^ 39),
      (∀ v, va ≤ v → v < va + size → translate (unmap m va size) v = 2 ^ 64 - 1) ∧
      ∀ v, v < 2 ^ 39 → ¬ (va ≤ v ∧ v < va + size) → translate (unmap m va size) v = translate m v := by
  intro claimed
  have removed := (claimed gapMachine gapMachine_wellFormed 0x100000000 0x201000 (by decide) (by decide)
    (by decide)).1 0x100200000 (by decide) (by decide)
  rw [show translate (unmap gapMachine 0x100000000 0x201000) 0x100200000 = 0x3F000000 by
    decide +kernel] at removed
  exact absurd removed (by decide)

end KehindeKernel
