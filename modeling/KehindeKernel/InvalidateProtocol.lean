import KehindeKernel.FrameOwnership

/-!
The order of stores, barriers and TLB invalidations in `map` and `unmap`. The
header of `mmu.cpp` documents `dsb ishst`, then a `tlbi` for each page, then
`dsb ish` and `isb`, so that the walker sees the stores before it is told to
forget. Both functions emit the first barrier before their stores, and no
barrier comes between the stores and the invalidations.
-/

namespace KehindeKernel

/-- What a call added to the log. -/
def Machine.since (m m' : Machine) : List Event := m'.log.drop m.log.length

/-- Every L3 store is followed by a barrier, by the invalidation of its page, by
a `dsb ish` and by an `isb`, in this order. -/
def Invalidates (trace : List Event) : Prop :=
  ∀ before page word after, trace = before ++ .leafStore page word :: after →
    ∃ barrier, (barrier = .dsbIshst ∨ barrier = .dsbIsh) ∧
      [barrier, .tlbi page, .dsbIsh, .isb].Sublist after

def StoresLeaf (trace : List Event) : Prop := ∃ page word, .leafStore page word ∈ trace

/-- The order in which the code emits events behind its opening barrier. -/
def Event.phase : Event → Nat
  | .tableStore _ _ _ => 0
  | .leafStore _ _ => 0
  | .tlbi _ => 1
  | .dsbIshst => 2
  | .dsbIsh => 2
  | .isb => 3

/-- With the barriers behind all invalidations, no L3 store is published. -/
theorem invalidates_sorted (rest : List Event)
    (sorted : rest.Pairwise fun a b => a.phase ≤ b.phase) :
    Invalidates (.dsbIshst :: rest) ↔ ¬ StoresLeaf rest := by
  constructor
  · rintro published ⟨page, word, member⟩
    obtain ⟨before, after, split⟩ := List.append_of_mem member
    obtain ⟨barrier, kind, sequence⟩ := published (.dsbIshst :: before) page word after
      (by rw [split]; rfl)
    -- the barrier would have to stand before the invalidation
    have pair : [barrier, .tlbi page].Sublist [barrier, .tlbi page, .dsbIsh, .isb] :=
      List.sublist_append_left [barrier, .tlbi page] [.dsbIsh, .isb]
    have tail : after.Sublist rest := by
      rw [split]
      exact (List.sublist_cons_self _ after).trans (List.sublist_append_right before _)
    have order := List.pairwise_iff_forall_sublist.mp sorted ((pair.trans sequence).trans tail)
    rcases kind with rfl | rfl
    · exact absurd order (show ¬ 2 ≤ 1 by decide)
    · exact absurd order (show ¬ 2 ≤ 1 by decide)
  · intro none before page word after split
    cases before with
    | nil => simp at split
    | cons first before =>
        have tail : rest = before ++ .leafStore page word :: after := (List.cons.inj split).2
        exact absurd ⟨page, word, by rw [tail]; simp⟩ none

/-- `m'` logged nothing but stores, with an L3 store among them iff `leaf`. -/
def LogsStores (m m' : Machine) (leaf : Prop) : Prop :=
  ∃ stores, m'.log = m.log ++ stores ∧ (∀ event ∈ stores, event.phase = 0) ∧
    (StoresLeaf stores ↔ leaf)

theorem LogsStores.same {m m' : Machine} (log : m'.log = m.log) : LogsStores m m' False := by
  refine ⟨[], by rw [log, List.append_nil], by simp, ?_⟩
  simp [StoresLeaf]

theorem LogsStores.trans {a b c : Machine} {first second : Prop} (left : LogsStores a b first)
    (right : LogsStores b c second) : LogsStores a c (first ∨ second) := by
  obtain ⟨early, log, plain, has⟩ := left
  obtain ⟨late, log', plain', has'⟩ := right
  refine ⟨early ++ late, by rw [log', log, List.append_assoc], ?_, ?_⟩
  · intro event member
    rcases List.mem_append.mp member with old | new
    · exact plain event old
    · exact plain' event new
  · rw [← has, ← has']
    constructor
    · rintro ⟨page, word, member⟩
      rcases List.mem_append.mp member with old | new
      · exact Or.inl ⟨page, word, old⟩
      · exact Or.inr ⟨page, word, new⟩
    · rintro (⟨page, word, old⟩ | ⟨page, word, new⟩)
      · exact ⟨page, word, List.mem_append_left _ old⟩
      · exact ⟨page, word, List.mem_append_right _ new⟩

theorem LogsStores.congr {a b : Machine} {first second : Prop} (logs : LogsStores a b first)
    (same : first ↔ second) : LogsStores a b second := by
  rwa [propext same] at logs

theorem logs_tableStore (m : Machine) (table index word : Nat) :
    LogsStores m (m.emit (.tableStore table index word)) False :=
  ⟨[.tableStore table index word], rfl, by simp [Event.phase], by simp [StoresLeaf]⟩

theorem logs_leafStore (m : Machine) (page word : Nat) :
    LogsStores m (m.emit (.leafStore page word)) True :=
  ⟨[.leafStore page word], rfl, by simp [Event.phase], by simp [StoresLeaf]⟩

theorem getOrAllocTable_logs (m : Machine) (table index : Nat) :
    LogsStores m (getOrAllocTable m table index).2 False := by
  simp only [getOrAllocTable]
  split
  · exact LogsStores.same rfl
  · split
    · exact LogsStores.same rfl
    · exact logs_tableStore { m with pmm := _, mem := _ } table index _

theorem mapPage_logs (m : Machine) (va phys flags : Nat) :
    LogsStores m (mapPage m va phys flags).1 ((mapPage m va phys flags).2 = true) := by
  have first := getOrAllocTable_logs m m.l1Table (l1Index va)
  have second := getOrAllocTable_logs (getOrAllocTable m m.l1Table (l1Index va)).2
    (getOrAllocTable m m.l1Table (l1Index va)).1 (l2Index va)
  simp only [mapPage]
  split
  · exact first.congr (by simp)
  · split
    · exact (first.trans second).congr (by simp)
    · exact ((first.trans second).trans (logs_leafStore _ _ _)).congr (by simp)

/-- The walk to the page of `va` finds or builds both of its tables. -/
def FindsTables (m : Machine) (va : Nat) : Prop :=
  let l2 := getOrAllocTable m m.l1Table (l1Index va)
  l2.1 ≠ 0 ∧ (getOrAllocTable l2.2 l2.1 (l2Index va)).1 ≠ 0

theorem mapPage_finds (m : Machine) (va phys flags : Nat) :
    (mapPage m va phys flags).2 = true ↔ FindsTables m va := by
  simp only [mapPage, FindsTables]
  split
  · simp [*]
  · split
    · simp [*]
    · simp [*]

/-- The lookups of a walk do not read the log. -/
theorem getOrAllocTable_relog (m : Machine) (log : List Event) (table index : Nat) :
    ∃ log', getOrAllocTable { m with log := log } table index =
      ((getOrAllocTable m table index).1, { (getOrAllocTable m table index).2 with log := log' }) := by
  simp only [getOrAllocTable]
  split
  · exact ⟨log, rfl⟩
  · split
    · exact ⟨log, rfl⟩
    · exact ⟨_, rfl⟩

theorem findsTables_emit (m : Machine) (event : Event) (va : Nat) :
    FindsTables (m.emit event) va ↔ FindsTables m va := by
  obtain ⟨log, upper⟩ := getOrAllocTable_relog m (m.log ++ [event]) m.l1Table (l1Index va)
  obtain ⟨_, lower⟩ := getOrAllocTable_relog (getOrAllocTable m m.l1Table (l1Index va)).2 log
    (getOrAllocTable m m.l1Table (l1Index va)).1 (l2Index va)
  simp only [FindsTables, Machine.emit, upper, lower]

/-- On sound tables the walk finds them iff a frame is free for each missing one. -/
theorem findsTables_iff (m : Machine) (wf : WellFormed m) (va : Nat) :
    FindsTables m va ↔ (m.missingTables {va}).card ≤ m.pmm.freeFrames.card := by
  rw [← mapPage_finds m va 0 0, missing_singleton]
  rcases mapPage_spec m wf va 0 0 with ⟨tables, m1, done, added, _⟩ | ⟨m1, done, starved⟩
  · have paid := added.paid
    rw [done]
    exact iff_of_true rfl (by omega)
  · rw [done]
    exact iff_of_false Bool.false_ne_true (Nat.not_le.mpr starved.short)

theorem mapPages_logs (va phys flags trips i : Nat) (m : Machine) :
    LogsStores m (mapPages va phys flags trips i m).1 (0 < trips ∧ FindsTables m (pageOf va i)) := by
  induction trips generalizing i m with
  | zero => exact (LogsStores.same rfl).congr (by simp)
  | succ trips ih =>
      have here := mapPage_logs m (pageOf va i) ((phys + i * pageSize) % 2 ^ 64) flags
      have finds := mapPage_finds m (pageOf va i) ((phys + i * pageSize) % 2 ^ 64) flags
      have step : mapPages va phys flags (trips + 1) i m =
          if (mapPage m (pageOf va i) ((phys + i * pageSize) % 2 ^ 64) flags).2
          then mapPages va phys flags trips (i + 1)
            (mapPage m (pageOf va i) ((phys + i * pageSize) % 2 ^ 64) flags).1
          else mapPage m (pageOf va i) ((phys + i * pageSize) % 2 ^ 64) flags := rfl
      rw [step, ← finds]
      generalize mapPage m (pageOf va i) ((phys + i * pageSize) % 2 ^ 64) flags = page at here
      by_cases found : page.2 = true
      · rw [if_pos found]
        exact (here.trans (ih (i + 1) page.1)).congr (by simp [found])
      · rw [if_neg found]
        exact here.congr (by simp [found])

theorem logs_clearPage (m : Machine) (l3Table va : Nat) :
    LogsStores m (clearPage m l3Table va) True :=
  logs_leafStore (m.store l3Table (l3Index va) 0) (va >>> 12) 0

theorem LogsStores.release {m m' : Machine} {leaf : Prop} (logs : LogsStores m m' leaf)
    (table : Nat) : LogsStores m (m'.release table) leaf := by
  obtain ⟨stores, log, plain⟩ := logs
  exact ⟨stores, log, plain⟩

theorem logs_reclaimL3 (m : Machine) (l3Table va : Nat) :
    ∃ leaf, LogsStores m (reclaimL3 m l3Table va) leaf := by
  rw [reclaimL3]
  split
  · exact ⟨True, (logs_clearPage m l3Table va).release l3Table⟩
  · exact ⟨False, LogsStores.same rfl⟩

theorem logs_reclaimL2 (m : Machine) (l2Table va : Nat) :
    LogsStores m (reclaimL2 m l2Table va) False := by
  rw [reclaimL2]
  split
  · exact (show LogsStores m _ False from
      logs_tableStore (m.store l2Table (l2Index va) 0) l2Table (l2Index va) 0).release l2Table
  · exact LogsStores.same rfl

/-- A trip of `unmap` stores an L3 descriptor iff its walk succeeds. -/
theorem unmapPage_logs (m : Machine) (va : Nat) :
    LogsStores m (unmapPage m va).1 (m.tableAt (l3Path va) ≠ none) ∧
      ((unmapPage m va).2 = true ↔ m.tableAt (l3Path va) ≠ none) := by
  by_cases absent : m.tableAt (l3Path va) = none
  · rw [unmapPage_absent m va absent]
    exact ⟨(LogsStores.same rfl).congr (by simp [absent]), by simp [absent]⟩
  · obtain ⟨l2, l3, _, _, done⟩ := unmapPage_present m va absent
    obtain ⟨_, freed⟩ := logs_reclaimL3 (clearPage m l3 va) l3 va
    have all := ((logs_clearPage m l3 va).trans freed).trans
      (logs_reclaimL2 (reclaimL3 (clearPage m l3 va) l3 va) l2 va)
    rw [done]
    dsimp only
    exact ⟨all.congr (by simp [absent]), by simp [absent]⟩

theorem unmapPages_logs (va trips i : Nat) (m : Machine) :
    LogsStores m (unmapPages va trips i m).1 (0 < trips ∧ m.tableAt (l3Path (pageOf va i)) ≠ none) := by
  induction trips generalizing i m with
  | zero => exact (LogsStores.same rfl).congr (by simp)
  | succ trips ih =>
      obtain ⟨here, walks⟩ := unmapPage_logs m (pageOf va i)
      rw [unmapPages_succ, ← walks]
      rw [← walks] at here
      generalize unmapPage m (pageOf va i) = page at here
      by_cases found : page.2 = true
      · rw [if_pos found]
        exact (here.trans (ih (i + 1) page.1)).congr (by simp [found])
      · rw [if_neg found]
        exact here.congr (by simp [found])

theorem invalidatePages_log (va trips i : Nat) (m : Machine) :
    ∃ flushes, (invalidatePages va trips i m).log = m.log ++ flushes ∧
      ∀ event ∈ flushes, event.phase = 1 := by
  induction trips generalizing i m with
  | zero => exact ⟨[], by simp [invalidatePages], by simp⟩
  | succ trips ih =>
      obtain ⟨flushes, log, plain⟩ := ih (i + 1) (m.emit (.tlbi ((va + i * pageSize) % 2 ^ 64 >>> 12)))
      refine ⟨.tlbi ((va + i * pageSize) % 2 ^ 64 >>> 12) :: flushes, ?_, ?_⟩
      · rw [invalidatePages, log]
        simp [Machine.emit]
      · intro event member
        rcases List.mem_cons.mp member with rfl | later
        · rfl
        · exact plain event later

/-- Events of one phase each, phase by phase, are sorted. -/
theorem phases_sorted (early late : List Event) (bound : Nat)
    (low : ∀ event ∈ early, event.phase = bound) (high : ∀ event ∈ late, bound ≤ event.phase)
    (sorted : late.Pairwise fun a b => a.phase ≤ b.phase) :
    (early ++ late).Pairwise fun a b => a.phase ≤ b.phase := by
  apply List.pairwise_append.mpr
  refine ⟨List.pairwise_of_forall_mem_list ?_, sorted, ?_⟩
  · intro a first b second
    exact (low a first).trans_le (low b second).ge
  · intro a first b second
    exact (low a first).trans_le (high b second)

/-- The protocol over a whole call: stores, and the closing part unless the loop
gave up. -/
theorem call_invalidates (m edited : Machine) (completed : Bool) (va trips : Nat) (leaf : Prop)
    (logs : LogsStores (m.emit .dsbIshst) edited leaf) :
    Invalidates (m.since (if completed then
      ((invalidatePages va trips 0 edited).emit .dsbIsh).emit .isb else edited)) ↔ ¬ leaf := by
  obtain ⟨stores, log, plain, has⟩ := logs
  have opened : edited.log = m.log ++ (.dsbIshst :: stores) := by
    rw [log]
    simp [Machine.emit]
  rw [← has]
  cases completed with
  | false =>
      have trace : m.since edited = .dsbIshst :: stores := by
        rw [Machine.since, opened, List.drop_left]
      have sorted := phases_sorted stores [] 0 plain (by simp) List.Pairwise.nil
      rw [List.append_nil] at sorted
      rw [if_neg Bool.false_ne_true, trace]
      exact invalidates_sorted stores sorted
  | true =>
      obtain ⟨flushes, flushed, invalidations⟩ := invalidatePages_log va trips 0 edited
      have trace : m.since (((invalidatePages va trips 0 edited).emit .dsbIsh).emit .isb) =
          .dsbIshst :: (stores ++ (flushes ++ [.dsbIsh, .isb])) := by
        rw [Machine.since]
        simp [Machine.emit, flushed, opened]
      have closing := phases_sorted flushes [.dsbIsh, .isb] 1 invalidations
        (by simp [Event.phase]) (by simp [Event.phase])
      have sorted := phases_sorted stores (flushes ++ [.dsbIsh, .isb]) 0 plain
        (fun _ _ => Nat.zero_le _) closing
      rw [if_pos rfl, trace, invalidates_sorted _ sorted]
      -- the closing part has no store
      have same : StoresLeaf (stores ++ (flushes ++ [.dsbIsh, .isb])) ↔ StoresLeaf stores := by
        constructor
        · rintro ⟨page, word, member⟩
          refine ⟨page, word, ?_⟩
          rcases List.mem_append.mp member with stored | rest
          · exact stored
          · rcases List.mem_append.mp rest with flush | last
            · exact absurd (invalidations _ flush) (show ¬ 0 = 1 by decide)
            · simp at last
        · rintro ⟨page, word, member⟩
          exact ⟨page, word, List.mem_append_left _ member⟩
      rw [same]

theorem intTrips_pos (n : Nat) : 0 < intTrips n ↔ 0 < n := by
  unfold intTrips
  omega

theorem map_invalidates (m : Machine) (va phys size flags : Nat) :
    Invalidates (m.since (map m va phys size flags)) ↔
      ¬ (0 < size / pageSize ∧ FindsTables m (pageOf va 0)) := by
  have logs := mapPages_logs va phys flags (intTrips (size / pageSize)) 0 (m.emit .dsbIshst)
  rw [intTrips_pos, findsTables_emit] at logs
  exact call_invalidates m _ _ va _ _ logs

theorem unmap_invalidates (m : Machine) (va size : Nat) :
    Invalidates (m.since (unmap m va size)) ↔
      ¬ (0 < size / pageSize ∧ m.tableAt (l3Path (pageOf va 0)) ≠ none) := by
  have logs := unmapPages_logs va (intTrips (size / pageSize)) 0 (m.emit .dsbIshst)
  rw [intTrips_pos, (sameTables_emit m .dsbIshst).tableAt] at logs
  exact call_invalidates m _ _ va _ _ logs

/-- In any state and for any arguments, a call follows the documented sequence
exactly when it stores no L3 descriptor: the range has no page, or the walk to
its first page fails. -/
theorem edits_invalidated_iff (m : Machine) (va phys size flags : Nat) :
    (Invalidates (m.since (map m va phys size flags)) ↔
      ¬ (0 < size / pageSize ∧ FindsTables m (pageOf va 0))) ∧
    (Invalidates (m.since (unmap m va size)) ↔
      ¬ (0 < size / pageSize ∧ m.tableAt (l3Path (pageOf va 0)) ≠ none)) :=
  ⟨map_invalidates m va phys size flags, unmap_invalidates m va size⟩

/-- One page mapped where four frames are free: no barrier follows the store
before the invalidation. -/
theorem map_invalidates_before_barrier :
    ¬ ∀ (m : Machine) (va phys size flags : Nat) (_ : va % pageSize = 0) (_ : phys % pageSize = 0)
      (_ : size % pageSize = 0),
      Invalidates (m.since (map m va phys size flags)) ∧ Invalidates (m.since (unmap m va size)) := by
  intro claimed
  have published := (claimed (bootMachine 0x3F7FA000) 0x100000000 0x3F000000 0x1000 pteNormalRw
    (by decide) (by decide) (by decide)).1
  rw [map_invalidates, show pageOf 0x100000000 0 = 0x100000000 by decide] at published
  apply published
  refine ⟨by decide, ?_⟩
  -- four frames are free and the walk misses two tables at most
  rw [findsTables_iff _ (bootMachine_wellFormed 0x3F7FA000 (by decide) (by decide +kernel)).1,
    missing_singleton, show (bootMachine 0x3F7FA000).pmm.freeFrames.card = 4 by decide +kernel]
  exact (Finset.card_filter_le _ _).trans (Finset.card_le_two.trans (by decide))

end KehindeKernel
