import KehindeKernel.MapRefinement
import KehindeKernel.Lib.Replay

/-!
Who owns a page-table frame, over runs of `map`, `unmap`, `alloc_frame` and
`free_frame`. `held` is what clients were handed and have not given back. An
`unmap` that empties an L3 table frees its frame while the L2 descriptor still
links it; runs in which no `unmap` empties a table keep every frame owned.
-/

namespace KehindeKernel

open TableTree

inductive MemOp where
  | map (va phys size flags : Nat)
  | unmap (va size : Nat)
  | allocFrame
  | freeFrame (addr : Nat)

/-- A machine and the frames its clients hold. -/
abbrev Custody := Machine × Finset Nat

def memStep (s : Custody) : MemOp → Unit × Custody
  | .map va phys size flags => ((), map s.1 va phys size flags, s.2)
  | .unmap va size => ((), unmap s.1 va size, s.2)
  | .allocFrame =>
      let taken := allocFrame s.1.pmm
      ((), { s.1 with pmm := taken.2 }, if taken.1 = 0 then s.2 else insert taken.1 s.2)
  | .freeFrame addr => ((), { s.1 with pmm := freeFrame s.1.pmm addr }, s.2.erase addr)

/-- The descriptor at `index` of the reachable table `parent` links `table`. -/
def Machine.Links (m : Machine) (parent index table : Nat) : Prop :=
  ∃ path, TablePath (index :: path) ∧ m.tableAt path = some parent ∧
    decodeLink (m.mem parent index) = some table

/-- Page-table frame ownership between two calls. -/
structure FramesOwned (m : Machine) (held : Finset Nat) : Prop where
  used : ∀ parent index table, m.Links parent index table →
    ∃ k, k < m.pmm.totalFrames ∧ table = m.pmm.frame k ∧ m.pmm.used k = true
  oneParent : ∀ parent index table, m.Links parent index table →
    ∀ parent' index', m.Links parent' index' table → parent' = parent ∧ index' = index
  notHeld : ∀ parent index table, m.Links parent index table → table ∉ held
  notNext : ∀ parent index table, m.Links parent index table → (allocFrame m.pmm).1 ≠ table

/-- `u` is a page of the L3 table of `va`. -/
def SameTable (u va : Nat) : Prop := l3Path u = l3Path va

def SamePage (u va : Nat) : Prop := l3Index u = l3Index va ∧ SameTable u va

/-- Page `i` of a range that starts at `va`, as `unmap` computes it. -/
def pageOf (va i : Nat) : Nat := (va + i * pageSize) % 2 ^ 64

/-- No trip of `unmap` from `i` on empties an L3 table: at each page the loop
gets to, some page of that table stays mapped and was not in the range so far. -/
def KeepsTables (m : Machine) (va i trips : Nat) : Prop :=
  ∀ n, i ≤ n → n < i + trips → (∀ j, i ≤ j → j ≤ n → m.tableAt (l3Path (pageOf va j)) ≠ none) →
    ∃ u, SameTable u (pageOf va n) ∧ m.leaf u ≠ 0 ∧ ∀ j, i ≤ j → j ≤ n → ¬ SamePage u (pageOf va j)

/-- Clients free only what they hold, and no `unmap` empties a table. -/
def Permitted (s : Custody) : MemOp → Prop
  | .map _ _ _ _ => True
  | .unmap va size => KeepsTables s.1 va 0 (intTrips (size / pageSize))
  | .allocFrame => True
  | .freeFrame addr => addr ∈ s.2

def PermittedRun : Custody → List MemOp → Prop
  | _, [] => True
  | s, op :: rest => Permitted s op ∧ PermittedRun (memStep s op).2 rest

/-- The invariant of a run: `WellFormed`, and held frames are used but no table. -/
structure Owned (s : Custody) : Prop where
  wellFormed : WellFormed s.1
  marked : ∀ a ∈ s.2, ∃ k, k < s.1.pmm.totalFrames ∧ a = s.1.pmm.frame k ∧ s.1.pmm.used k = true
  noTable : ∀ path table, TablePath path → s.1.tableAt path = some table → table ∉ s.2

theorem links_tableAt (m : Machine) (parent index table : Nat) (link : m.Links parent index table) :
    ∃ path, TablePath (index :: path) ∧ m.tableAt path = some parent ∧
      m.tableAt (index :: path) = some table := by
  obtain ⟨path, valid, atParent, decoded⟩ := link
  refine ⟨path, valid, atParent, ?_⟩
  rw [tableAt_child m path parent index atParent]
  exact decoded

theorem Owned.framesOwned {s : Custody} (owned : Owned s) : FramesOwned s.1 s.2 where
  used := fun parent index table link => by
    obtain ⟨path, valid, _, here⟩ := links_tableAt s.1 parent index table link
    exact owned.wellFormed.owned (index :: path) table valid here
  oneParent := fun parent index table link parent' index' link' => by
    obtain ⟨path, valid, atParent, here⟩ := links_tableAt s.1 parent index table link
    obtain ⟨path', valid', atParent', here'⟩ := links_tableAt s.1 parent' index' table link'
    have same := owned.wellFormed.distinct (index' :: path') (index :: path) table valid' valid
      here' here
    obtain ⟨rfl, rfl⟩ := List.cons.inj same
    rw [atParent, Option.some.injEq] at atParent'
    exact ⟨atParent'.symm, rfl⟩
  notHeld := fun parent index table link => by
    obtain ⟨path, valid, _, here⟩ := links_tableAt s.1 parent index table link
    exact owned.noTable (index :: path) table valid here
  notNext := fun parent index table link => by
    obtain ⟨path, valid, _, here⟩ := links_tableAt s.1 parent index table link
    obtain ⟨k, below, address, _⟩ := owned.wellFormed.owned (index :: path) table valid here
    rcases allocFrame_spec s.1.pmm owned.wellFormed.sound with ⟨j, _, unused, _, alloc⟩ | ⟨_, alloc⟩
    · rw [alloc]
      rintro rfl
      exact unused_not_table s.1 owned.wellFormed j unused (index :: path) valid here
    · rw [alloc, address]
      exact (frame_address s.1.pmm owned.wellFormed.sound k below).2.2.symm

theorem Owned.grown {m m' : Machine} {held : Finset Nat} (owned : Owned (m, held))
    (wf : WellFormed m') (grown : Grown m m') : Owned (m', held) where
  wellFormed := wf
  marked := fun a member => by
    obtain ⟨k, below, address, taken⟩ := owned.marked a member
    refine ⟨k, by rw [grown.total]; exact below, by rw [grown.frame_eq]; exact address, ?_⟩
    exact (grown.used k below).mpr (Or.inl taken)
  noTable := fun path table valid found member => by
    obtain ⟨k, _, rfl, taken⟩ := owned.marked table member
    have data : ∀ path, TablePath path → m.tableAt path ≠ some (m.pmm.frame k) :=
      fun path valid here => owned.noTable path _ valid here member
    exact grown.noTable taken data path valid found

/-- `m'` has the tables and the frames of `m`. -/
structure SameFrames (m m' : Machine) : Prop where
  wellFormed : WellFormed m'
  pmm : m'.pmm = m.pmm
  tables : ∀ path, TablePath path → m'.tableAt path = m.tableAt path

theorem Owned.sameFrames {m m' : Machine} {held : Finset Nat} (owned : Owned (m, held))
    (same : SameFrames m m') : Owned (m', held) where
  wellFormed := same.wellFormed
  marked := fun a member => by rw [same.pmm]; exact owned.marked a member
  noTable := fun path table valid found => by
    rw [same.tables path valid] at found
    exact owned.noTable path table valid found

theorem tableIsEmpty_false (m : Machine) (table i : Nat) (inside : i < 512)
    (set : m.mem table i ≠ 0) : tableIsEmpty m table = false := by
  by_contra empty
  have all := (List.all_eq_true).mp (Bool.eq_true_of_not_eq_false empty) i (List.mem_range.mpr inside)
  exact set (by simpa using all)

theorem links_of_table (m : Machine) (i : Nat) (path : List Nat) (child : Nat)
    (found : m.tableAt (i :: path) = some child) :
    ∃ table, m.tableAt path = some table ∧ m.mem table i &&& 0b11 = 0b11 ∧
      m.mem table i &&& addrMask = child := by
  obtain ⟨table, here, link⟩ := (tableAt_cons_some i path child).mp found
  refine ⟨table, here, ?_⟩
  rw [decodeLink] at link
  split at link
  · rename_i marked
    exact ⟨marked, Option.some.inj link⟩
  · contradiction

/-- `l3_table[L3_INDEX] = 0` -/
def clearPage (m : Machine) (l3Table va : Nat) : Machine :=
  (m.store l3Table (l3Index va) 0).emit (.leafStore (va >>> 12) 0)

def Machine.release (m : Machine) (table : Nat) : Machine :=
  { m with pmm := freeFrame m.pmm table }

def reclaimL3 (m : Machine) (l3Table va : Nat) : Machine :=
  if tableIsEmpty m l3Table then (clearPage m l3Table va).release l3Table else m

def reclaimL2 (m : Machine) (l2Table va : Nat) : Machine :=
  if tableIsEmpty m l2Table then
    ((m.store l2Table (l2Index va) 0).emit (.tableStore l2Table (l2Index va) 0)).release l2Table
  else m

/-- A trip of `unmap` whose walk succeeds, in three steps. -/
theorem unmapPage_present (m : Machine) (va : Nat) (present : m.tableAt (l3Path va) ≠ none) :
    ∃ l2 l3, m.tableAt [l1Index va] = some l2 ∧ m.tableAt (l3Path va) = some l3 ∧
      unmapPage m va = (reclaimL2 (reclaimL3 (clearPage m l3 va) l3 va) l2 va, true) := by
  obtain ⟨l3, atL3⟩ := Option.ne_none_iff_exists'.mp present
  obtain ⟨l2, atL2, l2Marked, l3Address⟩ := links_of_table m (l2Index va) [l1Index va] l3 atL3
  obtain ⟨l1, atL1, l1Marked, l2Address⟩ := links_of_table m (l1Index va) [] l2 atL2
  obtain rfl : m.l1Table = l1 := Option.some.inj atL1
  refine ⟨l2, l3, atL2, atL3, ?_⟩
  simp only [unmapPage, l1Marked, l2Address, l2Marked, l3Address, ne_eq, not_true_eq_false, ↓reduceIte]
  have cleared : (m.store l3 (l3Index va) 0).emit (.leafStore (va >>> 12) 0) = clearPage m l3 va := rfl
  have again : ((clearPage m l3 va).store l3 (l3Index va) 0).emit (.leafStore (va >>> 12) 0) =
      clearPage (clearPage m l3 va) l3 va := rfl
  simp only [cleared, again]
  rw [reclaimL2, reclaimL3]
  rfl

/-- An L2 table is never empty where a walk goes through it. -/
theorem upperTable_occupied {m m' : Machine}
    (tables : ∀ path, TablePath path → m'.tableAt path = m.tableAt path) (va l2 l3 : Nat)
    (atL2 : m.tableAt [l1Index va] = some l2) (atL3 : m.tableAt (l3Path va) = some l3) :
    tableIsEmpty m' l2 = false := by
  have still : m'.tableAt (l3Path va) = some l3 := by
    rw [tables _ (l3Path_valid va)]; exact atL3
  obtain ⟨t, atT, marked, _⟩ := links_of_table m' (l2Index va) [l1Index va] l3 still
  rw [tables _ (l1Path_valid va), atL2, Option.some.injEq] at atT
  subst atT
  apply tableIsEmpty_false _ l2 (l2Index va) (l2Index_lt va)
  intro zero
  rw [zero] at marked
  exact absurd marked (by decide)

/-- One trip of `unmap` where another page of the L3 table stays mapped. -/
theorem unmapPage_spec (m : Machine) (wf : WellFormed m) (va u : Nat)
    (present : m.tableAt (l3Path va) ≠ none) (stays : SameTable u va) (mapped : m.leaf u ≠ 0)
    (other : ¬ SamePage u va) :
    ∃ m', unmapPage m va = (m', true) ∧ LeafWritten m m' va 0 := by
  obtain ⟨l2, l3, atL2, atL3, done⟩ := unmapPage_present m va present
  have written : LeafWritten m (clearPage m l3 va) va 0 :=
    store_leaf m wf va l3 0 (.leafStore (va >>> 12) 0) atL3 (Or.inl rfl)
  refine ⟨clearPage m l3 va, ?_, written⟩
  -- the other page keeps the L3 table occupied
  have leafU := written.leaves u
  rw [if_neg (by exact other)] at leafU
  have occupied3 : tableIsEmpty (clearPage m l3 va) l3 = false := by
    apply tableIsEmpty_false _ l3 (l3Index u) (l3Index_lt u)
    have atU : (clearPage m l3 va).tableAt (l3Path u) = some l3 := by
      rw [written.tables _ (l3Path_valid u), show l3Path u = l3Path va from stays]
      exact atL3
    rw [← word_of_table _ (l3Path u) l3 (l3Index u) atU]
    exact fun zero => mapped (leafU.symm.trans zero)
  have occupied2 := upperTable_occupied written.tables va l2 l3 atL2 atL3
  rw [done, reclaimL3, if_neg (by simp [occupied3]), reclaimL2, if_neg (by simp [occupied2])]

theorem unmapPage_absent (m : Machine) (va : Nat) (absent : m.tableAt (l3Path va) = none) :
    unmapPage m va = (m, false) := by
  unfold unmapPage
  by_cases first : m.mem m.l1Table (l1Index va) &&& 0b11 = 0b11
  · by_cases second : m.mem (m.mem m.l1Table (l1Index va) &&& addrMask) (l2Index va) &&& 0b11 = 0b11
    · exfalso
      simp [Machine.tableAt, l3Path, TableTree.tableAt, decodeLink, first, second] at absent
    · simp [first, second]
  · simp [first]

theorem KeepsTables.next {m m' : Machine} {va i trips : Nat} (keeps : KeepsTables m va i (trips + 1))
    (present : m.tableAt (l3Path (pageOf va i)) ≠ none)
    (written : LeafWritten m m' (pageOf va i) 0) : KeepsTables m' va (i + 1) trips := by
  intro n lower upper walks
  have earlier : ∀ j, i ≤ j → j ≤ n → m.tableAt (l3Path (pageOf va j)) ≠ none := by
    intro j low high
    by_cases first : j = i
    · rw [first]; exact present
    · have later := walks j (by omega) high
      rwa [written.tables _ (l3Path_valid _)] at later
  obtain ⟨u, stays, mapped, apart⟩ := keeps n (by omega) (by omega) earlier
  refine ⟨u, stays, ?_, fun j low high => apart j (by omega) high⟩
  have leafU := written.leaves u
  rw [if_neg (by exact apart i (Nat.le_refl i) (by omega))] at leafU
  rw [leafU]
  exact mapped

/-- The loop of `unmap` ends at the first page whose walk fails. -/
theorem unmapPages_succ (va trips i : Nat) (m : Machine) :
    unmapPages va (trips + 1) i m =
      if (unmapPage m (pageOf va i)).2 then unmapPages va trips (i + 1) (unmapPage m (pageOf va i)).1
      else unmapPage m (pageOf va i) := rfl

theorem unmapPages_frames (va trips i : Nat) (m : Machine) (wf : WellFormed m)
    (keeps : KeepsTables m va i trips) : SameFrames m (unmapPages va trips i m).1 := by
  induction trips generalizing i m with
  | zero => exact ⟨wf, rfl, fun _ _ => rfl⟩
  | succ trips ih =>
      rw [unmapPages_succ]
      by_cases present : m.tableAt (l3Path (pageOf va i)) = none
      · rw [unmapPage_absent m _ present]
        exact ⟨wf, rfl, fun _ _ => rfl⟩
      · obtain ⟨u, stays, mapped, apart⟩ := keeps i (Nat.le_refl i) (by omega) (by
          intro j low high
          obtain rfl : i = j := Nat.le_antisymm low high
          exact present)
        obtain ⟨m1, done, written⟩ := unmapPage_spec m wf (pageOf va i) u present stays mapped
          (apart i (Nat.le_refl i) (Nat.le_refl i))
        have later := ih (i + 1) m1 written.wellFormed (keeps.next present written)
        rw [done, if_pos rfl]
        refine ⟨later.wellFormed, later.pmm.trans written.pmm, fun path valid => ?_⟩
        rw [later.tables path valid, written.tables path valid]

theorem SameTables.sameFrames {m m' : Machine} (same : SameTables m m') (wf : WellFormed m) :
    SameFrames m m' :=
  ⟨same.wellFormed wf, same.1, fun path _ => same.tableAt path⟩

theorem SameFrames.trans {a b c : Machine} (first : SameFrames a b) (second : SameFrames b c) :
    SameFrames a c :=
  ⟨second.wellFormed, second.pmm.trans first.pmm, fun path valid => by
    rw [second.tables path valid, first.tables path valid]⟩

theorem KeepsTables.emit {m : Machine} {va i trips : Nat} (keeps : KeepsTables m va i trips)
    (event : Event) : KeepsTables (m.emit event) va i trips := by
  have same := sameTables_emit m event
  intro n lower upper walks
  simp only [same.tableAt] at walks
  simpa only [same.leaf] using keeps n lower upper walks

/-- The barriers and invalidations of `unmap` leave what its loop did. -/
theorem unmap_edits (m : Machine) (va size : Nat) :
    SameTables (unmapPages va (intTrips (size / pageSize)) 0 (m.emit .dsbIshst)).1 (unmap m va size) := by
  simp only [unmap]
  split
  · exact ((sameTables_invalidate va _ 0 _).trans (sameTables_emit _ .dsbIsh)).trans
      (sameTables_emit _ .isb)
  · exact ⟨rfl, rfl, rfl⟩

theorem unmap_frames (m : Machine) (wf : WellFormed m) (va size : Nat)
    (keeps : KeepsTables m va 0 (intTrips (size / pageSize))) : SameFrames m (unmap m va size) := by
  have barrier := (sameTables_emit m .dsbIshst).sameFrames wf
  have edited := unmapPages_frames va (intTrips (size / pageSize)) 0 (m.emit .dsbIshst)
    barrier.wellFormed (keeps.emit .dsbIshst)
  exact (barrier.trans edited).trans ((unmap_edits m va size).sameFrames edited.wellFormed)

theorem owned_alloc {m : Machine} {held : Finset Nat} (owned : Owned (m, held)) :
    Owned (memStep (m, held) .allocFrame).2 := by
  have wf := owned.wellFormed
  rcases allocFrame_spec m.pmm wf.sound with ⟨k, below, unused, _, alloc⟩ | ⟨_, alloc⟩
  · have nonzero := (frame_address m.pmm wf.sound k below).2.2
    simp only [memStep, alloc, if_neg nonzero]
    refine ⟨wf.markUsed k, ?_, ?_⟩
    · intro a member
      rcases Finset.mem_insert.mp member with rfl | old
      · exact ⟨k, below, rfl, by simp⟩
      · obtain ⟨j, range, address, taken⟩ := owned.marked a old
        exact ⟨j, range, address, by simp [taken]⟩
    · intro path table valid found member
      rcases Finset.mem_insert.mp member with rfl | old
      · exact unused_not_table m wf k unused path valid found
      · exact owned.noTable path table valid found old
  · simp only [memStep, alloc, ↓reduceIte]
    exact owned

theorem owned_free {m : Machine} {held : Finset Nat} (owned : Owned (m, held)) (addr : Nat)
    (member : addr ∈ held) : Owned (memStep (m, held) (.freeFrame addr)).2 := by
  have wf := owned.wellFormed
  obtain ⟨k, below, rfl, taken⟩ := owned.marked addr member
  have freed : freeFrame m.pmm (m.pmm.frame k) = m.pmm.markFree k := by
    rw [freeFrame_managed m.pmm wf.sound k below]
    exact if_pos taken
  dsimp only at *
  simp only [memStep, freed]
  refine ⟨⟨wf.sound.markFree k below, wf.entries, wf.distinct, ?_⟩, ?_, ?_⟩
  · intro path table valid found
    obtain ⟨j, range, address, used⟩ := wf.owned path table valid found
    have different : j ≠ k := by
      rintro rfl
      exact owned.noTable path table valid found (address ▸ member)
    exact ⟨j, range, address, by simp [used, different]⟩
  · intro a left
    obtain ⟨apart, old⟩ := Finset.mem_erase.mp left
    obtain ⟨j, range, address, used⟩ := owned.marked a old
    have different : j ≠ k := by
      rintro rfl
      exact apart address
    exact ⟨j, range, address, by simp [used, different]⟩
  · intro path table valid found left
    exact owned.noTable path table valid found (Finset.mem_of_mem_erase left)

theorem owned_step (s : Custody) (op : MemOp) (owned : Owned s) (permitted : Permitted s op) :
    Owned (memStep s op).2 := by
  obtain ⟨m, held⟩ := s
  cases op with
  | map va phys size flags =>
      obtain ⟨wf, grown⟩ := map_grown m owned.wellFormed va phys size flags
      exact owned.grown wf grown
  | unmap va size => exact owned.sameFrames (unmap_frames m owned.wellFormed va size permitted)
  | allocFrame => exact owned_alloc owned
  | freeFrame addr => exact owned_free owned addr permitted

theorem owned_run (s : Custody) (ops : List MemOp) (owned : Owned s) (permitted : PermittedRun s ops) :
    Owned (Replay.run memStep s ops).2 := by
  induction ops generalizing s with
  | nil => exact owned
  | cons op rest ih => exact ih _ (owned_step s op owned permitted.1) permitted.2

theorem Booted.ownedNone {p : Pmm} {m : Machine} {k : Nat} (booted : Booted p m k) (sound : p.Sound) :
    Owned (m, ∅) :=
  ⟨booted.wellFormed sound, by simp, by simp⟩

/-- After every run in which clients free what they hold and no `unmap` empties
an L3 table, page-table frames are owned by the tables. -/
theorem page_table_frames_owned (kernelEnd : Nat) (fits : kernelEnd ≤ physMemEnd)
    (memory : Nat → BitVec 64) (mem : Nat → Nat → Nat) (m : Machine)
    (boot : installL1Table kernelEnd memory mem = .ok m) (ops : List MemOp)
    (permitted : PermittedRun (m, ∅) ops) :
    FramesOwned (Replay.run memStep (m, ∅) ops).2.1 (Replay.run memStep (m, ∅) ops).2.2 := by
  obtain ⟨k, booted⟩ := installL1Table_booted kernelEnd memory mem m fits boot
  have start := booted.ownedNone (pmmInit_sound kernelEnd memory fits)
  exact (owned_run (m, ∅) ops start permitted).framesOwned

/-- Two pages mapped, the first unmapped again, a frame taken and given back. -/
def roundTripOps : List MemOp :=
  [.map 0x100000000 0x3F000000 0x2000 pteNormalRw, .unmap 0x100000000 0x1000, .allocFrame,
    .freeFrame 0x3F7FE000]

theorem roundTripOps_permitted : PermittedRun (bootMachine 0x3F7FA000, ∅) roundTripOps := by
  refine ⟨trivial, ?_, trivial, by unfold Permitted; decide +kernel, trivial⟩
  intro n _ upper _
  have first : n = 0 := by
    have trips : intTrips (0x1000 / pageSize) = 1 := rfl
    omega
  subst first
  refine ⟨0x100001000, by unfold SameTable; decide, by decide +kernel, ?_⟩
  intro j _ high
  obtain rfl : j = 0 := Nat.le_zero.mp high
  unfold SamePage SameTable
  decide

theorem page_table_frames_owned_round_trip :
    FramesOwned (Replay.run memStep (bootMachine 0x3F7FA000, ∅) roundTripOps).2.1
      (Replay.run memStep (bootMachine 0x3F7FA000, ∅) roundTripOps).2.2 :=
  page_table_frames_owned 0x3F7FA000 (by decide) (fun _ => 0#64) (fun _ _ => 0)
    (bootMachine 0x3F7FA000) (bootMachine_boots 0x3F7FA000 (by decide +kernel)) roundTripOps roundTripOps_permitted

/-- Clients free only what they hold; nothing is asked of `unmap`. -/
def HonestRun : Custody → List MemOp → Prop
  | _, [] => True
  | s, op :: rest => (∀ addr, op = .freeFrame addr → addr ∈ s.2) ∧ HonestRun (memStep s op).2 rest

/-- One page mapped and unmapped: its L3 table is free and still linked. -/
def emptyTableOps : List MemOp :=
  [.map 0x100000000 0x3F000000 0x1000 pteNormalRw, .unmap 0x100000000 0x1000]

theorem unmap_frees_linked_table :
    ¬ ∀ (kernelEnd : Nat) (_ : kernelEnd ≤ physMemEnd) (memory : Nat → BitVec 64)
      (mem : Nat → Nat → Nat) (m : Machine) (_ : installL1Table kernelEnd memory mem = .ok m)
      (ops : List MemOp) (_ : HonestRun (m, ∅) ops),
      FramesOwned (Replay.run memStep (m, ∅) ops).2.1 (Replay.run memStep (m, ∅) ops).2.2 := by
  intro claimed
  have owned := claimed 0x3F7FA000 (by decide) (fun _ => 0#64) (fun _ _ => 0)
    (bootMachine 0x3F7FA000) (bootMachine_boots 0x3F7FA000 (by decide +kernel)) emptyTableOps
    (by simp [HonestRun, emptyTableOps])
  obtain ⟨k, _, address, taken⟩ := owned.used 0x3F7FC000 0 0x3F7FD000
    ⟨[4], ⟨by decide, by unfold tableIndex; decide⟩, by decide +kernel, by decide +kernel⟩
  have index : k = 2 := by
    rw [show (0x3F7FD000 : Nat) =
      (Replay.run memStep (bootMachine 0x3F7FA000, ∅) emptyTableOps).2.1.pmm.frame 2 by decide +kernel,
      frame_injective] at address
    exact address.symm
  subst index
  exact absurd taken (by decide +kernel)

end KehindeKernel
