import KehindeKernel.Mmu
import KehindeKernel.PmmRefinement
import KehindeKernel.Lib.TableTree

/-!
Page tables as a tree of tables. `leaf` is the L3 descriptor a walk ends at;
`translate` is a function of it. Linking a fresh table leaves every leaf alone,
and writing one leaf leaves every other leaf and every table alone.
-/

namespace KehindeKernel

open TableTree

/-- A descriptor read as a link to the next table, as `translate` reads it. -/
def decodeLink (descriptor : Nat) : Option Nat :=
  if descriptor &&& 0b11 = 0b11 then some (descriptor &&& addrMask) else none

def tableIndex (i : Nat) : Prop := i < 512

abbrev TablePath := Valid tableIndex 2

def Machine.tableAt (m : Machine) (path : List Nat) : Option Nat :=
  TableTree.tableAt decodeLink m.mem m.l1Table path

/-- Entry `i` of the table at `path`, or 0 where there is no such table. -/
def Machine.word (m : Machine) (i : Nat) (path : List Nat) : Nat :=
  TableTree.entry decodeLink 0 m.mem m.l1Table i path

/-- The path of the L3 table that maps `va`, innermost index first. -/
def l3Path (va : Nat) : List Nat := [l2Index va, l1Index va]

/-- The L3 descriptor of the page of `va`, or 0 where a table is missing. -/
def Machine.leaf (m : Machine) (va : Nat) : Nat := m.word (l3Index va) (l3Path va)

theorem l1Index_eq (va : Nat) : l1Index va = va / 2 ^ 30 % 512 := by
  rw [l1Index, Nat.shiftRight_eq_div_pow]
  exact BitField.and_low _ 9

theorem l2Index_eq (va : Nat) : l2Index va = va / 2 ^ 21 % 512 := by
  rw [l2Index, Nat.shiftRight_eq_div_pow]
  exact BitField.and_low _ 9

theorem l3Index_eq (va : Nat) : l3Index va = va / 2 ^ 12 % 512 := by
  rw [l3Index, Nat.shiftRight_eq_div_pow]
  exact BitField.and_low _ 9

theorem l1Index_lt (va : Nat) : l1Index va < 512 := by
  rw [l1Index_eq]; exact Nat.mod_lt _ (by decide)

theorem l2Index_lt (va : Nat) : l2Index va < 512 := by
  rw [l2Index_eq]; exact Nat.mod_lt _ (by decide)

theorem l3Index_lt (va : Nat) : l3Index va < 512 := by
  rw [l3Index_eq]; exact Nat.mod_lt _ (by decide)

/-- Below 2^39 a walk is determined by the page. -/
theorem same_walk (u v : Nat) (lowU : u < 2 ^ 39) (lowV : v < 2 ^ 39) :
    (l3Index u = l3Index v ∧ l3Path u = l3Path v) ↔ u / 4096 = v / 4096 := by
  simp only [l3Path, List.cons.injEq, and_true, l1Index_eq, l2Index_eq, l3Index_eq]
  omega

theorem l1Path_valid (va : Nat) : TablePath [l1Index va] :=
  ⟨by simp, by simpa [tableIndex] using l1Index_lt va⟩

theorem l3Path_valid (va : Nat) : TablePath (l3Path va) := by
  refine ⟨by simp [l3Path], ?_⟩
  simp only [l3Path, List.mem_cons, List.not_mem_nil, or_false, tableIndex]
  rintro i (rfl | rfl)
  · exact l2Index_lt va
  · exact l1Index_lt va

theorem low_two (x : Nat) : x &&& 0b11 = x % 4 := BitField.and_low x 2

/-- `translate` depends on the tables through one leaf. -/
theorem translate_leaf (m : Machine) (va : Nat) :
    translate m va =
      if m.leaf va &&& 0b11 = 0b11 then (m.leaf va &&& addrMask) ||| (va &&& 0xFFF)
      else 2 ^ 64 - 1 := by
  simp only [translate, Machine.leaf, Machine.word, entry, l3Path, TableTree.tableAt, Option.bind_some, decodeLink]
  by_cases first : m.mem m.l1Table (l1Index va) &&& 0b11 = 0b11
  · simp only [first, ne_eq, not_true_eq_false, ↓reduceIte, Option.bind_some]
    by_cases second : m.mem (m.mem m.l1Table (l1Index va) &&& addrMask) (l2Index va) &&& 0b11 = 0b11
    · simp only [second, not_true_eq_false, ↓reduceIte, Option.map_some, Option.getD_some]
      split <;> simp_all
    · simp [second]
  · simp [first]

/-- Every word of every table is clear or a link, tables are pairwise distinct,
and each one is a managed frame marked used. -/
structure WellFormed (m : Machine) : Prop where
  sound : m.pmm.Sound
  entries : ∀ path table i, TablePath path → i < 512 → m.tableAt path = some table →
    m.mem table i = 0 ∨ m.mem table i &&& 0b11 = 0b11
  distinct : Distinct decodeLink tableIndex 2 m.mem m.l1Table
  owned : ∀ path table, TablePath path → m.tableAt path = some table →
    ∃ k, k < m.pmm.totalFrames ∧ table = m.pmm.frame k ∧ m.pmm.used k = true

/-- `m'` keeps every table of `m`, new tables are frames that were free, and only
their frames became used. -/
structure Grown (m m' : Machine) : Prop where
  top : m'.l1Table = m.l1Table
  start : m'.pmm.physMemStart = m.pmm.physMemStart
  total : m'.pmm.totalFrames = m.pmm.totalFrames
  kept : ∀ path table, TablePath path → m.tableAt path = some table →
    m'.tableAt path = some table
  used : ∀ k, k < m.pmm.totalFrames → (m'.pmm.used k = true ↔ m.pmm.used k = true ∨
    ∃ path, TablePath path ∧ m.tableAt path = none ∧ m'.tableAt path = some (m.pmm.frame k))
  fresh : ∀ path table, TablePath path → m.tableAt path = none → m'.tableAt path = some table →
    ∃ k, k < m.pmm.totalFrames ∧ table = m.pmm.frame k ∧ m.pmm.used k = false

theorem Grown.refl (m : Machine) : Grown m m where
  top := rfl
  start := rfl
  total := rfl
  kept := fun _ _ _ found => found
  used := fun k _ => by
    constructor
    · exact Or.inl
    · rintro (old | ⟨path, _, absent, present⟩)
      · exact old
      · rw [absent] at present; contradiction
  fresh := fun path table _ absent present => by rw [absent] at present; contradiction

theorem Grown.frame_eq {m m' : Machine} (grown : Grown m m') (k : Nat) :
    m'.pmm.frame k = m.pmm.frame k := by
  rw [Pmm.frame, Pmm.frame, grown.start]

/-- New tables are linked from free frames, so a used frame that held no table
holds none. -/
theorem Grown.noTable {m m' : Machine} (grown : Grown m m') {k : Nat} (taken : m.pmm.used k = true)
    (data : ∀ path, TablePath path → m.tableAt path ≠ some (m.pmm.frame k)) (path : List Nat)
    (valid : TablePath path) : m'.tableAt path ≠ some (m.pmm.frame k) := by
  intro found
  cases before : m.tableAt path with
  | none =>
      obtain ⟨j, _, address, unused⟩ := grown.fresh path _ valid before found
      rw [frame_injective] at address
      rw [← address, taken] at unused
      contradiction
  | some t =>
      have same := grown.kept path t valid before
      rw [found, Option.some.injEq] at same
      exact data path valid (by rw [before, same])

theorem Grown.trans {a b c : Machine} (first : Grown a b) (second : Grown b c) : Grown a c where
  top := second.top.trans first.top
  start := second.start.trans first.start
  total := second.total.trans first.total
  kept := fun path table valid found => second.kept path table valid (first.kept path table valid found)
  used := fun k below => by
    rw [second.used k (by rw [first.total]; exact below), first.used k below, first.frame_eq]
    constructor
    · rintro ((old | ⟨path, valid, absent, present⟩) | ⟨path, valid, absent, present⟩)
      · exact Or.inl old
      · exact Or.inr ⟨path, valid, absent, second.kept path _ valid present⟩
      · refine Or.inr ⟨path, valid, ?_, present⟩
        by_contra found
        obtain ⟨table, here⟩ := Option.ne_none_iff_exists'.mp found
        rw [first.kept path table valid here] at absent
        contradiction
    · rintro (old | ⟨path, valid, absent, present⟩)
      · exact Or.inl (Or.inl old)
      · cases middle : b.tableAt path with
        | none => exact Or.inr ⟨path, valid, middle, present⟩
        | some table =>
            have same := second.kept path table valid middle
            rw [present, Option.some.injEq] at same
            exact Or.inl (Or.inr ⟨path, valid, absent, by rw [middle, same]⟩)
  fresh := fun path table valid absent present => by
    cases middle : b.tableAt path with
    | none =>
        obtain ⟨k, below, address, unused⟩ := second.fresh path table valid middle present
        rw [first.total] at below
        refine ⟨k, below, by rw [address, first.frame_eq], ?_⟩
        by_contra set
        have old : a.pmm.used k = true := by simpa using set
        rw [(first.used k below).mpr (Or.inl old)] at unused
        contradiction
    | some t =>
        have same := second.kept path t valid middle
        rw [present, Option.some.injEq] at same
        rw [same]
        exact first.fresh path t valid absent middle

/-- What linking frame `k` as the table at `path` does to the whole machine. -/
structure LinkedTable (m m' : Machine) (path : List Nat) (k : Nat) : Prop where
  wellFormed : WellFormed m'
  pmm : m'.pmm = m.pmm.markUsed k
  top : m'.l1Table = m.l1Table
  tables : ∀ other, TablePath other →
    m'.tableAt other = if other = path then some (m.pmm.frame k) else m.tableAt other
  leaves : ∀ va, m'.leaf va = m.leaf va

theorem LinkedTable.grown {m m' : Machine} {path : List Nat} {k : Nat}
    (linked : LinkedTable m m' path k) (valid : TablePath path) (absent : m.tableAt path = none)
    (below : k < m.pmm.totalFrames) (unused : m.pmm.used k = false) : Grown m m' where
  top := linked.top
  start := by rw [linked.pmm, Pmm.markUsed_physMemStart]
  total := by rw [linked.pmm, Pmm.markUsed_totalFrames]
  kept := fun other table validOther found => by
    rw [linked.tables other validOther]
    by_cases same : other = path
    · rw [same, absent] at found; contradiction
    · rw [if_neg same]; exact found
  used := fun j _ => by
    rw [linked.pmm, Pmm.used_markUsed]
    constructor
    · intro marked
      rcases Bool.or_eq_true_iff.mp marked with same | old
      · have equal : j = k := of_decide_eq_true same
        refine Or.inr ⟨path, valid, absent, ?_⟩
        rw [linked.tables path valid, if_pos rfl, equal]
      · exact Or.inl old
    · rintro (old | ⟨other, validOther, before, after⟩)
      · simp [old]
      · rw [linked.tables other validOther] at after
        by_cases same : other = path
        · rw [if_pos same, Option.some.injEq, frame_injective] at after
          simp [after]
        · rw [if_neg same, before] at after; contradiction
  fresh := fun other table validOther before after => by
    rw [linked.tables other validOther] at after
    by_cases same : other = path
    · rw [if_pos same, Option.some.injEq] at after
      exact ⟨k, below, after.symm, unused⟩
    · rw [if_neg same, before] at after; contradiction

theorem frame_address (p : Pmm) (sound : p.Sound) (k : Nat) (below : k < p.totalFrames) :
    p.frame k % 2 ^ 12 = 0 ∧ p.frame k < 2 ^ 48 ∧ p.frame k ≠ 0 := by
  have tiled := sound.tiled
  have aligned := sound.aligned
  have positive := sound.positive
  simp only [pageSize, physMemEnd] at tiled aligned
  simp only [Pmm.frame, pageSize]
  omega

/-- A table descriptor reads back as the frame it was built from. -/
theorem decodeLink_table (frame : Nat) (low : frame % 2 ^ 12 = 0) (high : frame < 2 ^ 48) :
    decodeLink (frame ||| 0b11) = some frame := by
  have marked : (frame ||| 0b11) &&& 0b11 = 0b11 := BitField.or_absorb frame 0b11
  have kept : (frame ||| 0b11) &&& addrMask = frame := by
    rw [Nat.and_or_distrib_right, show (0b11 &&& addrMask : Nat) = 0 by decide, Nat.or_zero]
    exact BitField.and_mask_self frame 12 48 (by decide) low high
  rw [decodeLink, if_pos marked, kept]

theorem decodeLink_zero : decodeLink 0 = none := by decide

theorem tableAt_child (m : Machine) (path : List Nat) (table i : Nat)
    (found : m.tableAt path = some table) : m.tableAt (i :: path) = decodeLink (m.mem table i) := by
  have here : TableTree.tableAt decodeLink m.mem m.l1Table path = some table := found
  simp [Machine.tableAt, TableTree.tableAt, here]

theorem child_absent (m : Machine) (path : List Nat) (table i : Nat)
    (found : m.tableAt path = some table) (absent : m.tableAt (i :: path) = none) :
    decodeLink (m.mem table i) = none := by
  rw [← tableAt_child m path table i found, absent]

theorem word_of_table (m : Machine) (path : List Nat) (table i : Nat)
    (found : m.tableAt path = some table) : m.word i path = m.mem table i := by
  have here : TableTree.tableAt decodeLink m.mem m.l1Table path = some table := found
  simp [Machine.word, entry, here]

theorem word_clear_or_link (m : Machine) (wf : WellFormed m) (i : Nat) (inside : i < 512)
    (path : List Nat) (valid : TablePath path) : m.word i path = 0 ∨ m.word i path &&& 0b11 = 0b11 := by
  cases found : m.tableAt path with
  | none =>
      have here : TableTree.tableAt decodeLink m.mem m.l1Table path = none := found
      exact Or.inl (by simp [Machine.word, entry, here])
  | some table =>
      rw [word_of_table m path table i found]
      exact wf.entries path table i valid inside found

theorem unused_not_table (m : Machine) (wf : WellFormed m) (k : Nat) (unused : m.pmm.used k = false)
    (path : List Nat) (valid : TablePath path) : m.tableAt path ≠ some (m.pmm.frame k) := by
  intro here
  obtain ⟨j, _, address, taken⟩ := wf.owned path _ valid here
  rw [frame_injective] at address
  rw [address, taken] at unused
  contradiction

theorem zeroed_silent (m : Machine) (k i : Nat) (inside : tableIndex i) :
    decodeLink ((fun j => if j < 512 then 0 else m.mem (m.pmm.frame k) j) i) = none := by
  have zero : (fun j => if j < 512 then 0 else m.mem (m.pmm.frame k) j) i = 0 := if_pos inside
  rw [zero]
  exact decodeLink_zero

theorem entry_clear (m : Machine) (wf : WellFormed m) (path : List Nat) (table i : Nat)
    (valid : TablePath path) (inside : i < 512) (found : m.tableAt path = some table) :
    m.mem table i &&& 1 ≠ 0 ↔ m.mem table i &&& 0b11 = 0b11 := by
  have low : m.mem table i &&& 1 = m.mem table i % 2 := BitField.and_low _ 1
  rw [low, low_two]
  rcases wf.entries path table i valid inside found with zero | link
  · rw [zero]; decide
  · rw [low_two] at link
    omega

/-- The machine after frame `k` was taken, zeroed and linked at `table[i]`. -/
def Machine.linkFrame (m : Machine) (table i k : Nat) : Machine where
  pmm := m.pmm.markUsed k
  mem := setEntry (Function.update m.mem (m.pmm.frame k)
    (fun j => if j < 512 then 0 else m.mem (m.pmm.frame k) j)) table i (m.pmm.frame k ||| 0b11)
  l1Table := m.l1Table
  log := m.log ++ [.tableStore table i (m.pmm.frame k ||| 0b11)]

section Link

variable (m : Machine) (wf : WellFormed m) (path : List Nat) (table i k : Nat)
  (valid : TablePath (i :: path)) (found : m.tableAt path = some table)
  (absent : m.tableAt (i :: path) = none)
  (below : k < m.pmm.totalFrames) (unused : m.pmm.used k = false)

include wf valid found absent below unused

theorem linkFrame_tables (other : List Nat) (validOther : TablePath other) :
    (m.linkFrame table i k).tableAt other =
      if other = i :: path then some (m.pmm.frame k) else m.tableAt other := by
  obtain ⟨aligned, high, _⟩ := frame_address m.pmm wf.sound k below
  have fresh := unused_not_table m wf k unused
  have empty := child_absent m path table i found absent
  exact tableAt_link wf.distinct path table (m.pmm.frame k) i _ _ valid found empty
    (decodeLink_table _ aligned high) fresh (zeroed_silent m k) other validOther

theorem linkFrame_words (j : Nat) (inside : j < 512) (other : List Nat)
    (validOther : TablePath other) :
    (m.linkFrame table i k).word j other =
      if j = i ∧ other = path then m.pmm.frame k ||| 0b11 else m.word j other := by
  obtain ⟨aligned, high, _⟩ := frame_address m.pmm wf.sound k below
  have fresh := unused_not_table m wf k unused
  have empty := child_absent m path table i found absent
  exact entry_link 0 wf.distinct path table (m.pmm.frame k) i _ _ valid found empty
    (decodeLink_table _ aligned high) fresh (fun j range => if_pos range) decodeLink_zero
    j inside other validOther

theorem linkFrame_wellFormed : WellFormed (m.linkFrame table i k) where
  sound := wf.sound.markUsed k
  entries := fun other t j validOther inside here => by
    -- a word of the new tree is the new link, a zero of the new table or an old word
    rw [← word_of_table _ other t j here,
      linkFrame_words m wf path table i k valid found absent below unused j inside other validOther]
    by_cases target : j = i ∧ other = path
    · rw [if_pos target]
      exact Or.inr (BitField.or_absorb _ 0b11)
    · rw [if_neg target]
      exact word_clear_or_link m wf j inside other validOther
  distinct := by
    obtain ⟨aligned, high, _⟩ := frame_address m.pmm wf.sound k below
    exact distinct_link wf.distinct path table _ i _ _ valid found
      (child_absent m path table i found absent) (decodeLink_table _ aligned high)
      (unused_not_table m wf k unused) (zeroed_silent m k)
  owned := fun other t validOther here => by
    rw [linkFrame_tables m wf path table i k valid found absent below unused other validOther] at here
    by_cases same : other = i :: path
    · rw [if_pos same, Option.some.injEq] at here
      exact ⟨k, below, here.symm, by simp [Machine.linkFrame]⟩
    · rw [if_neg same] at here
      obtain ⟨j, range, address, taken⟩ := wf.owned other t validOther here
      exact ⟨j, range, address, by simp [Machine.linkFrame, taken]⟩

theorem linkFrame_linked : LinkedTable m (m.linkFrame table i k) (i :: path) k where
  wellFormed := linkFrame_wellFormed m wf path table i k valid found absent below unused
  pmm := rfl
  top := rfl
  tables := linkFrame_tables m wf path table i k valid found absent below unused
  leaves := fun va => by
    have shallow : ¬ (l3Index va = i ∧ l3Path va = path) := by
      rintro ⟨_, same⟩
      have bound := valid.1
      rw [← same] at bound
      simp [l3Path] at bound
    have word := linkFrame_words m wf path table i k valid found absent below unused
      (l3Index va) (l3Index_lt va) (l3Path va) (l3Path_valid va)
    rw [if_neg shallow] at word
    exact word

end Link

/-- The three ends of `_get_or_alloc_table` on a table of the tree: the link was
there, a fresh table was linked, or no frame was free. -/
theorem getOrAllocTable_spec (m : Machine) (wf : WellFormed m) (path : List Nat) (table i : Nat)
    (valid : TablePath (i :: path)) (found : m.tableAt path = some table) :
    (∃ child, m.tableAt (i :: path) = some child ∧ child ≠ 0 ∧
      getOrAllocTable m table i = (child, m)) ∨
    (∃ k m', m.tableAt (i :: path) = none ∧ k < m.pmm.totalFrames ∧ m.pmm.used k = false ∧
      m.pmm.frame k ≠ 0 ∧ LinkedTable m m' (i :: path) k ∧
      getOrAllocTable m table i = (m.pmm.frame k, m')) ∨
    (m.tableAt (i :: path) = none ∧ (∀ k, k < m.pmm.totalFrames → m.pmm.used k = true) ∧
      getOrAllocTable m table i = (0, m)) := by
  have inside : i < 512 := valid.2 i List.mem_cons_self
  have child := tableAt_child m path table i found
  have low := entry_clear m wf path table i valid.tail inside found
  by_cases link : m.mem table i &&& 0b11 = 0b11
  · left
    have present : m.tableAt (i :: path) = some (m.mem table i &&& addrMask) := by
      rw [child, decodeLink, if_pos link]
    obtain ⟨k, below, address, _⟩ := wf.owned (i :: path) _ valid present
    refine ⟨m.mem table i &&& addrMask, present, ?_, ?_⟩
    · rw [address]; exact (frame_address m.pmm wf.sound k below).2.2
    · simp only [getOrAllocTable, if_pos (low.mpr link)]
  · right
    have clear : ¬ m.mem table i &&& 1 ≠ 0 := fun set => link (low.mp set)
    have absent : m.tableAt (i :: path) = none := by rw [child, decodeLink, if_neg link]
    rcases allocFrame_spec m.pmm wf.sound with ⟨k, below, unused, _, alloc⟩ | ⟨full, alloc⟩
    · left
      have nonzero := (frame_address m.pmm wf.sound k below).2.2
      refine ⟨k, m.linkFrame table i k, absent, below, unused, nonzero,
        linkFrame_linked m wf path table i k valid found absent below unused, ?_⟩
      simp only [getOrAllocTable, if_neg clear, alloc, if_neg nonzero]
      rfl
    · right
      refine ⟨absent, full, ?_⟩
      simp only [getOrAllocTable, if_neg clear, alloc, ↓reduceIte]

/-- `m'` differs from `m` in its log at most. -/
def SameTables (m m' : Machine) : Prop :=
  m'.pmm = m.pmm ∧ m'.mem = m.mem ∧ m'.l1Table = m.l1Table

theorem SameTables.tableAt {m m' : Machine} (same : SameTables m m') (path : List Nat) :
    m'.tableAt path = m.tableAt path := by
  rw [Machine.tableAt, Machine.tableAt, same.2.1, same.2.2]

theorem SameTables.word {m m' : Machine} (same : SameTables m m') (i : Nat) (path : List Nat) :
    m'.word i path = m.word i path := by
  rw [Machine.word, Machine.word, same.2.1, same.2.2]

theorem SameTables.leaf {m m' : Machine} (same : SameTables m m') (va : Nat) :
    m'.leaf va = m.leaf va := same.word _ _

theorem SameTables.wellFormed {m m' : Machine} (same : SameTables m m') (wf : WellFormed m) :
    WellFormed m' := by
  obtain ⟨pmm, mem, top⟩ := same
  cases m'
  cases pmm
  cases mem
  cases top
  exact ⟨wf.sound, wf.entries, wf.distinct, wf.owned⟩

theorem SameTables.grown {m m' : Machine} (same : SameTables m m') : Grown m m' where
  top := same.2.2
  start := by rw [same.1]
  total := by rw [same.1]
  kept := fun path table _ found => by rw [same.tableAt path]; exact found
  used := fun k _ => by
    rw [same.1]
    constructor
    · exact Or.inl
    · rintro (old | ⟨path, _, absent, present⟩)
      · exact old
      · rw [same.tableAt path, absent] at present; contradiction
  fresh := fun path table _ absent present => by
    rw [same.tableAt path, absent] at present
    contradiction

theorem sameTables_emit (m : Machine) (event : Event) : SameTables m (m.emit event) :=
  ⟨rfl, rfl, rfl⟩

theorem SameTables.trans {a b c : Machine} (first : SameTables a b) (second : SameTables b c) :
    SameTables a c :=
  ⟨second.1.trans first.1, second.2.1.trans first.2.1, second.2.2.trans first.2.2⟩

theorem sameTables_invalidate (va trips i : Nat) (m : Machine) :
    SameTables m (invalidatePages va trips i m) := by
  induction trips generalizing i m with
  | zero => exact ⟨rfl, rfl, rfl⟩
  | succ trips ih => exact (sameTables_emit m _).trans (ih (i + 1) _)

/-- What writing descriptor `word` for the page of `va` does. -/
structure LeafWritten (m m' : Machine) (va word : Nat) : Prop where
  wellFormed : WellFormed m'
  pmm : m'.pmm = m.pmm
  top : m'.l1Table = m.l1Table
  tables : ∀ path, TablePath path → m'.tableAt path = m.tableAt path
  leaves : ∀ u, m'.leaf u =
    if l3Index u = l3Index va ∧ l3Path u = l3Path va then word else m.leaf u

theorem store_leaf (m : Machine) (wf : WellFormed m) (va table word : Nat) (event : Event)
    (found : m.tableAt (l3Path va) = some table) (shape : word = 0 ∨ word &&& 0b11 = 0b11) :
    LeafWritten m ((m.store table (l3Index va) word).emit event) va word := by
  have tables := tableAt_setLeaf wf.distinct (l3Path va) table (l3Index va) word rfl
    (l3Path_valid va) found
  have words := entry_setLeaf 0 wf.distinct (l3Path va) table (l3Index va) word rfl
    (l3Path_valid va) found
  refine ⟨⟨wf.sound, ?_, ?_, ?_⟩, rfl, rfl, tables, ?_⟩
  · intro path t i valid inside here
    rw [← word_of_table _ path t i here]
    have value : ((m.store table (l3Index va) word).emit event).word i path = _ := words i path valid
    rw [value]
    by_cases target : i = l3Index va ∧ path = l3Path va
    · rw [if_pos target]; exact shape
    · rw [if_neg target]; exact word_clear_or_link m wf i inside path valid
  · exact distinct_setLeaf wf.distinct (l3Path va) table (l3Index va) word rfl (l3Path_valid va) found
  · intro path t valid here
    have step := tables path valid
    exact wf.owned path t valid (step.symm.trans here)
  · intro u
    exact words (l3Index u) (l3Path u) (l3Path_valid u)

/-- Handing out a frame that was free disturbs no table. -/
theorem WellFormed.markUsed {m : Machine} (wf : WellFormed m) (k : Nat) :
    WellFormed { m with pmm := m.pmm.markUsed k } where
  sound := wf.sound.markUsed k
  entries := wf.entries
  distinct := wf.distinct
  owned := fun path table valid found => by
    obtain ⟨j, range, address, taken⟩ := wf.owned path table valid found
    exact ⟨j, range, address, by simp [taken]⟩

/-- A machine whose page tables consist of one zeroed top table in frame `k`. -/
structure Booted (p : Pmm) (m : Machine) (k : Nat) : Prop where
  below : k < p.totalFrames
  unused : p.used k = false
  pmm : m.pmm = p.markUsed k
  top : m.l1Table = p.frame k
  clear : ∀ i, i < 512 → m.mem m.l1Table i = 0

theorem Booted.tableAt_child {p : Pmm} {m : Machine} {k : Nat} (booted : Booted p m k) (i : Nat)
    (path : List Nat) (valid : TablePath (i :: path)) : m.tableAt (i :: path) = none := by
  induction path generalizing i with
  | nil =>
      have root : m.tableAt [] = some m.l1Table := rfl
      rw [KehindeKernel.tableAt_child m [] _ i root, booted.clear i (valid.2 i List.mem_cons_self)]
      exact decodeLink_zero
  | cons j rest ih =>
      have parent : TableTree.tableAt decodeLink m.mem m.l1Table (j :: rest) = none :=
        ih j valid.tail
      rw [Machine.tableAt, TableTree.tableAt, parent]
      rfl

theorem Booted.only_top {p : Pmm} {m : Machine} {k : Nat} (booted : Booted p m k)
    (path : List Nat) (table : Nat) (valid : TablePath path) (found : m.tableAt path = some table) :
    path = [] ∧ table = p.frame k := by
  cases path with
  | nil => exact ⟨rfl, by rw [← booted.top]; exact (Option.some.inj found).symm⟩
  | cons i rest =>
      rw [booted.tableAt_child i rest valid] at found
      contradiction

theorem Booted.wellFormed {p : Pmm} {m : Machine} {k : Nat} (booted : Booted p m k)
    (sound : p.Sound) : WellFormed m where
  sound := by rw [booted.pmm]; exact sound.markUsed k
  entries := fun path table i valid inside found => by
    obtain ⟨rfl, rfl⟩ := booted.only_top path table valid found
    rw [← booted.top]
    exact Or.inl (booted.clear i inside)
  distinct := fun left right table validLeft validRight atLeft atRight => by
    rw [(booted.only_top left table validLeft atLeft).1,
      (booted.only_top right table validRight atRight).1]
  owned := fun path table valid found => by
    obtain ⟨_, rfl⟩ := booted.only_top path table valid found
    rw [booted.pmm]
    exact ⟨k, booted.below, rfl, by simp⟩

theorem Booted.clearLeaf {p : Pmm} {m : Machine} {k : Nat} (booted : Booted p m k) (va : Nat) :
    m.leaf va = 0 := by
  have absent : TableTree.tableAt decodeLink m.mem m.l1Table (l3Path va) = none :=
    booted.tableAt_child _ _ (l3Path_valid va)
  simp [Machine.leaf, Machine.word, entry, absent]

theorem Booted.unmapped {p : Pmm} {m : Machine} {k : Nat} (booted : Booted p m k) (va : Nat) :
    translate m va = 2 ^ 64 - 1 := by
  rw [translate_leaf, booted.clearLeaf va]
  rfl

theorem installL1Table_booted (kernelEnd : Nat) (memory : Nat → BitVec 64) (mem : Nat → Nat → Nat)
    (m : Machine) (fits : kernelEnd ≤ physMemEnd)
    (done : installL1Table kernelEnd memory mem = .ok m) :
    ∃ k, Booted (pmmInit kernelEnd memory) m k := by
  have sound := pmmInit_sound kernelEnd memory fits
  simp only [installL1Table] at done
  rcases allocFrame_spec _ sound with ⟨k, below, unused, _, alloc⟩ | ⟨_, alloc⟩
  · rw [alloc, if_neg (frame_address _ sound k below).2.2] at done
    cases done
    refine ⟨k, below, unused, rfl, rfl, ?_⟩
    intro i inside
    simp [inside]
  · rw [alloc] at done
    contradiction

/-- The machine `installL1Table` leaves behind where all memory was clear. -/
def bootMachine (kernelEnd : Nat) : Machine :=
  let frame := allocFrame (pmmInit kernelEnd fun _ => 0#64)
  { pmm := frame.2
    mem := Function.update (fun _ _ => 0) frame.1 (fun i => if i < 512 then 0 else 0)
    l1Table := frame.1
    log := [] }

theorem bootMachine_boots (kernelEnd : Nat)
    (room : (allocFrame (pmmInit kernelEnd fun _ => 0#64)).1 ≠ 0) :
    installL1Table kernelEnd (fun _ => 0#64) (fun _ _ => 0) = .ok (bootMachine kernelEnd) := by
  simp only [installL1Table, if_neg room]
  rfl

theorem bootMachine_wellFormed (kernelEnd : Nat) (fits : kernelEnd ≤ physMemEnd)
    (room : (allocFrame (pmmInit kernelEnd fun _ => 0#64)).1 ≠ 0) :
    WellFormed (bootMachine kernelEnd) ∧ ∀ va, translate (bootMachine kernelEnd) va = 2 ^ 64 - 1 := by
  obtain ⟨k, booted⟩ := installL1Table_booted kernelEnd _ _ _ fits (bootMachine_boots kernelEnd room)
  exact ⟨booted.wellFormed (pmmInit_sound kernelEnd _ fits), booted.unmapped⟩

end KehindeKernel
