import KehindeKernel.Lib.WalkCache
import KehindeKernel.MemoryTypes
import KehindeKernel.SelfMap

/-!
The walker beside the kernel. `map` makes its stores with no barrier between them:
none between the zeros of a new table and the link to it, and none before the page
is invalidated. So while a page is mapped the walker may see old words and new ones in
any order, and keep what it makes of them. The heap maps each of its pages once, and
a frame that was never used is clear, so all the walker ever sees of a word is zero or
the word that stays.
-/

namespace KehindeKernel

open Outcome Bytes TableTree Stage1

structure TableStore where
  table : Nat
  index : Nat
  word : Nat

def TableStore.apply (mem : Nat → Nat → Nat) (s : TableStore) : Nat → Nat → Nat := setEntry mem s.table s.index s.word

/-- The loop of `_get_or_alloc_table` over the 512 words of a new table. -/
def zeroStores (child : Nat) : List TableStore := (List.range 512).map fun i => ⟨child, i, 0⟩

/-- The stores of `_get_or_alloc_table`. -/
def getOrAllocTableStores (m : Machine) (table index : Nat) : List TableStore :=
  if m.mem table index &&& 1 ≠ 0 then []
  else
    let child := (allocFrame m.pmm).1
    if child = 0 then [] else zeroStores child ++ [⟨table, index, child ||| 0b11⟩]

/-- The stores of one trip of the loop in `map`. -/
def mapPageStores (m : Machine) (currentVa currentPhys flags : Nat) : List TableStore :=
  let l2 := getOrAllocTable m m.l1Table (l1Index currentVa)
  getOrAllocTableStores m m.l1Table (l1Index currentVa) ++
    if l2.1 = 0 then []
    else
      let l3 := getOrAllocTable l2.2 l2.1 (l2Index currentVa)
      getOrAllocTableStores l2.2 l2.1 (l2Index currentVa) ++
        if l3.1 = 0 then [] else [⟨l3.1, l3Index currentVa, currentPhys ||| flags ||| 0b11⟩]

def mapPagesStores (va phys flags : Nat) : Nat → Nat → Machine → List TableStore
  | 0, _, _ => []
  | trips + 1, i, m =>
      let currentVa := (va + i * pageSize) % 2 ^ 64
      let currentPhys := (phys + i * pageSize) % 2 ^ 64
      let page := mapPage m currentVa currentPhys flags
      mapPageStores m currentVa currentPhys flags ++
        if page.2 then mapPagesStores va phys flags trips (i + 1) page.1 else []

/-- The stores of `map`, in the order of the program. -/
def mapStores (m : Machine) (va phys size flags : Nat) : List TableStore :=
  mapPagesStores va phys flags (intTrips (size / pageSize)) 0 (m.emit .dsbIshst)

/-- The stores to page tables while the heap takes a page. -/
def growStores (m : Machine) (va : Nat) : List TableStore :=
  let frame := allocFrame m.pmm
  if frame.1 = 0 then [] else mapStores { m with pmm := frame.2 } va frame.1 pageSize pteNormalRw

section Stores

/-- Stores that lead from `mem` to `mem'`, to slots that were clear, with no word but
zeros and the words that stay. -/
structure Settles (mem : Nat → Nat → Nat) (stores : List TableStore) (mem' : Nat → Nat → Nat) : Prop where
  done : stores.foldl TableStore.apply mem = mem'
  kept : ∀ table i, i < 512 → mem table i = 0 ∨ mem' table i = mem table i
  last : ∀ s ∈ stores, s.index < 512 ∧ (s.word = 0 ∨ mem' s.table s.index = s.word)

theorem settles_refl (mem : Nat → Nat → Nat) : Settles mem [] mem :=
  ⟨rfl, fun _ _ _ => .inr rfl, fun _ none_ => absurd none_ List.not_mem_nil⟩

theorem Settles.trans {a b c : Nat → Nat → Nat} {first second : List TableStore}
    (early : Settles a first b) (late : Settles b second c) : Settles a (first ++ second) c := by
  refine ⟨?_, ?_, ?_⟩
  · rw [List.foldl_append, early.done, late.done]
  · intro table i range
    rcases early.kept table i range with clear | same
    · exact .inl clear
    · rcases late.kept table i range with clear | stays
      · exact .inl (same ▸ clear)
      · exact .inr (stays.trans same)
  · intro s member
    rcases List.mem_append.mp member with old | new
    · obtain ⟨inside, stored⟩ := early.last s old
      refine ⟨inside, ?_⟩
      rcases stored with zero | stored
      · exact .inl zero
      · rcases late.kept s.table s.index inside with clear | stays
        · exact .inl (stored ▸ clear)
        · exact .inr (stays.trans stored)
    · exact late.last s new

theorem zeroStores_done (mem : Nat → Nat → Nat) (child n : Nat) :
    ((List.range n).map fun i => (⟨child, i, 0⟩ : TableStore)).foldl TableStore.apply mem =
      Function.update mem child (fun i => if i < n then 0 else mem child i) := by
  induction n with
  | zero => simp
  | succ n ih =>
      rw [List.range_succ, List.map_append, List.foldl_append, ih]
      simp only [List.map_cons, List.map_nil, List.foldl_cons, List.foldl_nil, TableStore.apply, setEntry,
        Function.update_self, Function.update_idem]
      congr 1
      funext i
      by_cases here : i = n
      · rw [here, Function.update_self, if_pos (Nat.lt_succ_self n)]
      · rw [Function.update_of_ne here]
        by_cases below : i < n
        · rw [if_pos below, if_pos (Nat.lt_succ_of_lt below)]
        · rw [if_neg below, if_neg (by omega)]

/-- A store to a clear slot. -/
theorem settles_store (mem : Nat → Nat → Nat) (table i word : Nat) (inside : i < 512) (clear : mem table i = 0) :
    Settles mem [⟨table, i, word⟩] (setEntry mem table i word) := by
  refine ⟨rfl, ?_, ?_⟩
  · intro other j _
    by_cases here : other = table ∧ j = i
    · exact .inl (by rw [here.1, here.2, clear])
    · exact .inr (setEntry_other table other i j word here)
  · intro s member
    rw [List.mem_singleton.mp member]
    exact ⟨inside, .inr (setEntry_same table i word)⟩

/-- Zeros over a table that is clear. -/
theorem settles_zeros (mem : Nat → Nat → Nat) (child : Nat) (clear : ∀ i < 512, mem child i = 0) :
    Settles mem (zeroStores child) mem := by
  refine ⟨?_, fun _ _ _ => .inr rfl, ?_⟩
  · rw [zeroStores, zeroStores_done, Function.update_eq_self_iff]
    funext i
    by_cases inside : i < 512
    · rw [if_pos inside, clear i inside]
    · rw [if_neg inside]
  · intro s member
    obtain ⟨i, range, rfl⟩ := List.mem_map.mp member
    exact ⟨List.mem_range.mp range, .inl rfl⟩

end Stores

section Edits

/-- Frames that are not in use are clear. -/
def Clean (m : Machine) : Prop :=
  ∀ k, k < m.pmm.totalFrames → m.pmm.used k = false → ∀ i < 512, m.mem (m.pmm.frame k) i = 0

theorem Clean.markUsed {m : Machine} (clean : Clean m) (k : Nat) : Clean { m with pmm := m.pmm.markUsed k } := by
  intro j below unused i inside
  rw [Pmm.used_markUsed] at unused
  exact clean j (m.pmm.markUsed_totalFrames k ▸ below) (Bool.or_eq_false_iff.mp unused).2 i inside

/-- A store to a frame in use. -/
theorem Clean.store {m : Machine} (clean : Clean m) {table j : Nat} (address : table = m.pmm.frame j)
    (taken : m.pmm.used j = true) (i word : Nat) (event : Event) : Clean ((m.store table i word).emit event) := by
  intro k below unused n inside
  have free : m.pmm.used k = false := unused
  have apart : m.pmm.frame k ≠ table := by
    intro same
    rw [address, frame_injective] at same
    rw [same, taken] at free
    contradiction
  exact (congrFun (Function.update_of_ne apart _ _) n).trans (clean k below free n inside)

variable {m : Machine} (wf : WellFormed m) (clean : Clean m)

include wf clean

theorem getOrAllocTable_settles (path : List Nat) (table i : Nat) (valid : TablePath (i :: path))
    (found : m.tableAt path = some table) :
    Settles m.mem (getOrAllocTableStores m table i) (getOrAllocTable m table i).2.mem ∧
      Clean (getOrAllocTable m table i).2 := by
  have inside : i < 512 := valid.2 i List.mem_cons_self
  by_cases link : m.mem table i &&& 1 ≠ 0
  · simp only [getOrAllocTableStores, getOrAllocTable, if_pos link]
    exact ⟨settles_refl _, clean⟩
  have empty : m.mem table i = 0 := by
    rcases wf.entries path table i valid.tail inside found with zero | set
    · exact zero
    · exact absurd ((entry_clear m wf path table i valid.tail inside found).mpr set) link
  rcases allocFrame_spec m.pmm wf.sound with ⟨k, below, unused, _, alloc⟩ | ⟨_, alloc⟩
  · have nonzero := (frame_address m.pmm wf.sound k below).2.2
    obtain ⟨j, _, address, taken⟩ := wf.owned path table valid.tail found
    have zeros := settles_zeros m.mem (m.pmm.frame k) (clean k below unused)
    have zeroed := zeros.done
    rw [zeroStores, zeroStores_done] at zeroed
    simp only [getOrAllocTableStores, getOrAllocTable, if_neg link, alloc, if_neg nonzero, zeroed]
    refine ⟨zeros.trans (settles_store m.mem table i _ inside empty), ?_⟩
    exact (clean.markUsed k).store address (by rw [Pmm.used_markUsed, taken, Bool.or_true]) i _ _
  · simp only [getOrAllocTableStores, getOrAllocTable, if_neg link, alloc, if_true]
    exact ⟨settles_refl _, clean⟩

/-- A trip of `map` keeps free frames clear, and to a page that is not mapped it settles. -/
theorem mapPage_settles (va phys flags : Nat) :
    Clean (mapPage m va phys flags).1 ∧
      (m.leaf va = 0 → Settles m.mem (mapPageStores m va phys flags) (mapPage m va phys flags).1.mem) := by
  have top : m.tableAt [] = some m.l1Table := rfl
  obtain ⟨upper, clean2⟩ := getOrAllocTable_settles wf clean [] m.l1Table (l1Index va) (l1Path_valid va) top
  rcases getOrAllocTable_step m wf [] m.l1Table (l1Index va) (l1Path_valid va) top with
    ⟨l2, m2, first, l2Nonzero, l2Here, added2⟩ | ⟨first, _⟩
  swap
  · simp only [mapPage, mapPageStores, first, if_true, List.append_nil] at upper ⊢
    exact ⟨clean, fun _ => upper⟩
  rw [first] at upper clean2
  obtain ⟨lower, clean3⟩ := getOrAllocTable_settles added2.wellFormed clean2 [l1Index va] l2 (l2Index va)
    (l3Path_valid va) l2Here
  rcases getOrAllocTable_step m2 added2.wellFormed [l1Index va] l2 (l2Index va) (l3Path_valid va) l2Here with
    ⟨l3, m3, second, l3Nonzero, l3Here, added3⟩ | ⟨second, _⟩
  swap
  · rw [second] at lower clean3
    simp only [mapPage, mapPageStores, first, if_neg l2Nonzero, second, if_true, List.append_nil]
    exact ⟨clean3, fun _ => upper.trans lower⟩
  rw [second] at lower clean3
  obtain ⟨j, _, address, taken⟩ := added3.wellFormed.owned _ l3 (l3Path_valid va) l3Here
  simp only [mapPage, mapPageStores, first, if_neg l2Nonzero, second, if_neg l3Nonzero]
  refine ⟨clean3.store address taken _ _ _, fun absent => upper.trans (lower.trans ?_)⟩
  refine settles_store m3.mem l3 (l3Index va) _ (l3Index_lt va) ?_
  rw [← word_of_table m3 _ l3 _ l3Here]
  exact ((added3.leaves va).trans (added2.leaves va)).trans absent

end Edits

section Maps

theorem SameTables.clean {m m' : Machine} (same : SameTables m m') (clean : Clean m) : Clean m' := by
  obtain ⟨pmm, mem, _⟩ := same
  rw [Clean, pmm, mem]
  exact clean

theorem mapPages_clean (va phys flags trips i : Nat) (m : Machine) (wf : WellFormed m) (clean : Clean m) :
    Clean (mapPages va phys flags trips i m).1 := by
  induction trips generalizing i m with
  | zero => exact clean
  | succ trips ih =>
      have later := (mapPage_settles wf clean ((va + i * pageSize) % 2 ^ 64) ((phys + i * pageSize) % 2 ^ 64) flags).1
      rw [mapPages]
      rcases mapPage_spec m wf ((va + i * pageSize) % 2 ^ 64) ((phys + i * pageSize) % 2 ^ 64) flags
        with ⟨_, m1, done, _, written⟩ | ⟨m1, done, _⟩
      · simp only [done, ↓reduceIte] at later ⊢
        exact ih (i + 1) m1 written.wellFormed later
      · simp only [done, Bool.false_eq_true, ↓reduceIte] at later ⊢
        exact later

theorem map_clean (m : Machine) (wf : WellFormed m) (clean : Clean m) (va phys size flags : Nat) :
    Clean (map m va phys size flags) := by
  have barrier := sameTables_emit m .dsbIshst
  exact (map_edits m va phys size flags).clean
    (mapPages_clean va phys flags _ 0 _ (barrier.wellFormed wf) (barrier.clean clean))

/-- The heap's page goes to a slot that was clear. -/
theorem growPage_settles {m m' : Machine} (wf : WellFormed m) (clean : Clean m) (e : Nat) (small : e < 2 ^ 64)
    (absent : m.leaf e = 0) (grown : Backing.growPage m e = some m') :
    Settles m.mem (growStores m e) m'.mem ∧ Clean m' := by
  rcases allocFrame_spec m.pmm wf.sound with ⟨k, below, _, _, alloc⟩ | ⟨_, alloc⟩
  · have nonzero := (frame_address m.pmm wf.sound k below).2.2
    simp only [Backing.growPage, alloc, if_neg nonzero, Option.some.injEq] at grown
    let taken : Machine := { m with pmm := m.pmm.markUsed k }
    have wf' : WellFormed taken := wf.markUsed k
    have clean' : Clean taken := clean.markUsed k
    have barrier := sameTables_emit taken .dsbIshst
    have edits := map_edits taken e (m.pmm.frame k) pageSize pteNormalRw
    have here : (e + 0 * pageSize) % 2 ^ 64 = e := by omega
    obtain ⟨_, settles⟩ := mapPage_settles (barrier.wellFormed wf') (barrier.clean clean') e
      ((m.pmm.frame k + 0 * pageSize) % 2 ^ 64) pteNormalRw
    have one : intTrips (pageSize / pageSize) = 0 + 1 := by decide
    refine ⟨?_, grown ▸ map_clean taken wf' clean' e _ _ _⟩
    rw [← grown, edits.2.1, one, growStores, alloc]
    simp only [if_neg nonzero, mapStores, one, mapPagesStores, mapPages, here, ite_self, List.append_nil]
    have done := settles ((barrier.leaf e).trans absent)
    split
    · exact done
    · exact done
  · simp [Backing.growPage, alloc] at grown

theorem maps_clean (requests : List MapRequest) (m : Machine) (wf : WellFormed m) (clean : Clean m) :
    Clean (requests.foldl MapRequest.apply m) := by
  induction requests generalizing m with
  | nil => exact clean
  | cons r rest ih =>
      exact ih _ (map_grown m wf r.va r.phys r.size r.flags).1 (map_clean m wf clean r.va r.phys r.size r.flags)

theorem growPage_elsewhere {m m' : Machine} (wf : WellFormed m) (e : Nat) (small : e < 2 ^ 39)
    (grown : Backing.growPage m e = some m') :
    WellFormed m' ∧ m'.l1Table = m.l1Table ∧ ∀ v < 2 ^ 39, v / pageSize ≠ e / pageSize → m'.leaf v = m.leaf v := by
  rcases growPage_spec m wf e with ⟨_, starved⟩ | ⟨k, _, _, result⟩
  · rw [starved] at grown
    contradiction
  · rw [result, Option.some.injEq] at grown
    subst grown
    obtain ⟨wf', tables⟩ := map_grown { m with pmm := m.pmm.markUsed k } (wf.markUsed k) e (m.pmm.frame k) pageSize
      pteNormalRw
    refine ⟨wf', tables.top, fun v low other => map_frame _ (wf.markUsed k) e _ _ _ v ?_⟩
    intro j below same
    have trips : intTrips (pageSize / pageSize) = 1 := by decide
    obtain rfl : j = 0 := by omega
    have here : pageOf e 0 = e := by
      rw [pageOf]
      omega
    rw [here] at same
    exact other ((same_walk v e low small).mp same)

/-- Where RAM starts out zero, `mmu_init` leaves free frames clear. -/
theorem mmuInit_clean (board : Board) (kernelEnd : Nat) (fits : kernelEnd ≤ physMemEnd) (memory : Nat → BitVec 64)
    (mem : Nat → Nat → Nat) (zeroed : ∀ a i, mem a i = 0) (m : Machine)
    (done : mmuInit board kernelEnd memory mem = .ok m) : Clean m := by
  rw [mmuInit_fold] at done
  obtain ⟨first, installed, rest⟩ := (bind_ok_iff _ _ _).mp done
  obtain ⟨k, booted⟩ := installL1Table_booted kernelEnd memory mem first fits installed
  have clear : ∀ a i, first.mem a i = 0 := by
    simp only [installL1Table] at installed
    split at installed
    · contradiction
    · cases installed
      intro a i
      by_cases top : a = (allocFrame (pmmInit kernelEnd memory)).1
      · simp [top, zeroed]
      · simp [Function.update_of_ne top, zeroed]
  cases rest
  exact maps_clean _ first (booted.wellFormed (pmmInit_sound kernelEnd memory fits)) fun _ _ _ i _ => clear _ i

end Maps

/-- The words the walker can see while a call makes its stores, in any order. -/
def Sees (m : Machine) (stores : List TableStore) (table i word : Nat) : Prop :=
  word = m.mem table i ∨ ⟨table, i, word⟩ ∈ stores

/-- The heap's end and its tables, and what the hardware holds on to. -/
structure Walked where
  heapEnd : Nat
  back : Machine
  held : Set Held

/-- The walker goes on between two pages of the heap and while one is mapped. An
invalidation is one more thing that is dropped. -/
inductive Walked.Step (chip : Chip) : Walked → Walked → Prop where
  | rests (e : Nat) (m : Machine) (held held' : Set Held) (caches : chip.regime.Caches m.l1Table (Sees m []) held held') :
      Step chip ⟨e, m, held⟩ ⟨e, m, held'⟩
  | grows (e : Nat) (m m' : Machine) (held held' : Set Held) (inside : e < heapBase + heapMaxSize)
      (grown : Backing.growPage m e = some m')
      (caches : Relation.ReflTransGen (chip.regime.Caches m.l1Table (Sees m (growStores m e))) held held') :
      Step chip ⟨e, m, held⟩ ⟨e + pageSize, m', held'⟩

abbrev Walked.Runs (chip : Chip) : Walked → Walked → Prop := Relation.ReflTransGen (Walked.Step chip)

/-- Behind the heap's end nothing is mapped, and what is held is what the tables say. -/
structure Walked.Sound (chip : Chip) (x : Walked) : Prop where
  wellFormed : WellFormed x.back
  clean : Clean x.back
  page : x.heapEnd % pageSize = 0
  base : heapBase ≤ x.heapEnd
  absent : ∀ v, x.heapEnd ≤ v → v < heapBase + heapMaxSize → x.back.leaf v = 0
  leads : ∀ e ∈ x.held, chip.regime.Leads x.back.l1Table x.back.mem e

section Walker

variable {chip : Chip}

theorem Settles.sees {m : Machine} {stores : List TableStore} {mem' : Nat → Nat → Nat}
    (settles : Settles m.mem stores mem') (table i word : Nat) (inside : i < 512) (sees : Sees m stores table i word) :
    word = 0 ∨ word = mem' table i := by
  rcases sees with old | new
  · rcases settles.kept table i inside with clear | stays
    · exact .inl (old.trans clear)
    · exact .inr (old.trans stays.symm)
  · rcases (settles.last _ new).2 with zero | stored
    · exact .inl zero
    · exact .inr stored.symm

theorem Walked.Sound.step {x y : Walked} (sound : x.Sound chip) (step : Walked.Step chip x y) : y.Sound chip := by
  cases step with
  | rests e m held held' caches =>
      exact ⟨sound.wellFormed, sound.clean, sound.page, sound.base, sound.absent,
        caches.leads (settles_refl m.mem).sees sound.leads⟩
  | grows e m m' held held' inside grown caches =>
      have page := sound.page
      have base := sound.base
      obtain ⟨settles, clean⟩ := growPage_settles sound.wellFormed sound.clean e
        (Nat.lt_trans inside (by decide)) (sound.absent e (Nat.le_refl e) inside) grown
      obtain ⟨wf', top, leaves⟩ := growPage_elsewhere sound.wellFormed e (Nat.lt_trans inside (by decide)) grown
      refine ⟨wf', clean, ?_, Nat.le_add_right_of_le base, ?_, ?_⟩
      · rw [Nat.add_mod_right]
        exact page
      · intro v above below
        rw [leaves v (Nat.lt_trans below (by decide)) (by simp only [pageSize] at *; omega)]
        exact sound.absent v (Nat.le_of_add_right_le above) below
      · dsimp only
        rw [top]
        exact Regime.caches_lead settles.sees caches fun e member => (sound.leads e member).extend settles.kept

theorem Walked.Sound.runs {x y : Walked} (sound : x.Sound chip) (run : Walked.Runs chip x y) : y.Sound chip := by
  induction run with
  | refl => exact sound
  | tail _ step ih => exact ih.step step

/-- When `mmu_init` turns the MMU on nothing is held, and the heap's window is clear. -/
theorem boot_sound {p : Pmm} {m : Machine} (begins : BootStart p.physMemStart) (law : BootLaw chip.board p m)
    (clean : Clean m) : Walked.Sound chip ⟨heapBase, m, ∅⟩ where
  wellFormed := law.wellFormed
  clean := clean
  page := show heapBase % pageSize = 0 by decide
  base := Nat.le_refl heapBase
  absent := by
    intro v above below
    have outside : ¬ Identity chip.board v := fun same => (chip.identity_apart v same).2.1 ⟨above, below⟩
    have noDevice : ¬ DeviceWindow chip.board v := fun device => outside (.inr device)
    have noRam : ¬ v < physMemEnd := fun ram => outside (.inl ram)
    rw [law.descriptors v (Nat.lt_trans below (by decide)), boot_leaf chip.board chip.known _ begins v,
      if_neg noDevice, if_neg noRam]
  leads := fun _ none_ => absurd none_ (Set.notMem_empty _)

/-- The heap grew to this beside a walker that kept still. -/
def Walked.Reaches (chip : Chip) (start : Walked) (h : Heap Machine) : Prop :=
  HeapShape h ∧ Walked.Runs chip start ⟨h.heapEnd, h.back, ∅⟩

theorem Walked.Reaches.kmalloc {start : Walked} {h h' : Heap Machine} (reaches : Walked.Reaches chip start h)
    (size p : Nat) (small : size ≤ heapMaxSize) (served : kmalloc h size = .ok (p, h')) :
    Walked.Reaches chip start h' := by
  obtain ⟨shape, run⟩ := reaches
  refine ⟨(kmalloc_ok h h' size p shape small served).2.2, ?_⟩
  rw [kmalloc_eq h size (noWrap_small h size shape small)] at served
  by_cases past : h.requiredEnd size > heapBase + heapMaxSize
  · simp [past] at served
  · rw [if_neg past] at served
    obtain ⟨middle, mapped, rest⟩ := (bind_ok_iff _ _ _).mp served
    obtain ⟨grown, _⟩ := lazyMap_invariant (h.requiredEnd size)
      (fun g => Walked.Runs chip start ⟨g.heapEnd, g.back, ∅⟩) (fun g back run short taken => by
        have inside : g.heapEnd < heapBase + heapMaxSize := Nat.lt_of_lt_of_le short (Nat.not_lt.mp past)
        have next : (g.heapEnd + pageSize) % 2 ^ 64 = g.heapEnd + pageSize := by
          simp only [heapBase, heapMaxSize, pageSize] at *
          omega
        dsimp only
        rw [next]
        exact run.tail (.grows _ _ _ _ _ inside taken .refl)) _ h middle run mapped
    obtain ⟨rfl, rfl⟩ := Prod.mk.inj (Except.ok.inj rest)
    exact grown

end Walker

/-- A session that returns is a run of the kernel beside the walker, and after every
such run, with whatever the walker did meanwhile, each page the hardware holds on to is
mapped so and each walk it has begun ends where one that begins now does. -/
theorem kernel_walks_settle (chip : Chip) (banner : List UInt8) (kernelEnd : Nat) (low : 0x80000 ≤ kernelEnd)
    (fits : kernelEnd ≤ physMemEnd) (memory : Nat → BitVec 64) (mem : Nat → Nat → Nat)
    (zeroed : ∀ a i, mem a i = 0) (frames : kernelFrames ≤ (pmmInit kernelEnd memory).totalFrames)
    (raw : Nat → Region) (session : List Typed) : ∃ m, mmuInit chip.board kernelEnd memory mem = .ok m ∧
      Returns (fun r => Walked.Runs chip ⟨heapBase, m, ∅⟩ ⟨r.2.fs.heap.heapEnd, r.2.fs.heap.back, ∅⟩ ∧
        ∀ held, Walked.Runs chip ⟨heapBase, m, ∅⟩ ⟨r.2.fs.heap.heapEnd, r.2.fs.heap.back, held⟩ →
          ∀ e ∈ held, chip.regime.Agrees r.2.fs.heap.back.l1Table r.2.fs.heap.back.mem e)
        (kernelRun chip.board banner kernelEnd memory mem raw session) := by
  obtain ⟨m, done, law, _, keeps⟩ :=
    kernelRun_edits chip.board chip.known banner kernelEnd low fits memory mem frames raw session
  have start := boot_sound (pmmInit_start kernelEnd memory low fits) law
    (mmuInit_clean chip.board kernelEnd fits memory mem zeroed m done)
  refine ⟨m, done, keeps.mono fun r edits => ⟨?_, fun held run e member => ?_⟩⟩
  · have reaches : Walked.Reaches chip ⟨heapBase, m, ∅⟩ r.2.fs.heap :=
      edits.heap (fun _ size p _ small holds served => holds.kmalloc size p small served)
        ⟨kheapInit_shape m, .refl⟩
    exact reaches.2
  · exact ((start.runs run).leads e member).agrees

theorem kernel_walks_settle_small_kernel : ∃ m, mmuInit Chip.pi5.board 0x80000 (fun _ => 0#64) (fun _ _ => 0) = .ok m ∧
    Returns (fun r => Walked.Runs .pi5 ⟨heapBase, m, ∅⟩ ⟨r.2.fs.heap.heapEnd, r.2.fs.heap.back, ∅⟩ ∧
      ∀ held, Walked.Runs .pi5 ⟨heapBase, m, ∅⟩ ⟨r.2.fs.heap.heapEnd, r.2.fs.heap.back, held⟩ →
        ∀ e ∈ held, Chip.pi5.regime.Agrees r.2.fs.heap.back.l1Table r.2.fs.heap.back.mem e)
      (kernelRun Chip.pi5.board [] 0x80000 (fun _ => 0#64) (fun _ _ => 0) (fun _ _ => 255) fileSession) :=
  kernel_walks_settle .pi5 [] 0x80000 (by decide) (by decide) (fun _ => 0#64) (fun _ _ => 0) (fun _ _ => rfl)
    (by decide +kernel) (fun _ _ => 255) fileSession

end KehindeKernel
