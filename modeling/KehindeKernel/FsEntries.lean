import KehindeKernel.FsShape

/-!
Directory entries: names as text, slots as list positions. A directory's listing
is read off its first `inode_size` slots; the entry loops of the source find the
first slot that passes their test.
-/

namespace KehindeKernel

open Outcome Bytes

theorem strlen_spec (bytes line : List UInt8) (ends : Terminated bytes line) :
    strlen bytes = .ok line.length := by
  obtain ⟨rest, rfl, plain⟩ := ends
  induction line with
  | nil => simp [strlen]
  | cons c line ih =>
      obtain ⟨first, later⟩ := not_or.mp (List.mem_cons.not.mp plain)
      simp [strlen, Ne.symm first, ih later]

theorem sameBytes_spec (left right line line' : List UInt8) (ends : Terminated left line)
    (ends' : Terminated right line') (same : line.length = line'.length) :
    sameBytes left right = .ok (decide (line = line')) := by
  obtain ⟨rest, rfl, plain⟩ := ends
  obtain ⟨rest', rfl, plain'⟩ := ends'
  induction line generalizing line' with
  | nil =>
      cases line' with
      | nil => simp [sameBytes]
      | cons d line' => contradiction
  | cons c line ih =>
      cases line' with
      | nil => contradiction
      | cons d line' =>
          obtain ⟨first, later⟩ := not_or.mp (List.mem_cons.not.mp plain)
          obtain ⟨_, later'⟩ := not_or.mp (List.mem_cons.not.mp plain')
          have step := ih line' (Nat.succ.inj same) later later'
          have live : c ≠ 0 ∨ d ≠ 0 := Or.inl (Ne.symm first)
          rw [List.cons_append, List.cons_append, sameBytes, if_pos live]
          by_cases equal : c = d
          · rw [if_neg (not_not.mpr equal), step, equal]
            simp
          · rw [if_pos equal]
            simp [equal]

/-- `name_matches_single` is equality of the two texts. -/
theorem nameMatchesSingle_spec (left right line line' : List UInt8) (ends : Terminated left line)
    (ends' : Terminated right line') :
    nameMatchesSingle left right = .ok (decide (line = line')) := by
  simp only [nameMatchesSingle, strlen_spec left line ends, strlen_spec right line' ends', ok_bind]
  by_cases same : line.length = line'.length
  · rw [if_neg (not_not.mpr same)]
    exact sameBytes_spec left right line line' ends ends' same
  · have different : line ≠ line' := fun equal => same (congrArg List.length equal)
    rw [if_pos same]
    simp [different]

theorem copyName_spec (data : Region) (at_ : Nat) (bytes line : List UInt8)
    (ends : Terminated bytes line) :
    copyName data at_ bytes = .ok (store data at_ (line ++ [0])) := by
  obtain ⟨rest, rfl, plain⟩ := ends
  induction line generalizing data at_ with
  | nil => simp [copyName, store]
  | cons c line ih =>
      obtain ⟨first, later⟩ := not_or.mp (List.mem_cons.not.mp plain)
      simp only [List.cons_append, copyName, if_neg (Ne.symm first), store]
      exact ih _ _ later

def slotOf (chain : List (Nat × Region)) (j : Nat) : Dirent :=
  direntOf (payload chain (j / direntsPerBlock)) (j % direntsPerBlock)

/-- The pointer `dirent_at` computes for slot `j`. -/
def slotPtr (chain : List (Nat × Region)) (j : Nat) : DirentPtr :=
  ⟨Linked.cell 0 chain (j / direntsPerBlock), j % direntsPerBlock⟩

/-- A name and the inode number it resolves to. -/
abbrev Entry := List UInt8 × Nat

def entryOf (d : Dirent) : Entry := (text d.name, d.inodeId)

/-- The listing of a directory node. -/
def Node.entries (n : Node) : List Entry :=
  (List.range n.inode.inodeSize).map fun j => entryOf (slotOf n.chain j)

/-- A slot a directory may hold: a terminated, non-empty name of at most 254 bytes. -/
def WellNamed (d : Dirent) : Prop :=
  0 ∈ d.name ∧ text d.name ≠ [] ∧ (text d.name).length ≤ 254

/-- The slots of a directory: enough blocks, every slot well named. -/
structure SlotsOk (n : Node) : Prop where
  room : n.inode.inodeSize ≤ direntsPerBlock * n.chain.length
  named : ∀ j, j < n.inode.inodeSize → WellNamed (slotOf n.chain j)

theorem direntOf_congr (left right : Region) (i j : Nat)
    (same : ∀ k, k < direntSize → left (direntSize * i + k) = right (direntSize * j + k)) :
    direntOf left i = direntOf right j := by
  have word : decode 8 (fun k => left (direntSize * i + k)) =
      decode 8 (fun k => right (direntSize * j + k)) := by
    apply decode_congr
    intro k below
    exact same k (by simp only [direntSize]; omega)
  have name : load left (direntSize * i + 8) (maxSize + 1) =
      load right (direntSize * j + 8) (maxSize + 1) := by
    apply load_congr
    intro k below
    simp only [Nat.add_assoc]
    exact same (8 + k) (by simp only [direntSize, maxSize] at *; omega)
  rw [direntOf, direntOf, word, name]

theorem entries_length (n : Node) : n.entries.length = n.inode.inodeSize := by
  simp [Node.entries]

theorem entries_get (n : Node) (j : Nat) (inside : j < n.inode.inodeSize) :
    n.entries[j]? = some (entryOf (slotOf n.chain j)) := by
  simp [Node.entries, inside]

variable {σ : Type} {raw : Nat → Region} {s : Fs σ} {nodes : List Node}

theorem slot_block (n : Node) (ok : SlotsOk n) (j : Nat) (inside : j < n.inode.inodeSize) :
    j / direntsPerBlock < n.chain.length := by
  have room : n.inode.inodeSize ≤ 15 * n.chain.length := ok.room
  change j / 15 < n.chain.length
  omega

theorem direntAt_spec (shape : Shape raw s nodes) (n : Node) (member : n ∈ nodes) (ok : SlotsOk n)
    (j : Nat) : direntAt s n.inode j =
      .ok (if j < n.inode.inodeSize then some (slotPtr n.chain j) else none) := by
  unfold direntAt
  by_cases inside : j < n.inode.inodeSize
  · have block := slot_block n ok j inside
    have chain := shape.chains n member
    have some_ : n.inode.firstBlock ≠ 0 := by
      intro null
      rw [chain.null_iff.mp null] at block
      exact Nat.not_lt_zero _ block
    rw [if_neg (Nat.not_le.mpr inside), if_neg some_, if_pos inside,
      Linked.advance_spec _ _ _ chain, if_pos (Nat.le_of_lt block)]
    rfl
  · rw [if_pos (Nat.not_lt.mp inside), if_neg inside]
    rfl

theorem readDirent_spec (shape : Shape raw s nodes) (n : Node) (member : n ∈ nodes) (ok : SlotsOk n)
    (j : Nat) (inside : j < n.inode.inodeSize) :
    readDirent s (slotPtr n.chain j) = .ok (slotOf n.chain j) := by
  obtain ⟨b, stored, data, _⟩ := shape.block_at n member _ (slot_block n ok j inside)
  simp [readDirent, slotPtr, stored, data, slotOf]

/-- The pointers of two slots are equal for one slot only. -/
theorem slotPtr_injective (shape : Shape raw s nodes) (n : Node) (member : n ∈ nodes) (ok : SlotsOk n)
    (i j : Nat) (insideI : i < n.inode.inodeSize) (insideJ : j < n.inode.inodeSize) :
    slotPtr n.chain i = slotPtr n.chain j ↔ i = j := by
  constructor
  · intro same
    obtain ⟨block, slot⟩ := DirentPtr.mk.inj same
    have blockI := slot_block n ok i insideI
    have blockJ := slot_block n ok j insideJ
    have single := shape.single n member
    have index : i / direntsPerBlock = j / direntsPerBlock := by
      have getI : (n.chain.map Prod.fst)[i / direntsPerBlock]? =
          some (Linked.cell 0 n.chain (i / direntsPerBlock)) := by
        rw [List.getElem?_map, payload_get n.chain _ blockI]; rfl
      have getJ : (n.chain.map Prod.fst)[j / direntsPerBlock]? =
          some (Linked.cell 0 n.chain (j / direntsPerBlock)) := by
        rw [List.getElem?_map, payload_get n.chain _ blockJ]; rfl
      rw [block, ← getJ] at getI
      exact (List.getElem?_inj (by simpa using blockI) single).mp getI
    rw [← Nat.div_add_mod i direntsPerBlock, ← Nat.div_add_mod j direntsPerBlock, index, slot]
  · exact fun same => same ▸ rfl

/-- What an entry loop over slots `i, i+1, .., i+trips-1` returns. -/
theorem scanDirents_spec (shape : Shape raw s nodes) (n : Node) (member : n ∈ nodes) (ok : SlotsOk n)
    (test : List UInt8 → Run Bool) (check : List UInt8 → Bool)
    (agree : ∀ j, j < n.inode.inodeSize →
      test (slotOf n.chain j).name = .ok (check (text (slotOf n.chain j).name)))
    (trips i : Nat) (last : Option DirentPtr) (inside : i + trips ≤ n.inode.inodeSize) :
    (∃ j, i ≤ j ∧ j < i + trips ∧ check (text (slotOf n.chain j).name) = true ∧
      (∀ k, i ≤ k → k < j → check (text (slotOf n.chain k).name) = false) ∧
      scanDirents s n.inode test trips i last = .ok (.found (slotPtr n.chain j))) ∨
    ((∀ k, i ≤ k → k < i + trips → check (text (slotOf n.chain k).name) = false) ∧
      scanDirents s n.inode test trips i last =
        .ok (.exhausted (if trips = 0 then last else some (slotPtr n.chain (i + trips - 1))))) := by
  induction trips generalizing i last with
  | zero => exact Or.inr ⟨fun k lower upper => by omega, rfl⟩
  | succ trips ih =>
      have here : i < n.inode.inodeSize := by omega
      -- one trip: the slot is there, and the test decides
      have step : scanDirents s n.inode test (trips + 1) i last =
          if check (text (slotOf n.chain i).name) then .ok (.found (slotPtr n.chain i))
          else scanDirents s n.inode test trips (i + 1) (some (slotPtr n.chain i)) := by
        simp only [scanDirents, direntAt_spec shape n member ok i, if_pos here, ok_bind,
          readDirent_spec shape n member ok i here, agree i here]
        rfl
      by_cases hit : check (text (slotOf n.chain i).name) = true
      · left
        exact ⟨i, Nat.le_refl i, by omega, hit, fun k lower upper => by omega, by rw [step, if_pos hit]⟩
      · have miss : check (text (slotOf n.chain i).name) = false := by simpa using hit
        rw [if_neg hit] at step
        rcases ih (i + 1) (some (slotPtr n.chain i)) (by omega) with
          ⟨j, lower, upper, found, before, done⟩ | ⟨none, done⟩
        · left
          refine ⟨j, by omega, by omega, found, ?_, by rw [step, done]⟩
          intro k low high
          by_cases first : k = i
          · rw [first]; exact miss
          · exact before k (by omega) high
        · right
          refine ⟨?_, ?_⟩
          · intro k low high
            by_cases first : k = i
            · rw [first]; exact miss
            · exact none k (by omega) (by omega)
          · rw [step, done, if_neg (Nat.succ_ne_zero trips)]
            have place : i + (trips + 1) - 1 = i + 1 + trips - 1 := by omega
            by_cases only : trips = 0
            · subst only
              simp
            · rw [if_neg only, place]

end KehindeKernel
