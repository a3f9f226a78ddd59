import KehindeKernel.FsTree
import KehindeKernel.Lib.SwapRemove
import Mathlib.Data.List.Nodup

/-!
`fs_create`, `fs_unlink` and `fs_readdir` on the listing of a directory: creation
appends an entry, removal overwrites the entry with the last one and drops the
last position. Each call returns exactly when its contract says, or panics for
lack of heap.
-/

namespace KehindeKernel

open Outcome Bytes SwapRemove

/-- The state of a well-formed filesystem between two calls. -/
structure FsOk {σ : Type} (raw : Nat → Region) (s : Fs σ) (nodes : List Node) : Prop where
  shape : Shape raw s nodes
  tree : Tree nodes

theorem Longer.slots {raw : Nat → Region} {n n2 : Node} (longer : Longer raw n n2) (ok : SlotsOk n) (j : Nat)
    (inside : j < n.inode.inodeSize) : slotOf n2.chain j = slotOf n.chain j := by
  rw [slotOf, slotOf, longer.kept _ (slot_block n ok j inside)]

/-- `n'` lists what `n` lists and one entry more. -/
structure Added (n n' : Node) (line : List UInt8) (ino : Nat) : Prop where
  inode : n'.inode.ino = n.inode.ino ∧ n'.inode.inodeType = n.inode.inodeType ∧
    n'.inode.inodeSize = n.inode.inodeSize + 1
  slots : SlotsOk n'
  entries : n'.entries = n.entries ++ [(line, ino)]

/-- The payload `fs_create` leaves in the block it writes. -/
def createdPayload (data : Region) (slot ino : Nat) (line : List UInt8) : Region :=
  store (store data (direntSize * slot) (encode 8 ino)) (direntSize * slot + 8) (line ++ [0])

theorem createdPayload_slots (data : Region) (slot ino : Nat) (line : List UInt8) (plain : 0 ∉ line)
    (short : line.length ≤ 254) (small : ino < 2 ^ 64) :
    Terminated (direntOf (createdPayload data slot ino line) slot).name line ∧
    (direntOf (createdPayload data slot ino line) slot).inodeId = ino ∧
    (∀ other k, other ≠ slot → k < direntSize →
      createdPayload data slot ino line (direntSize * other + k) = data (direntSize * other + k)) := by
  have size : direntSize = 264 := rfl
  refine ⟨?_, ?_, ?_⟩
  · exact load_store_line _ _ (maxSize + 1) line plain (by simp only [maxSize]; omega)
  · dsimp only [direntOf]
    apply decode_encode 8 ino small
    intro i below
    simp only [createdPayload, store_get, encode_length, List.length_append, List.length_singleton]
    rw [if_neg (by omega), if_pos (by omega)]
    congr 1
    omega
  · intro other k different below
    simp only [createdPayload, store_get, encode_length, List.length_append, List.length_singleton]
    rw [size] at *
    have apart : other < slot ∨ slot < other := Nat.lt_or_gt_of_ne different
    rw [if_neg (by omega), if_neg (by omega)]

def Node.addEntry (n : Node) (ino : Nat) (line : List UInt8) : Node :=
  (n.resize (n.inode.inodeSize + 1)).write (n.inode.inodeSize / direntsPerBlock)
    (createdPayload (payload n.chain (n.inode.inodeSize / direntsPerBlock))
      (n.inode.inodeSize % direntsPerBlock) ino line)

theorem addEntry_added {raw : Nat → Region} (n n2 : Node) (ok : SlotsOk n) (longer : Longer raw n n2)
    (room : n.inode.inodeSize / direntsPerBlock < n2.chain.length) (line : List UInt8) (ino : Nat)
    (plain : 0 ∉ line) (nonempty : line ≠ []) (short : line.length ≤ 254) (small : ino < 2 ^ 64) :
    Added n (n2.addEntry ino line) line ino := by
  obtain ⟨sameIno, sameType, sameSize⟩ := longer.inode
  obtain ⟨ends, id, others⟩ := createdPayload_slots
    (payload n2.chain (n.inode.inodeSize / direntsPerBlock)) (n.inode.inodeSize % direntsPerBlock) ino
    line plain short small
  have shown : n2.addEntry ino line = (n2.resize (n.inode.inodeSize + 1)).write
      (n.inode.inodeSize / direntsPerBlock)
      (createdPayload (payload n2.chain (n.inode.inodeSize / direntsPerBlock))
        (n.inode.inodeSize % direntsPerBlock) ino line) := by
    rw [Node.addEntry, sameSize]
  have old : ∀ j, j < n.inode.inodeSize → slotOf (n2.addEntry ino line).chain j = slotOf n.chain j := by
    intro j inside
    rw [shown, slotOf_write (n2.resize (n.inode.inodeSize + 1)) _ j _ room, ← longer.slots ok j inside]
    · rfl
    · intro block k below
      apply others _ k _ below
      -- equal block and equal slot would make it the new position
      intro slot
      have equal : j = n.inode.inodeSize := by
        rw [← Nat.div_add_mod j direntsPerBlock, block, slot, Nat.div_add_mod]
      omega
  have new : slotOf (n2.addEntry ino line).chain n.inode.inodeSize =
      direntOf (createdPayload (payload n2.chain (n.inode.inodeSize / direntsPerBlock))
        (n.inode.inodeSize % direntsPerBlock) ino line) (n.inode.inodeSize % direntsPerBlock) := by
    rw [shown, slotOf, payload_write (n2.resize (n.inode.inodeSize + 1)) _ _ _ room, if_pos rfl]
  have sizeNew : (n2.addEntry ino line).inode.inodeSize = n.inode.inodeSize + 1 := by
    rw [shown]; rfl
  refine ⟨⟨sameIno, sameType, sizeNew⟩, ⟨?_, ?_⟩, ?_⟩
  · have length : (n2.addEntry ino line).chain.length = n2.chain.length := by
      simp [Node.addEntry, Node.write, Node.resize]
    have per : direntsPerBlock = 15 := rfl
    rw [per] at room
    rw [sizeNew, length, per]
    omega
  · intro j below
    rw [sizeNew] at below
    by_cases last : j = n.inode.inodeSize
    · rw [last, new, WellNamed, ends.text_eq]
      obtain ⟨rest, shape, _⟩ := ends
      exact ⟨by rw [shape]; simp, nonempty, short⟩
    · have before : j < n.inode.inodeSize := by omega
      rw [old j before]
      exact ok.named j before
  · have front : (List.range n.inode.inodeSize).map
        (fun j => entryOf (slotOf (n2.addEntry ino line).chain j)) = n.entries := by
      apply List.map_congr_left
      intro j member
      rw [old j (List.mem_range.mp member)]
    rw [Node.entries, sizeNew, List.range_succ, List.map_append, front, List.map_singleton, new,
      entryOf, ends.text_eq, id]

/-- `n'` lists what `n` lists, the last entry in the place of the one named `line`. -/
structure Removed (n n' : Node) (line : List UInt8) : Prop where
  inode : n'.inode.ino = n.inode.ino ∧ n'.inode.inodeType = n.inode.inodeType ∧
    n'.inode.inodeSize = n.inode.inodeSize - 1
  slots : SlotsOk n'
  entries : ∃ j ino, n.entries[j]? = some (line, ino) ∧ n'.entries = swapRemove n.entries j

/-- Both ways `fs_unlink` ends: the last slot has moved to slot `j`. -/
theorem removed_of_slots (n n' : Node) (ok : SlotsOk n) (j : Nat) (inside : j < n.inode.inodeSize)
    (line : List UInt8) (named : text (slotOf n.chain j).name = line)
    (inode : n'.inode.ino = n.inode.ino ∧ n'.inode.inodeType = n.inode.inodeType ∧
      n'.inode.inodeSize = n.inode.inodeSize - 1)
    (length : n'.chain.length = n.chain.length)
    (moved : ∀ k, k < n.inode.inodeSize - 1 → slotOf n'.chain k =
      if k = j then slotOf n.chain (n.inode.inodeSize - 1) else slotOf n.chain k) :
    Removed n n' line := by
  have size := inode.2.2
  refine ⟨inode, ⟨?_, ?_⟩, j, (slotOf n.chain j).inodeId, ?_, ?_⟩
  · rw [size, length]
    exact Nat.le_trans (Nat.sub_le _ _) ok.room
  · intro k below
    rw [size] at below
    rw [moved k below]
    by_cases hit : k = j
    · rw [if_pos hit]
      exact ok.named _ (by omega)
    · rw [if_neg hit]
      exact ok.named k (by omega)
  · rw [entries_get n j inside, entryOf, named]
  · apply List.ext_getElem?
    intro k
    by_cases below : k < n.inode.inodeSize - 1
    · rw [entries_get n' k (by omega), swapRemove_get _ _ _ (by rw [entries_length]; exact below),
        moved k below, entries_length, entries_get n _ (by omega), entries_get n k (by omega)]
      by_cases hit : k = j
      · rw [if_pos hit, if_pos hit]
      · rw [if_neg hit, if_neg hit]
    · rw [List.getElem?_eq_none (by rw [entries_length]; omega),
        List.getElem?_eq_none (by rw [swapRemove_length, entries_length]; omega)]

section Scan

variable {σ : Type} {raw : Nat → Region} {s : Fs σ} {nodes : List Node}

theorem Shape.size_small (shape : Shape raw s nodes) (n : Node) (member : n ∈ nodes) (ok : SlotsOk n) :
    n.inode.inodeSize ≤ 3840 := by
  have short := shape.chain_length n member
  have room : n.inode.inodeSize ≤ 15 * n.chain.length := ok.room
  omega

theorem Shape.nextIno_small (shape : Shape raw s nodes) : s.nextIno < 2 ^ 32 := by
  have room := shape.length_lt
  rw [shape.counted]
  simp only [walkFuel, heapMaxSize] at room
  omega

theorem mem_names (n : Node) (line : List UInt8) :
    line ∈ n.entries.map Prod.fst ↔ ∃ j, j < n.inode.inodeSize ∧ text (slotOf n.chain j).name = line := by
  simp [Node.entries, entryOf]

theorem scanName_spec (shape : Shape raw s nodes) (n : Node) (member : n ∈ nodes) (ok : SlotsOk n)
    (name line : List UInt8) (ends : Terminated name line) :
    (∃ j, j < n.inode.inodeSize ∧ text (slotOf n.chain j).name = line ∧
      scanDirents s n.inode (fun entry => nameMatchesSingle entry name) (intTrips n.inode.inodeSize) 0
        none = .ok (.found (slotPtr n.chain j))) ∨
    (line ∉ n.entries.map Prod.fst ∧
      scanDirents s n.inode (fun entry => nameMatchesSingle entry name) (intTrips n.inode.inodeSize) 0
        none = .ok (.exhausted (if n.inode.inodeSize = 0 then none
          else some (slotPtr n.chain (n.inode.inodeSize - 1))))) := by
  have small := shape.size_small n member ok
  have trips : intTrips n.inode.inodeSize = n.inode.inodeSize := intTrips_small _ (by omega)
  have agree : ∀ j, j < n.inode.inodeSize → nameMatchesSingle (slotOf n.chain j).name name =
      .ok (decide (text (slotOf n.chain j).name = line)) := fun j inside =>
    nameMatchesSingle_spec _ _ _ _ (terminated_text _ (ok.named j inside).1) ends
  rw [trips]
  rcases scanDirents_spec shape n member ok (fun entry => nameMatchesSingle entry name)
    (fun t => decide (t = line)) agree n.inode.inodeSize 0 none (by omega) with
    ⟨j, _, inside, hit, _, done⟩ | ⟨misses, done⟩
  · exact Or.inl ⟨j, by omega, of_decide_eq_true hit, done⟩
  · refine Or.inr ⟨?_, by rw [done, Nat.zero_add]⟩
    rw [mem_names]
    rintro ⟨j, inside, same⟩
    exact of_decide_eq_false (misses j (Nat.zero_le j) (by omega)) same

theorem linkDirent_spec (shape : Shape raw s nodes) {pIno : Nat} {n : Node}
    (found : findNode nodes pIno = some n) (room : n.inode.inodeSize / direntsPerBlock < n.chain.length)
    (small : n.inode.inodeSize + 1 < 2 ^ 64) (ino : Nat) (name line : List UInt8)
    (ends : Terminated name line) :
    ∃ s', linkDirent s n.addr ino name = .ok s' ∧ s'.heap = s.heap ∧
      Shape raw s' (replaceNode nodes pIno (n.addEntry ino line)) := by
  obtain ⟨member, number⟩ := findNode_some found
  obtain ⟨b, stored, data, _⟩ := shape.block_at n member _ room
  have walk := Linked.advance_spec (n.inode.inodeSize / direntsPerBlock) _ _ (shape.chains n member)
  have wrap : (n.inode.inodeSize + 1) % 2 ^ 64 = n.inode.inodeSize + 1 := Nat.mod_eq_of_lt small
  have resized := shape.resize found (n.inode.inodeSize + 1)
  have written := resized.store (findNode_replaced found number) (n.inode.inodeSize / direntsPerBlock)
    room b stored (createdPayload (payload n.chain (n.inode.inodeSize / direntsPerBlock))
      (n.inode.inodeSize % direntsPerBlock) ino line)
  rw [replaceNode_replace nodes pIno (n.resize (n.inode.inodeSize + 1)) _ number] at written
  refine ⟨_, ?_, ?_, written⟩
  · simp only [linkDirent, (shape.stored n member).2, fetch_some, ok_bind, walk,
      if_pos (Nat.le_of_lt room), Option.getD_some, Fs.setInode, stored, wrap,
      copyName_spec _ _ name line ends, pure_ok, data]
    rfl
  · rfl

/-- What the copy of the last slot leaves in the block of slot `j`. -/
def movedPayload (n : Node) (j last : Nat) : Region :=
  store (payload n.chain (j / direntsPerBlock)) (direntSize * (j % direntsPerBlock))
    (load (payload n.chain (last / direntsPerBlock)) (direntSize * (last % direntsPerBlock)) direntSize)

theorem movedPayload_slots (n : Node) (ok : SlotsOk n) (j last k : Nat)
    (inside : j < n.inode.inodeSize) :
    slotOf (n.write (j / direntsPerBlock) (movedPayload n j last)).chain k =
      if k = j then slotOf n.chain last else slotOf n.chain k := by
  have block := slot_block n ok j inside
  by_cases hit : k = j
  · subst hit
    rw [if_pos rfl, slotOf, payload_write n _ _ _ block, if_pos rfl]
    apply direntOf_congr
    intro i below
    rw [movedPayload, store_get, load_length, if_pos (by omega),
      Nat.add_sub_cancel_left, load_get _ _ _ _ below]
  · rw [if_neg hit]
    apply slotOf_write n _ k _ block
    intro same i below
    have different : k % direntsPerBlock ≠ j % direntsPerBlock := by
      intro slot
      exact hit (by rw [← Nat.div_add_mod k direntsPerBlock, same, slot, Nat.div_add_mod])
    have apart := Nat.lt_or_gt_of_ne different
    rw [movedPayload, store_get, load_length, if_neg]
    simp only [direntSize] at *
    omega

theorem copyDirent_spec (shape : Shape raw s nodes) {pIno : Nat} {n : Node}
    (found : findNode nodes pIno = some n) (ok : SlotsOk n) (j last : Nat)
    (inside : j < n.inode.inodeSize) (insideLast : last < n.inode.inodeSize) :
    ∃ s', copyDirent s (slotPtr n.chain j) (slotPtr n.chain last) = .ok s' ∧ s'.heap = s.heap ∧
      Shape raw s' (replaceNode nodes pIno (n.write (j / direntsPerBlock) (movedPayload n j last))) := by
  obtain ⟨member, _⟩ := findNode_some found
  have block := slot_block n ok j inside
  obtain ⟨b, stored, data, _⟩ := shape.block_at n member _ block
  obtain ⟨c, storedLast, dataLast, _⟩ := shape.block_at n member _ (slot_block n ok last insideLast)
  refine ⟨_, ?_, ?_, shape.store found _ block b stored (movedPayload n j last)⟩
  · simp only [copyDirent, slotPtr, stored, storedLast, fetch_some, ok_bind, data, dataLast]
    rfl
  · rfl

def RemovesFrom (nodes : List Node) (n : Node) (line : List UInt8) : Prop :=
  n.inode.inodeType = 2 ∧ ∃ ino, (line, ino) ∈ n.entries ∧
    ∀ m, findNode nodes ino = some m → ¬ (m.inode.inodeType = 2 ∧ m.inode.inodeSize ≠ 0)

theorem Removed.tree (tree : Tree nodes) {pIno : Nat} {n n' : Node} {line : List UInt8}
    (found : findNode nodes pIno = some n) (dir : n.inode.inodeType = 2) (removed : Removed n n' line) :
    Tree (replaceNode nodes pIno n') := by
  obtain ⟨member, number⟩ := findNode_some found
  obtain ⟨j, ino, listed, entries⟩ := removed.entries
  have inside : j < n.entries.length := (List.getElem?_eq_some_iff.mp listed).1
  apply tree.replace_dir member number dir (removed.inode.1.trans number)
    (removed.inode.2.1.trans dir) removed.slots
  · rw [entries]
    exact swapRemove_nodup Prod.fst n.entries j inside (tree.names n member dir)
  · rw [entries]
    exact swapRemove_nodup Prod.snd n.entries j inside (tree.ids n member dir)
  · intro e inE
    rw [entries] at inE
    exact Or.inl (mem_swapRemove n.entries j inside e inE)

theorem unlinkSubject_spec (shape : Shape raw s nodes) (tree : Tree nodes) {pIno : Nat} {n : Node}
    (found : findNode nodes pIno = some n) (dir : n.inode.inodeType = 2) {name line : List UInt8}
    (ends : Terminated name line) (j : Nat) (inside : j < n.inode.inodeSize)
    (named : text (slotOf n.chain j).name = line) :
    (∃ n' s', (∀ m, findNode nodes (slotOf n.chain j).inodeId = some m →
        ¬ (m.inode.inodeType = 2 ∧ m.inode.inodeSize ≠ 0)) ∧ Removed n n' line ∧
      n'.chain.length = n.chain.length ∧
      unlinkSubject s n.addr n.inode name (some (slotPtr n.chain j)) = .ok (0, s') ∧
      s'.heap = s.heap ∧ Shape raw s' (replaceNode nodes pIno n')) ∨
    ((∃ m, findNode nodes (slotOf n.chain j).inodeId = some m ∧
        m.inode.inodeType = 2 ∧ m.inode.inodeSize ≠ 0) ∧
      unlinkSubject s n.addr n.inode name (some (slotPtr n.chain j)) = .ok (-1, s)) := by
  obtain ⟨member, number⟩ := findNode_some found
  have slots := tree.slots n member dir
  have small := shape.size_small n member slots
  have minus : sub64 n.inode.inodeSize 1 = n.inode.inodeSize - 1 := by
    rw [sub64]
    omega
  have lastInside : n.inode.inodeSize - 1 < n.inode.inodeSize := by omega
  have hit := nameMatchesSingle_spec _ name _ line (terminated_text _ (slots.named j inside).1) ends
  rw [decide_eq_true named] at hit
  have listed : entryOf (slotOf n.chain j) ∈ n.entries :=
    List.mem_of_getElem? (entries_get n j inside)
  obtain ⟨_, m, inM, numberM⟩ := tree.targets n member dir _ listed
  have target : findNode nodes (slotOf n.chain j).inodeId = some m := by
    rw [show (slotOf n.chain j).inodeId = m.inode.ino from numberM.symm]
    exact findNode_unique shape.distinct m inM
  obtain ⟨pointer, nonnull, stored⟩ := findInode_hit shape target
  -- behind its checks the code has three ways to go: refuse, drop the last slot, or move it
  have reaches : unlinkSubject s n.addr n.inode name (some (slotPtr n.chain j)) =
      (if m.inode.inodeType = 2 ∧ m.inode.inodeSize ≠ 0 then pure (-1, s)
      else if slotPtr n.chain j = slotPtr n.chain (n.inode.inodeSize - 1) then
        pure (0, s.setInode n.addr { n.inode with inodeSize := n.inode.inodeSize - 1 })
      else do
        let s ← copyDirent s (slotPtr n.chain j) (slotPtr n.chain (n.inode.inodeSize - 1))
        pure (0, s.setInode n.addr { n.inode with inodeSize := n.inode.inodeSize - 1 })) := by
    simp only [unlinkSubject, readDirent_spec shape n member slots j inside, ok_bind, hit,
      Bool.true_eq_false, ↓reduceIte, minus, direntAt_spec shape n member slots, if_pos lastInside,
      pointer, if_neg nonnull, stored, fetch_some]
  rw [reaches]
  by_cases full : m.inode.inodeType = 2 ∧ m.inode.inodeSize ≠ 0
  · exact Or.inr ⟨⟨m, target, full⟩, if_pos full⟩
  · left
    rw [if_neg full]
    have same := slotPtr_injective shape n member slots j _ inside lastInside
    have open_ : ∀ k, findNode nodes (slotOf n.chain j).inodeId = some k →
        ¬ (k.inode.inodeType = 2 ∧ k.inode.inodeSize ≠ 0) := by
      intro k foundK
      rw [target, Option.some.injEq] at foundK
      exact foundK ▸ full
    by_cases tail : j = n.inode.inodeSize - 1
    · rw [if_pos (same.mpr tail)]
      refine ⟨n.resize (n.inode.inodeSize - 1), _, open_, ?_, rfl, rfl, ?_, shape.resize found _⟩
      on_goal 2 => rfl
      refine removed_of_slots n _ slots j inside line named ⟨rfl, rfl, rfl⟩ rfl ?_
      intro k below
      rw [if_neg (by omega)]
      rfl
    · rw [if_neg (mt same.mp tail)]
      obtain ⟨s1, copied, sameHeap, shape1⟩ := copyDirent_spec shape found slots j _ inside lastInside
      have resized := shape1.resize (findNode_replaced found number) (n.inode.inodeSize - 1)
      rw [replaceNode_replace nodes pIno
        (n.write (j / direntsPerBlock) (movedPayload n j (n.inode.inodeSize - 1))) _ number] at resized
      refine ⟨(n.write (j / direntsPerBlock) (movedPayload n j (n.inode.inodeSize - 1))).resize
        (n.inode.inodeSize - 1), _, open_, ?_, ?_, by rw [copied]; rfl, ?_, resized⟩
      on_goal 3 => exact sameHeap
      on_goal 2 => simp [Node.write, Node.resize]
      refine removed_of_slots n _ slots j inside line named ⟨rfl, rfl, rfl⟩ ?_ ?_
      · simp [Node.write, Node.resize]
      · intro k _
        exact movedPayload_slots n slots j _ k inside

theorem fsUnlink_spec (ok : FsOk raw s nodes) (parentIno : Nat) (name line : List UInt8)
    (ends : Terminated name line) :
    (∃ n n' s', findNode nodes parentIno = some n ∧ RemovesFrom nodes n line ∧ Removed n n' line ∧
      n'.chain.length = n.chain.length ∧ fsUnlink s parentIno name = .ok (0, s') ∧ s'.heap = s.heap ∧
      FsOk raw s' (replaceNode nodes parentIno n')) ∨
    ((∀ n, findNode nodes parentIno = some n → ¬ RemovesFrom nodes n line) ∧
      fsUnlink s parentIno name = .ok (-1, s)) := by
  obtain ⟨shape, tree⟩ := ok
  cases found : findNode nodes parentIno with
  | none =>
      refine Or.inr ⟨fun n absent => by contradiction, ?_⟩
      simp [fsUnlink, findInode_miss shape found]
  | some n =>
      obtain ⟨member, number⟩ := findNode_some found
      obtain ⟨pointer, nonnull, stored⟩ := findInode_hit shape found
      by_cases closed : n.inode.inodeType ≠ 2 ∨ n.inode.inodeSize = 0
      · right
        refine ⟨?_, by simp [fsUnlink, pointer, nonnull, stored, closed]⟩
        rintro m same ⟨dirM, ino, listed, _⟩
        rw [← Option.some.inj same] at dirM listed
        rcases closed with file | empty
        · exact file dirM
        · rw [Node.entries, empty] at listed
          simp at listed
      · obtain ⟨dir, some_⟩ := not_or.mp closed
        have dir : n.inode.inodeType = 2 := not_not.mp dir
        have slots := tree.slots n member dir
        have reaches : ∀ subject scan, scanDirents s n.inode (fun entry => nameMatchesSingle entry name)
              (intTrips n.inode.inodeSize) 0 none = .ok scan →
            (∃ d, scan = .found d ∧ subject = some d) ∨ scan = .exhausted subject →
            fsUnlink s parentIno name = unlinkSubject s n.addr n.inode name subject := by
          rintro subject scan done (⟨d, rfl, rfl⟩ | rfl)
          · simp only [fsUnlink, pointer, ok_bind, if_neg nonnull, stored, fetch_some, if_neg closed, done]
          · simp only [fsUnlink, pointer, ok_bind, if_neg nonnull, stored, fetch_some, if_neg closed, done]
        rcases scanName_spec shape n member slots name line ends with
          ⟨j, inside, named, done⟩ | ⟨fresh, done⟩
        · rw [reaches _ _ done (Or.inl ⟨_, rfl, rfl⟩)]
          have listed : (line, (slotOf n.chain j).inodeId) ∈ n.entries := by
            have get := List.mem_of_getElem? (entries_get n j inside)
            rwa [entryOf, named] at get
          rcases unlinkSubject_spec shape tree found dir ends j inside named with
            ⟨n', s', empty, removed, length, returned, sameHeap, shape'⟩ | ⟨⟨m, target, full⟩, returned⟩
          · left
            exact ⟨n, n', s', rfl, ⟨dir, _, listed, empty⟩, removed, length, returned, sameHeap, shape',
              removed.tree tree found dir⟩
          · right
            refine ⟨?_, returned⟩
            rintro k same ⟨_, ino, listedK, empty⟩
            rw [← Option.some.inj same] at listedK
            -- a name is listed once, so the refused inode is the one the loop found
            have one := List.inj_on_of_nodup_map (tree.names n member dir) listed listedK rfl
            exact empty m ((Prod.mk.inj one).2 ▸ target) full
        · right
          rw [reaches _ _ done (Or.inr rfl), if_neg some_]
          refine ⟨?_, ?_⟩
          · rintro m same ⟨_, ino, listed, _⟩
            rw [← Option.some.inj same] at listed
            exact fresh (List.mem_map.mpr ⟨_, listed, rfl⟩)
          · have lastInside : n.inode.inodeSize - 1 < n.inode.inodeSize := by omega
            have miss := nameMatchesSingle_spec _ name _ line
              (terminated_text _ (slots.named _ lastInside).1) ends
            have different : text (slotOf n.chain (n.inode.inodeSize - 1)).name ≠ line := by
              intro same
              exact fresh ((mem_names n line).mpr ⟨_, lastInside, same⟩)
            rw [decide_eq_false different] at miss
            simp [unlinkSubject, readDirent_spec shape n member slots _ lastInside, miss]

/-- What `fs_readdir` returns for a node: a slot of its listing, the whole record. -/
def readdirResult (found : Option Node) (index : Nat) (out : Bool) : Int × Option Dirent :=
  match found with
  | none => (-1, none)
  | some n =>
      if n.inode.inodeType ≠ 2 ∨ out = false then (-1, none)
      else if index < n.inode.inodeSize then (1, some (slotOf n.chain index))
      else (0, none)

theorem fsReaddir_spec (ok : FsOk raw s nodes) (dirIno index : Nat) (out : Bool) :
    fsReaddir s dirIno index out = .ok (readdirResult (findNode nodes dirIno) index out) := by
  unfold readdirResult
  obtain ⟨shape, tree⟩ := ok
  cases found : findNode nodes dirIno with
  | none => simp [fsReaddir, findInode_miss shape found]
  | some n =>
      obtain ⟨member, _⟩ := findNode_some found
      obtain ⟨pointer, nonnull, stored⟩ := findInode_hit shape found
      simp only [fsReaddir, pointer, ok_bind, if_neg nonnull, stored, fetch_some]
      by_cases dir : n.inode.inodeType = 2
      · have slots := tree.slots n member dir
        cases out with
        | false => simp [dir]
        | true =>
            by_cases inside : index < n.inode.inodeSize
            · simp [dir, inside, direntAt_spec shape n member slots,
                readDirent_spec shape n member slots index inside]
            · simp [dir, inside]
      · simp [dir]

end Scan

section Calls

variable {σ : Type} [Backing σ] {raw : Nat → Region} {s : Fs σ} {nodes : List Node}

/-- What `fs_create` requests for an entry behind `size` others. -/
def entryBlock (size : Nat) : List Nat := if size % direntsPerBlock = 0 then [blockSize] else []

theorem entryBlock_length (size : Nat) :
    (entryBlock size).length = if size % direntsPerBlock = 0 then 1 else 0 := by
  unfold entryBlock
  split <;> rfl

theorem growIfFull_spec (shape : Shape raw s nodes) {pIno : Nat} {n : Node}
    (found : findNode nodes pIno = some n) (ok : SlotsOk n)
    (link : n.inode.inodeSize % direntsPerBlock = 0 → decode 8 (raw s.heap.bumpPtr) = 0) :
    Follows (fun heap s2 => s2.heap = heap ∧ ∃ n2, Longer raw n n2 ∧
        n2.chain.length = n.chain.length + (entryBlock n.inode.inodeSize).length ∧
        n.inode.inodeSize / direntsPerBlock < n2.chain.length ∧ Shape raw s2 (replaceNode nodes pIno n2))
      (allocs s.heap (entryBlock n.inode.inodeSize)) (growIfFull s n.addr n.inode) := by
  unfold growIfFull
  have per : direntsPerBlock = 15 := rfl
  have room : n.inode.inodeSize ≤ 15 * n.chain.length := ok.room
  by_cases full : n.inode.inodeSize % direntsPerBlock = 0
  · rw [if_pos full, entryBlock, if_pos full]
    apply (appendBlock_spec shape found (link full)).mono
    rintro _ s2 ⟨rfl, _, grown⟩
    refine ⟨rfl, n.grow raw s.heap.bumpPtr, longer_grow n raw _, by simp [Node.grow], ?_, grown⟩
    rw [per] at *
    simp only [Node.grow, List.length_append, List.length_singleton]
    omega
  · rw [if_neg full, entryBlock, if_neg full]
    refine .ok s.heap s ⟨rfl, n, Longer.refl raw n, rfl, ?_, ?_⟩
    · rw [per] at *
      omega
    · rw [replaceNode_self shape.distinct found]
      exact shape

def CreatesIn (n : Node) (line : List UInt8) : Prop :=
  n.inode.inodeType = 2 ∧ 1 ≤ line.length ∧ line.length ≤ 254 ∧ line ∉ n.entries.map Prod.fst

omit [Backing σ] in
theorem Tree.create (shape : Shape raw s nodes) (tree : Tree nodes) {pIno : Nat} {n n' : Node}
    (found : findNode nodes pIno = some n) (dir : n.inode.inodeType = 2) {line : List UInt8}
    (fresh : line ∉ n.entries.map Prod.fst) (added : Added n n' line s.nextIno) (inodeType : UInt8) :
    Tree (replaceNode (newNode s inodeType :: nodes) pIno n') := by
  obtain ⟨member, number⟩ := findNode_some found
  have later : pIno < s.nextIno := number ▸ (shape.numbered n member).2
  have treeNew := tree.cons (newNode s inodeType) rfl
  -- the new number is larger than every number an entry has
  have unused : ∀ m ∈ newNode s inodeType :: nodes, m.inode.inodeType = 2 → ∀ f ∈ m.entries,
      f.2 ≠ s.nextIno := by
    intro m inM dirM f inF same
    rcases List.mem_cons.mp inM with rfl | old
    · simp [newNode, Node.entries] at inF
    · obtain ⟨_, k, inK, numberK⟩ := tree.targets m old dirM f inF
      have below := (shape.numbered k inK).2
      omega
  apply treeNew.replace_dir (List.mem_cons_of_mem _ member) number dir (added.inode.1.trans number)
    (added.inode.2.1.trans dir) added.slots
  · rw [added.entries, List.map_append, List.nodup_append]
    refine ⟨tree.names n member dir, by simp, ?_⟩
    rintro a inA b inB rfl
    simp only [List.map_cons, List.map_nil, List.mem_singleton] at inB
    exact fresh (inB ▸ inA)
  · rw [added.entries, List.map_append, List.nodup_append]
    refine ⟨tree.ids n member dir, by simp, ?_⟩
    rintro a inA b inB rfl
    simp only [List.map_cons, List.map_nil, List.mem_singleton] at inB
    obtain ⟨f, inF, same⟩ := List.mem_map.mp inA
    exact unused n (List.mem_cons_of_mem _ member) dir f inF (same.trans inB)
  · intro e inE
    rw [added.entries] at inE
    rcases List.mem_append.mp inE with old | new
    · exact Or.inl old
    · rw [List.mem_singleton.mp new]
      exact Or.inr ⟨later, ⟨newNode s inodeType, List.mem_cons_self, rfl⟩, unused⟩

/-- `fs_create` behind its checks. -/
theorem createBody_spec (shape : Shape raw s nodes) (tree : Tree nodes) {pIno : Nat} {n : Node}
    (found : findNode nodes pIno = some n) (dir : n.inode.inodeType = 2) {name line : List UInt8}
    (ends : Terminated name line) (nonempty : line ≠ []) (short : line.length ≤ 254)
    (fresh : line ∉ n.entries.map Prod.fst) (inodeType : UInt8)
    (link : n.inode.inodeSize % direntsPerBlock = 0 → decode 8 (raw (s.heap.bumpPtr + 48)) = 0) :
    Follows (fun heap r => r.2.heap = heap ∧ r.1 = s.nextIno ∧ ∃ n', Added n n' line s.nextIno ∧
        n'.chain.length = n.chain.length + (entryBlock n.inode.inodeSize).length ∧
        FsOk raw r.2 (newNode s inodeType :: replaceNode nodes pIno n'))
      (allocs s.heap ([inodeBytes] ++ entryBlock n.inode.inodeSize))
      (do
        let (ino, s) ← allocInode s inodeType
        let s ← growIfFull s n.addr n.inode
        let s ← linkDirent s n.addr ino name
        pure (ino, s)) := by
  obtain ⟨member, number⟩ := findNode_some found
  have slots := tree.slots n member dir
  have plain : 0 ∉ line := by
    obtain ⟨rest, _, plain⟩ := ends
    exact plain
  have later : pIno < s.nextIno := number ▸ (shape.numbered n member).2
  have small := shape.nextIno_small
  have sizeSmall := shape.size_small n member slots
  have front : ∀ n', replaceNode (newNode s inodeType :: nodes) pIno n' =
      newNode s inodeType :: replaceNode nodes pIno n' := by
    intro n'
    have different : (newNode s inodeType).inode.ino ≠ pIno := Nat.ne_of_gt later
    rw [replaceNode, List.map_cons, if_neg different]
    rfl
  rw [allocs_append]
  -- first the inode, then a block if the last one is full, then the slot
  apply (allocInode_spec shape inodeType).bind
  rintro _ ⟨ino, s1⟩ ⟨rfl, here, moved, shape1⟩
  dsimp only at here moved shape1 ⊢
  subst here
  have found1 : findNode (newNode s inodeType :: nodes) pIno = some n := by
    have different : (newNode s inodeType).inode.ino ≠ pIno := Nat.ne_of_gt later
    rw [findNode_cons different]
    exact found
  apply (growIfFull_spec shape1 found1 slots (by rw [moved]; exact link)).rest
  rintro _ s2 ⟨rfl, n2, longer, blocks, room, shape2⟩
  obtain ⟨sameIno, sameType, sameSize⟩ := longer.inode
  have number2 : n2.inode.ino = pIno := sameIno.trans number
  obtain ⟨s3, linked, sameHeap, shape3⟩ := linkDirent_spec shape2 (findNode_replaced found1 number2)
    (by rw [sameSize]; exact room) (by rw [sameSize]; omega) s.nextIno name line ends
  rw [longer.addr] at linked
  rw [linked, ok_bind]
  rw [replaceNode_replace _ pIno n2 _ number2, front] at shape3
  have added := addEntry_added n n2 slots longer room line s.nextIno plain nonempty short (by omega)
  have length : (n2.addEntry s.nextIno line).chain.length = n2.chain.length := by
    simp [Node.addEntry, Node.write, Node.resize]
  refine .ok _ _ ⟨sameHeap, rfl, n2.addEntry s.nextIno line, added, length.trans blocks, shape3, ?_⟩
  rw [← front]
  exact tree.create shape found dir fresh added inodeType

omit [Backing σ] in
theorem name_fits {name line : List UInt8} (ends : Terminated name line) :
    ¬ (line.length ≥ maxSize ∨ line.getD 0 0 = 0) ↔ 1 ≤ line.length ∧ line.length ≤ 254 := by
  obtain ⟨rest, _, plain⟩ := ends
  cases line with
  | nil => simp
  | cons c line =>
      have nonzero : c ≠ 0 := fun zero => plain (zero ▸ List.mem_cons_self)
      simp only [maxSize, List.getD_cons_zero, nonzero, or_false, List.length_cons]
      omega

theorem fsCreate_scan (shape : Shape raw s nodes) (tree : Tree nodes) {pIno : Nat} {n : Node}
    (found : findNode nodes pIno = some n) (dir : n.inode.inodeType = 2) {name line : List UInt8}
    (ends : Terminated name line) (inodeType : UInt8) :
    (CreatesIn n line ∧ fsCreate s pIno name inodeType = (do
        let (ino, s) ← allocInode s inodeType
        let s ← growIfFull s n.addr n.inode
        let s ← linkDirent s n.addr ino name
        pure (ino, s))) ∨
    (¬ CreatesIn n line ∧ fsCreate s pIno name inodeType = .ok (invalidIno, s)) := by
  obtain ⟨member, _⟩ := findNode_some found
  obtain ⟨pointer, nonnull, stored⟩ := findInode_hit shape found
  have first : name[0]? = some (line.getD 0 0) := ends.get 0 (Nat.zero_le _)
  have length := strlen_spec name line ends
  unfold fsCreate
  simp only [pointer, ok_bind, if_neg nonnull, stored, fetch_some, dir, ne_eq, not_true_eq_false,
    ↓reduceIte, length, first]
  by_cases refused : line.length ≥ maxSize ∨ line.getD 0 0 = 0
  · -- a name that is too long or empty is refused before the scan
    rw [if_pos refused]
    exact Or.inr ⟨fun creates => (name_fits ends).mpr ⟨creates.2.1, creates.2.2.1⟩ refused, rfl⟩
  · obtain ⟨nonempty, short⟩ := (name_fits ends).mp refused
    rw [if_neg refused]
    rcases scanName_spec shape n member (tree.slots n member dir) name line ends with
      ⟨j, inside, same, done⟩ | ⟨fresh, done⟩
    · right
      rw [done]
      refine ⟨fun creates => ?_, rfl⟩
      exact creates.2.2.2 ((mem_names n line).mpr ⟨j, inside, same⟩)
    · left
      rw [done]
      exact ⟨⟨dir, nonempty, short, fresh⟩, rfl⟩

theorem fsCreate_spec (ok : FsOk raw s nodes) (parentIno : Nat) (name line : List UInt8)
    (ends : Terminated name line) (inodeType : UInt8)
    (link : ∀ n, findNode nodes parentIno = some n → CreatesIn n line →
      n.inode.inodeSize % direntsPerBlock = 0 → decode 8 (raw (s.heap.bumpPtr + 48)) = 0) :
    (∃ n, findNode nodes parentIno = some n ∧ CreatesIn n line ∧
      Follows (fun heap r => r.2.heap = heap ∧ r.1 = s.nextIno ∧ ∃ n', Added n n' line s.nextIno ∧
          n'.chain.length = n.chain.length + (entryBlock n.inode.inodeSize).length ∧
          FsOk raw r.2 (newNode s inodeType :: replaceNode nodes parentIno n'))
        (allocs s.heap ([inodeBytes] ++ entryBlock n.inode.inodeSize))
        (fsCreate s parentIno name inodeType)) ∨
    ((∀ n, findNode nodes parentIno = some n → ¬ CreatesIn n line) ∧
      fsCreate s parentIno name inodeType = .ok (invalidIno, s)) := by
  obtain ⟨shape, tree⟩ := ok
  cases found : findNode nodes parentIno with
  | none =>
      refine Or.inr ⟨fun n absent => by contradiction, ?_⟩
      simp [fsCreate, findInode_miss shape found]
  | some n =>
      by_cases dir : n.inode.inodeType = 2
      · rcases fsCreate_scan shape tree found dir ends inodeType with ⟨creates, body⟩ | ⟨refused, same⟩
        · refine Or.inl ⟨n, rfl, creates, ?_⟩
          obtain ⟨_, nonempty, short, fresh⟩ := creates
          rw [body]
          exact createBody_spec shape tree found dir ends (List.length_pos_iff.mp nonempty) short fresh inodeType
            (link n found ⟨dir, nonempty, short, fresh⟩)
        · refine Or.inr ⟨?_, same⟩
          rintro m sameNode creates
          exact refused (Option.some.inj sameNode ▸ creates)
      · obtain ⟨pointer, nonnull, stored⟩ := findInode_hit shape found
        refine Or.inr ⟨?_, ?_⟩
        · rintro m same ⟨dirM, _⟩
          exact dir (Option.some.inj same ▸ dirM)
        · simp [fsCreate, pointer, nonnull, stored, dir]

end Calls

end KehindeKernel
