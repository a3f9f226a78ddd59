import KehindeKernel.FsEntries

/-!
The directory graph over the nodes of the store, and the edits a call makes to
one node: a new size, a block's payload, a slot of a directory. `Tree` holds of
every directory the inode list has, linked or unlinked.
-/

namespace KehindeKernel

open Outcome Bytes

/-- What `Shape` does not say: directories list existing inodes with larger
numbers under distinct names, no inode twice, and a size fits its chain. -/
structure Tree (nodes : List Node) : Prop where
  slots : ∀ n ∈ nodes, n.inode.inodeType = 2 → SlotsOk n
  bytes : ∀ n ∈ nodes, n.inode.inodeType ≠ 2 → n.inode.inodeSize ≤ payloadSize * n.chain.length
  names : ∀ n ∈ nodes, n.inode.inodeType = 2 → (n.entries.map Prod.fst).Nodup
  ids : ∀ n ∈ nodes, n.inode.inodeType = 2 → (n.entries.map Prod.snd).Nodup
  targets : ∀ n ∈ nodes, n.inode.inodeType = 2 → ∀ e ∈ n.entries,
    n.inode.ino < e.2 ∧ ∃ m ∈ nodes, m.inode.ino = e.2
  parent : ∀ m ∈ nodes, m.inode.inodeType = 2 → ∀ n ∈ nodes, n.inode.inodeType = 2 →
    ∀ e ∈ m.entries, ∀ f ∈ n.entries, e.2 = f.2 → m.inode.ino = n.inode.ino

theorem tree_nil : Tree [] := by constructor <;> simp

theorem replaceNode_exists {nodes : List Node} {ino : Nat} {n : Node} (number : n.inode.ino = ino)
    (j : Nat) (known : ∃ m ∈ nodes, m.inode.ino = j) :
    ∃ m ∈ replaceNode nodes ino n, m.inode.ino = j := by
  obtain ⟨m, member, same⟩ := known
  by_cases hit : m.inode.ino = ino
  · exact ⟨n, List.mem_map.mpr ⟨m, member, if_pos hit⟩, by rw [number, ← hit, same]⟩
  · exact ⟨m, List.mem_map.mpr ⟨m, member, if_neg hit⟩, same⟩

/-- Replacing a node that is no directory. -/
theorem Tree.replace_file {nodes : List Node} (tree : Tree nodes) {ino : Nat} {n : Node}
    (number : n.inode.ino = ino) (file : n.inode.inodeType ≠ 2)
    (bytes : n.inode.inodeSize ≤ payloadSize * n.chain.length) : Tree (replaceNode nodes ino n) := by
  have old : ∀ m ∈ replaceNode nodes ino n, m.inode.inodeType = 2 → m ∈ nodes := by
    intro m member dir
    rcases mem_replaceNode member with rfl | ⟨inOld, _⟩
    · exact absurd dir file
    · exact inOld
  constructor
  · exact fun m member dir => tree.slots m (old m member dir) dir
  · intro m member notDir
    rcases mem_replaceNode member with rfl | ⟨inOld, _⟩
    · exact bytes
    · exact tree.bytes m inOld notDir
  · exact fun m member dir => tree.names m (old m member dir) dir
  · exact fun m member dir => tree.ids m (old m member dir) dir
  · intro m member dir e inE
    obtain ⟨later, known⟩ := tree.targets m (old m member dir) dir e inE
    exact ⟨later, replaceNode_exists number e.2 known⟩
  · exact fun m inM dirM k inK dirK => tree.parent m (old m inM dirM) dirM k (old k inK dirK) dirK

/-- Replacing a directory: a new entry names an inode that no directory names. -/
theorem Tree.replace_dir {nodes : List Node} (tree : Tree nodes) {ino : Nat} {n n' : Node}
    (member : n ∈ nodes) (same : n.inode.ino = ino) (dir : n.inode.inodeType = 2)
    (number : n'.inode.ino = ino) (type : n'.inode.inodeType = 2) (slots : SlotsOk n')
    (names : (n'.entries.map Prod.fst).Nodup) (ids : (n'.entries.map Prod.snd).Nodup)
    (entries : ∀ e ∈ n'.entries, e ∈ n.entries ∨ (ino < e.2 ∧ (∃ m ∈ nodes, m.inode.ino = e.2) ∧
      ∀ m ∈ nodes, m.inode.inodeType = 2 → ∀ f ∈ m.entries, f.2 ≠ e.2)) :
    Tree (replaceNode nodes ino n') := by
  -- an entry of the new node is named by no other directory
  have lone : ∀ e ∈ n'.entries, ∀ m ∈ nodes, m.inode.inodeType = 2 → ∀ f ∈ m.entries, e.2 = f.2 →
      m.inode.ino = ino := by
    intro e inE m inM dirM f inF equal
    rcases entries e inE with old | ⟨_, _, unused⟩
    · exact (tree.parent m inM dirM n member dir f inF e old equal.symm).trans same
    · exact absurd equal.symm (unused m inM dirM f inF)
  constructor
  · intro m inM dirM
    rcases mem_replaceNode inM with rfl | ⟨inOld, _⟩
    · exact slots
    · exact tree.slots m inOld dirM
  · intro m inM notDir
    rcases mem_replaceNode inM with rfl | ⟨inOld, _⟩
    · exact absurd type notDir
    · exact tree.bytes m inOld notDir
  · intro m inM dirM
    rcases mem_replaceNode inM with rfl | ⟨inOld, _⟩
    · exact names
    · exact tree.names m inOld dirM
  · intro m inM dirM
    rcases mem_replaceNode inM with rfl | ⟨inOld, _⟩
    · exact ids
    · exact tree.ids m inOld dirM
  · intro m inM dirM e inE
    rcases mem_replaceNode inM with rfl | ⟨inOld, _⟩
    · rw [number]
      rcases entries e inE with old | ⟨later, known, _⟩
      · obtain ⟨later, known⟩ := tree.targets n member dir e old
        exact ⟨same ▸ later, replaceNode_exists number e.2 known⟩
      · exact ⟨later, replaceNode_exists number e.2 known⟩
    · obtain ⟨later, known⟩ := tree.targets m inOld dirM e inE
      exact ⟨later, replaceNode_exists number e.2 known⟩
  · intro m inM dirM k inK dirK e inE f inF equal
    rcases mem_replaceNode inM with rfl | ⟨oldM, _⟩
    · rcases mem_replaceNode inK with rfl | ⟨oldK, _⟩
      · rfl
      · exact number.trans (lone e inE k oldK dirK f inF equal).symm
    · rcases mem_replaceNode inK with rfl | ⟨oldK, _⟩
      · exact (lone f inF m oldM dirM e inE equal.symm).trans number.symm
      · exact tree.parent m oldM dirM k oldK dirK e inE f inF equal

/-- A new inode is empty and named by nobody. -/
theorem Tree.cons {nodes : List Node} (tree : Tree nodes) (n : Node) (empty : n.inode.inodeSize = 0) :
    Tree (n :: nodes) := by
  have none : n.entries = [] := by rw [Node.entries, empty]; rfl
  constructor
  · intro m member dir
    rcases List.mem_cons.mp member with rfl | old
    · exact ⟨by rw [empty]; exact Nat.zero_le _, fun j below => by rw [empty] at below; omega⟩
    · exact tree.slots m old dir
  · intro m member notDir
    rcases List.mem_cons.mp member with rfl | old
    · rw [empty]; exact Nat.zero_le _
    · exact tree.bytes m old notDir
  · intro m member dir
    rcases List.mem_cons.mp member with rfl | old
    · simp [none]
    · exact tree.names m old dir
  · intro m member dir
    rcases List.mem_cons.mp member with rfl | old
    · simp [none]
    · exact tree.ids m old dir
  · intro m member dir e inE
    rcases List.mem_cons.mp member with rfl | old
    · simp [none] at inE
    · obtain ⟨later, k, inK, number⟩ := tree.targets m old dir e inE
      exact ⟨later, k, List.mem_cons_of_mem n inK, number⟩
  · intro m inM dirM k inK dirK e inE f inF equal
    rcases List.mem_cons.mp inM with rfl | oldM
    · simp [none] at inE
    · rcases List.mem_cons.mp inK with rfl | oldK
      · simp [none] at inF
      · exact tree.parent m oldM dirM k oldK dirK e inE f inF equal

/-! One node edited in place. -/

def Node.resize (n : Node) (size : Nat) : Node :=
  { n with inode := { n.inode with inodeSize := size } }

/-- The node with another payload in block `i` of its chain. -/
def Node.write (n : Node) (i : Nat) (data : Region) : Node :=
  { n with chain := n.chain.set i (Linked.cell 0 n.chain i, data) }

/-- `n2` is `n` with blocks added at the end of its chain. -/
structure Longer (raw : Nat → Region) (n n2 : Node) : Prop where
  addr : n2.addr = n.addr
  inode : n2.inode.ino = n.inode.ino ∧ n2.inode.inodeType = n.inode.inodeType ∧
    n2.inode.inodeSize = n.inode.inodeSize
  length : n.chain.length ≤ n2.chain.length
  kept : ∀ i, i < n.chain.length → payload n2.chain i = payload n.chain i
  fresh : ∀ i, n.chain.length ≤ i → i < n2.chain.length →
    ∃ b, payload n2.chain i = (rawBlock (raw b)).data

theorem Longer.refl (raw : Nat → Region) (n : Node) : Longer raw n n :=
  ⟨rfl, ⟨rfl, rfl, rfl⟩, Nat.le_refl _, fun _ _ => rfl, fun _ low high => absurd high (Nat.not_lt.mpr low)⟩

theorem Longer.room {raw : Nat → Region} {n n2 : Node} (longer : Longer raw n n2)
    (fits : n.inode.inodeSize ≤ payloadSize * n.chain.length) :
    n2.inode.inodeSize ≤ payloadSize * n2.chain.length := by
  rw [longer.inode.2.2]
  exact fits.trans (Nat.mul_le_mul_left _ longer.length)

theorem Longer.trans {raw : Nat → Region} {n n2 n3 : Node} (first : Longer raw n n2)
    (second : Longer raw n2 n3) : Longer raw n n3 := by
  obtain ⟨ino, type, size⟩ := first.inode
  obtain ⟨ino', type', size'⟩ := second.inode
  refine ⟨second.addr.trans first.addr, ⟨ino'.trans ino, type'.trans type, size'.trans size⟩,
    Nat.le_trans first.length second.length, ?_, ?_⟩
  · intro i inside
    rw [second.kept i (Nat.lt_of_lt_of_le inside first.length), first.kept i inside]
  · intro i low high
    by_cases middle : i < n2.chain.length
    · rw [second.kept i middle]
      exact first.fresh i low middle
    · exact second.fresh i (Nat.not_lt.mp middle) high

theorem payload_append (chain : List (Nat × Region)) (x : Nat × Region) (i : Nat) :
    payload (chain ++ [x]) i = if i = chain.length then x.2 else payload chain i := by
  rw [payload, payload]
  by_cases before : i < chain.length
  · rw [List.getElem?_append_left before, if_neg (Nat.ne_of_lt before)]
  · rw [List.getElem?_append_right (Nat.not_lt.mp before), List.getElem?_eq_none (Nat.not_lt.mp before)]
    by_cases here : i = chain.length
    · subst here
      simp
    · have past : [x].length ≤ i - chain.length := by
        rw [List.length_singleton]
        omega
      rw [if_neg here, List.getElem?_eq_none past]

theorem longer_grow (n : Node) (raw : Nat → Region) (b : Nat) : Longer raw n (n.grow raw b) := by
  obtain ⟨ino, type, size, _⟩ := n.grow_fields raw b
  refine ⟨rfl, ⟨ino, type, size⟩, by simp [Node.grow], ?_, ?_⟩
  · intro i inside
    rw [Node.grow, payload_append, if_neg (Nat.ne_of_lt inside)]
  · intro i low high
    have last : i = n.chain.length := by
      rw [Node.grow, List.length_append, List.length_singleton] at high
      omega
    exact ⟨b, by rw [Node.grow, payload_append, if_pos last]⟩

theorem replaceNode_replace (nodes : List Node) (ino : Nat) (m n : Node) (number : m.inode.ino = ino) :
    replaceNode (replaceNode nodes ino m) ino n = replaceNode nodes ino n := by
  rw [replaceNode, replaceNode, replaceNode, List.map_map]
  apply List.map_congr_left
  intro k _
  by_cases hit : k.inode.ino = ino
  · simp [hit, number]
  · simp [hit]

theorem replaceNode_self {nodes : List Node} (distinct : (nodes.map fun n => n.inode.ino).Nodup)
    {ino : Nat} {n : Node} (found : findNode nodes ino = some n) : replaceNode nodes ino n = nodes := by
  obtain ⟨member, same⟩ := findNode_some found
  rw [replaceNode]
  conv => rhs; rw [← List.map_id nodes]
  apply List.map_congr_left
  intro m inM
  by_cases hit : m.inode.ino = ino
  · rw [if_pos hit]
    exact (node_unique distinct m n inM member (hit.trans same.symm)).symm
  · rw [if_neg hit]
    rfl

theorem findNode_replaced {nodes : List Node} {ino : Nat} {n n' : Node}
    (found : findNode nodes ino = some n) (number : n'.inode.ino = ino) :
    findNode (replaceNode nodes ino n') ino = some n' := by
  rw [findNode_replace nodes ino n' number, if_pos rfl, found]
  rfl

theorem write_cells (n : Node) (i : Nat) (data : Region) (inside : i < n.chain.length) :
    (n.write i data).chain.map Prod.fst = n.chain.map Prod.fst := by
  have get := payload_get n.chain i inside
  rw [List.getElem?_eq_getElem inside, Option.some.injEq] at get
  apply List.ext_getElem?
  intro k
  rw [List.getElem?_map, List.getElem?_map, Node.write, List.getElem?_set]
  by_cases hit : i = k
  · subst hit
    rw [if_pos rfl, if_pos inside, List.getElem?_eq_getElem inside, get]
    rfl
  · rw [if_neg hit]

theorem payload_write (n : Node) (i k : Nat) (data : Region) (inside : i < n.chain.length) :
    payload (n.write i data).chain k = if k = i then data else payload n.chain k := by
  rw [payload, Node.write, List.getElem?_set]
  by_cases hit : i = k
  · subst hit
    simp [inside]
  · rw [if_neg hit, if_neg (Ne.symm hit)]
    rfl

theorem slotOf_write (n : Node) (i j : Nat) (data : Region) (inside : i < n.chain.length)
    (same : j / direntsPerBlock = i → ∀ k, k < direntSize →
      data (direntSize * (j % direntsPerBlock) + k) =
        payload n.chain i (direntSize * (j % direntsPerBlock) + k)) :
    slotOf (n.write i data).chain j = slotOf n.chain j := by
  rw [slotOf, slotOf, payload_write n i _ data inside]
  by_cases hit : j / direntsPerBlock = i
  · rw [if_pos hit, hit]
    exact direntOf_congr _ _ _ _ (same hit)
  · rw [if_neg hit]

variable {σ : Type} {raw : Nat → Region} {s : Fs σ} {nodes : List Node}

theorem Shape.resize (shape : Shape raw s nodes) {ino : Nat} {n : Node}
    (found : findNode nodes ino = some n) (size : Nat) :
    Shape raw (s.setInode n.addr { n.inode with inodeSize := size })
      (replaceNode nodes ino (n.resize size)) := by
  obtain ⟨member, number⟩ := findNode_some found
  exact shape.replace found rfl number rfl rfl rfl rfl shape.heap (Nat.le_refl _) rfl
    (fun _ _ _ => rfl) (shape.chains n member) (shape.single n member)
    (fun x inX => Or.inl ⟨x, inX, rfl⟩) (shape.blockRoom n member)

theorem Shape.store (shape : Shape raw s nodes) {ino : Nat} {n : Node}
    (found : findNode nodes ino = some n) (i : Nat) (inside : i < n.chain.length) (b : Block)
    (stored : s.blocks (Linked.cell 0 n.chain i) = some b) (data : Region) :
    Shape raw (s.setBlock (Linked.cell 0 n.chain i) { b with data := data })
      (replaceNode nodes ino (n.write i data)) := by
  obtain ⟨member, number⟩ := findNode_some found
  have here := payload_get n.chain i inside
  have inChain := List.mem_of_getElem? here
  have single := shape.single n member
  have cells := write_cells n i data inside
  have setEq : (n.write i data).chain = n.chain.map fun x =>
      if x.1 = Linked.cell 0 n.chain i then (Linked.cell 0 n.chain i, data) else x := by
    apply List.ext_getElem?
    intro k
    rw [Node.write, List.getElem?_set, List.getElem?_map]
    by_cases hit : i = k
    · subst hit
      rw [if_pos rfl, if_pos inside, here]
      simp
    · rw [if_neg hit]
      cases other : n.chain[k]? with
      | none => rfl
      | some x =>
          -- addresses of one chain are distinct, so one index has this one
          have apart : x.1 ≠ Linked.cell 0 n.chain i := by
            intro equal
            have getI : (n.chain.map Prod.fst)[i]? = some (Linked.cell 0 n.chain i) := by
              rw [List.getElem?_map, here]; rfl
            have getK : (n.chain.map Prod.fst)[k]? = some (Linked.cell 0 n.chain i) := by
              rw [List.getElem?_map, other]; exact congrArg some equal
            rw [← getK] at getI
            exact hit ((List.getElem?_inj (by simpa using inside) single).mp getI)
          simp [apart]
  refine shape.replace found rfl number rfl rfl rfl rfl shape.heap (Nat.le_refl _) ?_ ?_ ?_ ?_ ?_ ?_
  · exact (Function.update_eq_self_iff.mpr (shape.stored n member).2.symm).symm
  · intro a apart _
    exact Function.update_of_ne (Ne.symm (apart _ inChain)) _ _
  · rw [setEq]
    exact (shape.chains n member).update _ b { b with data := data } stored rfl
  · rw [cells]; exact single
  · intro x inX
    have address : x.1 ∈ (n.write i data).chain.map Prod.fst := List.mem_map_of_mem inX
    rw [cells] at address
    obtain ⟨y, inY, equal⟩ := List.mem_map.mp address
    exact Or.inl ⟨y, inY, equal⟩
  · rw [Node.write, List.length_set]
    exact shape.blockRoom n member

end KehindeKernel
