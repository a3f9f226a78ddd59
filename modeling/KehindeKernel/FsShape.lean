import KehindeKernel.Filesystem

/-!
What the heap of the ramfs looks like between two calls: a list of nodes, each an
inode with its chain of blocks. `Shape` ties such a list to the pointers of the
store. Every call reads nodes, replaces one of them, or puts one in front.
-/

namespace KehindeKernel

open Outcome

structure Node where
  addr : Nat
  inode : Inode
  chain : List (Nat × Bytes.Region)

def inodeCells (nodes : List Node) : List (Nat × Inode) := nodes.map fun n => (n.addr, n.inode)

def findNode (nodes : List Node) (ino : Nat) : Option Node :=
  nodes.find? fun n => n.inode.ino == ino

def replaceNode (nodes : List Node) (ino : Nat) (n : Node) : List Node :=
  nodes.map fun m => if m.inode.ino = ino then n else m

/-- The payload of block `i` of a chain. -/
def payload (chain : List (Nat × Bytes.Region)) (i : Nat) : Bytes.Region :=
  (chain[i]?.map Prod.snd).getD fun _ => 0

/-- The store `s` holds `nodes`, over memory that reads `raw` where nothing was
stored. Blocks belong to one inode, regions below the bump pointer are never
handed out again, and numbers count the inodes. -/
structure Shape {σ : Type} (raw : Nat → Bytes.Region) (s : Fs σ) (nodes : List Node) : Prop where
  heap : HeapShape s.heap
  memory : s.raw = raw
  inodes : Linked.Holds 0 Inode.next id s.inodes s.inodeListHead (inodeCells nodes)
  chains : ∀ n ∈ nodes, Linked.Holds 0 Block.next Block.data s.blocks n.inode.firstBlock n.chain
  single : ∀ n ∈ nodes, (n.chain.map Prod.fst).Nodup
  apart : ∀ m ∈ nodes, ∀ n ∈ nodes, ∀ x ∈ m.chain, ∀ y ∈ n.chain, x.1 = y.1 →
    m.inode.ino = n.inode.ino
  inodeBelow : ∀ n ∈ nodes, n.addr < s.heap.bumpPtr
  blockBelow : ∀ n ∈ nodes, ∀ x ∈ n.chain, x.1 < s.heap.bumpPtr
  distinct : (nodes.map fun n => n.inode.ino).Nodup
  numbered : ∀ n ∈ nodes, 1 ≤ n.inode.ino ∧ n.inode.ino < s.nextIno
  counted : s.nextIno = nodes.length + 1
  inodeRoom : heapBase + 48 * nodes.length ≤ s.heap.bumpPtr
  blockRoom : ∀ n ∈ nodes, heapBase + 4096 * n.chain.length ≤ s.heap.bumpPtr

theorem findNode_some {nodes : List Node} {ino : Nat} {n : Node} (found : findNode nodes ino = some n) :
    n ∈ nodes ∧ n.inode.ino = ino :=
  ⟨List.mem_of_find?_eq_some found, by simpa using List.find?_some found⟩

theorem findNode_cons {n : Node} {nodes : List Node} {ino : Nat} (different : n.inode.ino ≠ ino) :
    findNode (n :: nodes) ino = findNode nodes ino := by
  rw [findNode, List.find?_cons_of_neg (by simpa using different)]
  rfl

theorem findNode_unique {nodes : List Node} (distinct : (nodes.map fun n => n.inode.ino).Nodup)
    (n : Node) (member : n ∈ nodes) : findNode nodes n.inode.ino = some n := by
  induction nodes with
  | nil => contradiction
  | cons m rest ih =>
      obtain ⟨fresh, distinctRest⟩ := List.nodup_cons.mp distinct
      rcases List.mem_cons.mp member with rfl | inside
      · simp [findNode]
      · have different : m.inode.ino ≠ n.inode.ino := by
          intro same
          exact fresh (List.mem_map.mpr ⟨n, inside, same.symm⟩)
        rw [findNode_cons different]
        exact ih distinctRest inside

theorem node_unique {nodes : List Node} (distinct : (nodes.map fun n => n.inode.ino).Nodup)
    (m n : Node) (inM : m ∈ nodes) (inN : n ∈ nodes) (same : m.inode.ino = n.inode.ino) : m = n := by
  have first := findNode_unique distinct m inM
  rw [same, findNode_unique distinct n inN, Option.some.injEq] at first
  exact first.symm

theorem mem_replaceNode {nodes : List Node} {ino : Nat} {n m : Node}
    (member : m ∈ replaceNode nodes ino n) : m = n ∨ (m ∈ nodes ∧ m.inode.ino ≠ ino) := by
  obtain ⟨old, inOld, rfl⟩ := List.mem_map.mp member
  by_cases hit : old.inode.ino = ino
  · exact Or.inl (if_pos hit)
  · rw [if_neg hit]
    exact Or.inr ⟨inOld, hit⟩

theorem replaceNode_inos (nodes : List Node) (ino : Nat) (n : Node) (same : n.inode.ino = ino) :
    (replaceNode nodes ino n).map (fun m => m.inode.ino) = nodes.map fun m => m.inode.ino := by
  rw [replaceNode, List.map_map]
  apply List.map_congr_left
  intro m _
  by_cases hit : m.inode.ino = ino
  · simp [hit, same]
  · simp [hit]

theorem findNode_replace (nodes : List Node) (ino : Nat) (n : Node) (same : n.inode.ino = ino)
    (j : Nat) : findNode (replaceNode nodes ino n) j =
      if j = ino then (findNode nodes ino).map fun _ => n else findNode nodes j := by
  induction nodes with
  | nil => simp [findNode, replaceNode]
  | cons m rest ih =>
      simp only [findNode, replaceNode, List.map_cons] at ih ⊢
      by_cases hit : m.inode.ino = ino
      · by_cases asked : j = ino
        · subst asked
          simp [hit, same]
        · rw [if_neg asked] at ih ⊢
          rw [if_pos hit, List.find?_cons_of_neg (by simpa [same] using Ne.symm asked), ih,
            List.find?_cons_of_neg (by simpa [hit] using Ne.symm asked)]
      · by_cases asked : j = ino
        · subst asked
          rw [if_pos rfl] at ih ⊢
          rw [if_neg hit, List.find?_cons_of_neg (by simpa using hit), ih,
            List.find?_cons_of_neg (by simpa using hit)]
        · rw [if_neg asked] at ih ⊢
          rw [if_neg hit, List.find?_cons, List.find?_cons, ih]

variable {σ : Type} {raw : Nat → Bytes.Region} {s : Fs σ} {nodes : List Node}

theorem Shape.length_lt (shape : Shape raw s nodes) : nodes.length < walkFuel := by
  have room := shape.inodeRoom
  have mapped := shape.heap.mapped
  have window := shape.heap.window
  simp only [walkFuel, heapMaxSize] at *
  omega

theorem Shape.chain_length (shape : Shape raw s nodes) (n : Node) (member : n ∈ nodes) :
    n.chain.length ≤ 256 := by
  have room := shape.blockRoom n member
  have mapped := shape.heap.mapped
  have window := shape.heap.window
  simp only [heapMaxSize] at *
  omega

theorem Shape.chain_fuel (shape : Shape raw s nodes) (n : Node) (member : n ∈ nodes) :
    n.chain.length < walkFuel := by
  have short := shape.chain_length n member
  simp only [walkFuel, heapMaxSize]
  omega

theorem Shape.stored (shape : Shape raw s nodes) (n : Node) (member : n ∈ nodes) :
    n.addr ≠ 0 ∧ s.inodes n.addr = some n.inode := by
  have present : (n.addr, n.inode) ∈ inodeCells nodes := List.mem_map.mpr ⟨n, member, rfl⟩
  obtain ⟨nonnull, r, stored, same⟩ := shape.inodes.member _ present
  exact ⟨nonnull, by rw [stored]; exact congrArg some same⟩

/-- `find_inode` on a held list. -/
theorem findInode_spec (shape : Shape raw s nodes) (ino : Nat) :
    findInode s ino = .ok (((findNode nodes ino).map Node.addr).getD 0) := by
  have enough : (inodeCells nodes).length < walkFuel := by
    rw [inodeCells, List.length_map]
    exact shape.length_lt
  rw [findInode, Linked.find_spec (fun n => n.ino == ino) (fun n => n.ino == ino) (fun _ => rfl)
    walkFuel s.inodeListHead (inodeCells nodes) shape.inodes enough]
  simp only [inodeCells, List.find?_map, findNode, Option.map_map]
  rfl

theorem findInode_hit (shape : Shape raw s nodes) {ino : Nat} {n : Node}
    (found : findNode nodes ino = some n) :
    findInode s ino = .ok n.addr ∧ n.addr ≠ 0 ∧ s.inodes n.addr = some n.inode := by
  have stored := shape.stored n (findNode_some found).1
  refine ⟨?_, stored⟩
  rw [findInode_spec shape, found]
  rfl

theorem findInode_miss (shape : Shape raw s nodes) {ino : Nat} (absent : findNode nodes ino = none) :
    findInode s ino = .ok 0 := by
  rw [findInode_spec shape, absent]
  rfl

theorem payload_get (chain : List (Nat × Bytes.Region)) (i : Nat) (inside : i < chain.length) :
    chain[i]? = some (Linked.cell 0 chain i, payload chain i) := by
  simp [Linked.cell, payload, inside]

/-- The block a walk of `i` links ends at. -/
theorem Shape.block_at (shape : Shape raw s nodes) (n : Node) (member : n ∈ nodes) (i : Nat)
    (inside : i < n.chain.length) :
    ∃ b, s.blocks (Linked.cell 0 n.chain i) = some b ∧ b.data = payload n.chain i ∧
      b.next = Linked.cell 0 n.chain (i + 1) := by
  have rest := (shape.chains n member).drop i
  have here : n.chain.drop i =
      (Linked.cell 0 n.chain i, payload n.chain i) :: n.chain.drop (i + 1) := by
    rw [List.drop_eq_getElem_cons inside]
    have get := payload_get n.chain i inside
    rw [List.getElem?_eq_getElem inside, Option.some.injEq] at get
    rw [get]
  rw [here] at rest
  obtain ⟨_, _, b, stored, data, later⟩ := rest
  refine ⟨b, stored, data, ?_⟩
  have head := later.head
  rw [head]
  simp [Linked.cell]

/-- A store has one list of nodes. -/
theorem Shape.unique {nodes' : List Node} (shape : Shape raw s nodes) (again : Shape raw s nodes') :
    nodes = nodes' := by
  have cells : inodeCells nodes = inodeCells nodes' := shape.inodes.unique again.inodes
  have lengths : nodes.length = nodes'.length := by
    simpa [inodeCells] using congrArg List.length cells
  apply List.ext_getElem lengths
  intro i inside inside'
  have same : (nodes[i].addr, nodes[i].inode) = (nodes'[i].addr, nodes'[i].inode) := by
    have here := congrArg (fun l => l[i]?) cells
    simpa [inodeCells, inside, inside'] using here
  obtain ⟨addr, inode⟩ := Prod.mk.inj same
  have chains := shape.chains nodes[i] (List.getElem_mem inside)
  rw [inode] at chains
  have chain := chains.unique (again.chains nodes'[i] (List.getElem_mem inside'))
  cases left : nodes[i]
  cases right : nodes'[i]
  rw [left, right] at addr inode chain
  cases addr
  cases inode
  cases chain
  rfl

/-- Replacing one node: what a call must show of the new store. -/
theorem Shape.replace (shape : Shape raw s nodes) {s' : Fs σ} {ino : Nat} {n n' : Node}
    (found : findNode nodes ino = some n)
    (addr : n'.addr = n.addr) (number : n'.inode.ino = ino) (link : n'.inode.next = n.inode.next)
    (memory : s'.raw = s.raw) (head : s'.inodeListHead = s.inodeListHead) (next : s'.nextIno = s.nextIno)
    (heap : HeapShape s'.heap) (bump : s.heap.bumpPtr ≤ s'.heap.bumpPtr)
    (inodes : s'.inodes = Function.update s.inodes n.addr (some n'.inode))
    (others : ∀ a, (∀ x ∈ n.chain, x.1 ≠ a) → a < s.heap.bumpPtr → s'.blocks a = s.blocks a)
    (chain : Linked.Holds 0 Block.next Block.data s'.blocks n'.inode.firstBlock n'.chain)
    (single : (n'.chain.map Prod.fst).Nodup)
    (cells : ∀ x ∈ n'.chain, (∃ y ∈ n.chain, y.1 = x.1) ∨
      (s.heap.bumpPtr ≤ x.1 ∧ x.1 < s'.heap.bumpPtr))
    (room : heapBase + 4096 * n'.chain.length ≤ s'.heap.bumpPtr) :
    Shape raw s' (replaceNode nodes ino n') := by
  obtain ⟨member, same⟩ := findNode_some found
  have stored := (shape.stored n member).2
  -- a cell of the new chain is a cell of the old one or fresh, so it is in no other chain
  have foreign : ∀ m ∈ nodes, m.inode.ino ≠ ino → ∀ x ∈ n'.chain, ∀ y ∈ m.chain, x.1 ≠ y.1 := by
    intro m inM different x inX y inY equal
    rcases cells x inX with ⟨z, inZ, zx⟩ | ⟨fresh, _⟩
    · exact different ((shape.apart m inM n member y inY z inZ (by rw [zx, equal])).trans same)
    · exact Nat.not_lt.mpr fresh (equal ▸ shape.blockBelow m inM y inY)
  have cellsEq : inodeCells (replaceNode nodes ino n') =
      (inodeCells nodes).map fun x => if x.1 = n.addr then (n.addr, n'.inode) else x := by
    rw [inodeCells, inodeCells, replaceNode, List.map_map, List.map_map]
    apply List.map_congr_left
    intro m inM
    by_cases hit : m.inode.ino = ino
    · have equal : m = n := node_unique shape.distinct m n inM member (hit.trans same.symm)
      subst equal
      simp [hit, addr]
    · have apart : m.addr ≠ n.addr := by
        intro equal
        have storedM := (shape.stored m inM).2
        rw [equal, stored, Option.some.injEq] at storedM
        exact hit (storedM ▸ same)
      simp [hit, apart]
  constructor
  · exact heap
  · rw [memory, shape.memory]
  · rw [head, inodes, cellsEq]
    exact shape.inodes.update n.addr n.inode n'.inode stored link
  · intro m inM
    rcases mem_replaceNode inM with rfl | ⟨old, different⟩
    · exact chain
    · apply (shape.chains m old).frame
      intro x inX
      apply others x.1 _ (shape.blockBelow m old x inX)
      intro y inY equal
      exact different ((shape.apart m old n member x inX y inY equal.symm).trans same)
  · intro m inM
    rcases mem_replaceNode inM with rfl | ⟨old, _⟩
    · exact single
    · exact shape.single m old
  · intro m inM k inK x inX y inY equal
    rcases mem_replaceNode inM with rfl | ⟨oldM, differentM⟩
    · rcases mem_replaceNode inK with rfl | ⟨oldK, differentK⟩
      · rfl
      · exact absurd equal (foreign k oldK differentK x inX y inY)
    · rcases mem_replaceNode inK with rfl | ⟨oldK, _⟩
      · exact absurd equal.symm (foreign m oldM differentM y inY x inX)
      · exact shape.apart m oldM k oldK x inX y inY equal
  · intro m inM
    rcases mem_replaceNode inM with rfl | ⟨old, _⟩
    · rw [addr]
      exact Nat.lt_of_lt_of_le (shape.inodeBelow n member) bump
    · exact Nat.lt_of_lt_of_le (shape.inodeBelow m old) bump
  · intro m inM x inX
    rcases mem_replaceNode inM with rfl | ⟨old, _⟩
    · rcases cells x inX with ⟨y, inY, equal⟩ | ⟨_, below⟩
      · exact Nat.lt_of_lt_of_le (equal ▸ shape.blockBelow n member y inY) bump
      · exact below
    · exact Nat.lt_of_lt_of_le (shape.blockBelow m old x inX) bump
  · rw [replaceNode_inos nodes ino n' number]
    exact shape.distinct
  · intro m inM
    rw [next]
    rcases mem_replaceNode inM with rfl | ⟨old, _⟩
    · rw [number, ← same]
      exact shape.numbered n member
    · exact shape.numbered m old
  · rw [next, shape.counted, replaceNode, List.length_map]
  · rw [replaceNode, List.length_map]
    exact Nat.le_trans shape.inodeRoom bump
  · intro m inM
    rcases mem_replaceNode inM with rfl | ⟨old, _⟩
    · exact room
    · exact Nat.le_trans (shape.blockRoom m old) bump

/-- The node after `append_block` took the block at `b`. -/
def Node.grow (n : Node) (raw : Nat → Bytes.Region) (b : Nat) : Node where
  addr := n.addr
  inode := if n.chain = [] then { n.inode with firstBlock := b } else n.inode
  chain := n.chain ++ [(b, (rawBlock (raw b)).data)]

theorem Node.grow_fields (n : Node) (raw : Nat → Bytes.Region) (b : Nat) :
    (n.grow raw b).inode.ino = n.inode.ino ∧ (n.grow raw b).inode.inodeType = n.inode.inodeType ∧
      (n.grow raw b).inode.inodeSize = n.inode.inodeSize ∧ (n.grow raw b).inode.next = n.inode.next := by
  unfold Node.grow
  split <;> exact ⟨rfl, rfl, rfl, rfl⟩

/-- A node whose chain took the block at the bump pointer. -/
theorem Shape.grow (shape : Shape raw s nodes) {s' : Fs σ} {ino : Nat} {n : Node}
    (found : findNode nodes ino = some n)
    (memory : s'.raw = s.raw) (head : s'.inodeListHead = s.inodeListHead) (next : s'.nextIno = s.nextIno)
    (heap : HeapShape s'.heap) (moved : s'.heap.bumpPtr = s.heap.bumpPtr + 4096)
    (inodes : s'.inodes = Function.update s.inodes n.addr (some (n.grow raw s.heap.bumpPtr).inode))
    (others : ∀ a, (∀ x ∈ n.chain, x.1 ≠ a) → a < s.heap.bumpPtr → s'.blocks a = s.blocks a)
    (chain : Linked.Holds 0 Block.next Block.data s'.blocks (n.grow raw s.heap.bumpPtr).inode.firstBlock
      (n.grow raw s.heap.bumpPtr).chain) :
    Shape raw s' (replaceNode nodes ino (n.grow raw s.heap.bumpPtr)) := by
  obtain ⟨member, number⟩ := findNode_some found
  obtain ⟨sameIno, _, _, sameNext⟩ := n.grow_fields raw s.heap.bumpPtr
  have fresh : s.heap.bumpPtr ∉ n.chain.map Prod.fst := by
    intro inside
    obtain ⟨x, inX, equal⟩ := List.mem_map.mp inside
    exact Nat.ne_of_lt (shape.blockBelow n member x inX) equal
  have single : ((n.grow raw s.heap.bumpPtr).chain.map Prod.fst).Nodup := by
    rw [Node.grow, List.map_append, List.nodup_append]
    refine ⟨shape.single n member, by simp, ?_⟩
    rintro a inA b inB rfl
    simp only [List.map_cons, List.map_nil, List.mem_singleton] at inB
    exact fresh (inB ▸ inA)
  refine shape.replace found rfl (sameIno.trans number) sameNext memory head next heap (by omega) inodes others
    chain single ?_ ?_
  · intro x inX
    simp only [Node.grow, List.mem_append, List.mem_singleton] at inX
    rcases inX with old | rfl
    · exact Or.inl ⟨x, old, rfl⟩
    · right
      dsimp only
      omega
  · have room := shape.blockRoom n member
    simp only [Node.grow, List.length_append, List.length_singleton]
    omega

theorem fsEmpty_shape (back : σ) (raw : Nat → Bytes.Region) : Shape raw (fsEmpty (kheapInit back) raw) [] := by
  constructor
  · exact kheapInit_shape back
  · rfl
  · rfl
  all_goals simp [fsEmpty, kheapInit]

/-- `t` is `s` with the next block of the heap handed out. -/
structure BlockGranted (raw : Nat → Bytes.Region) (s t : Fs σ) : Prop where
  heap : HeapShape t.heap
  moved : t.heap.bumpPtr = s.heap.bumpPtr + 4096
  built : t = { s with
    heap := t.heap
    blocks := Function.update s.blocks s.heap.bumpPtr (some (rawBlock (raw s.heap.bumpPtr))) }

/-- An inode with no block takes the new one as its first. -/
theorem BlockGranted.first {t : Fs σ} (granted : BlockGranted raw s t) (shape : Shape raw s nodes)
    {ino : Nat} {n : Node} (found : findNode nodes ino = some n) (noBlocks : n.chain = [])
    (link : Bytes.decode 8 (raw s.heap.bumpPtr) = 0) :
    Shape raw (t.setInode n.addr { n.inode with firstBlock := s.heap.bumpPtr })
      (replaceNode nodes ino (n.grow raw s.heap.bumpPtr)) := by
  obtain ⟨heapShape, moved, built⟩ := granted
  have base := shape.heap.base
  have nonnull : s.heap.bumpPtr ≠ 0 := by simp only [heapBase] at base; omega
  refine shape.grow found ?_ ?_ ?_ heapShape moved ?_ ?_ ?_
  · rw [built]; rfl
  · rw [built]; rfl
  · rw [built]; rfl
  · rw [built]; simp [Fs.setInode, Node.grow, noBlocks]
  · intro a _ below
    rw [built]
    exact Function.update_of_ne (Nat.ne_of_lt below) _ _
  · rw [built]
    simp only [Node.grow, noBlocks, ↓reduceIte, List.nil_append, Fs.setInode]
    exact ⟨rfl, nonnull, _, Function.update_self _ _ _, rfl, link⟩

/-- Otherwise the last block, still in the store, links to the new one. -/
theorem BlockGranted.last {t : Fs σ} (granted : BlockGranted raw s t) (shape : Shape raw s nodes)
    {ino : Nat} {n : Node} (found : findNode nodes ino = some n)
    {front : List (Nat × (Nat → UInt8))} {x : Nat × (Nat → UInt8)} (split : n.chain = front ++ [x])
    (link : Bytes.decode 8 (raw s.heap.bumpPtr) = 0) :
    ∃ b, t.blocks x.1 = some b ∧
      Shape raw (t.setBlock x.1 { b with next := s.heap.bumpPtr })
        (replaceNode nodes ino (n.grow raw s.heap.bumpPtr)) := by
  obtain ⟨heapShape, moved, built⟩ := granted
  obtain ⟨member, _⟩ := findNode_some found
  obtain ⟨_, stored⟩ := shape.stored n member
  have chain := shape.chains n member
  have base := shape.heap.base
  have nonnull : s.heap.bumpPtr ≠ 0 := by simp only [heapBase] at base; omega
  have someBlocks : n.chain ≠ [] := by simp [split]
  have inLast : x ∈ n.chain := by simp [split]
  -- the new block is apart from the chain
  have outside : ∀ y ∈ n.chain, y.1 ≠ s.heap.bumpPtr := fun y inY =>
    Nat.ne_of_lt (shape.blockBelow n member y inY)
  obtain ⟨_, b, storedLast, _⟩ := chain.member x inLast
  refine ⟨b, ?_, shape.grow found ?_ ?_ ?_ heapShape moved ?_ ?_ ?_⟩
  · rw [built]
    exact (Function.update_of_ne (outside x inLast) _ _).trans storedLast
  · rw [built]; rfl
  · rw [built]; rfl
  · rw [built]; rfl
  · rw [built]
    simp only [Fs.setBlock, Node.grow, if_neg someBlocks]
    exact (Function.update_eq_self_iff.mpr stored.symm).symm
  · intro a apart below
    rw [built]
    simp only [Fs.setBlock]
    rw [Function.update_of_ne (Ne.symm (apart x inLast)), Function.update_of_ne (Nat.ne_of_lt below)]
  · rw [built]
    simp only [Fs.setBlock, Node.grow, if_neg someBlocks]
    rw [split, List.append_assoc, List.singleton_append]
    apply Linked.Holds.snoc b _ (rawBlock (raw s.heap.bumpPtr)) s.heap.bumpPtr (split ▸ chain)
    · rw [← split]; exact shape.single n member
    · exact storedLast
    · exact nonnull
    · rw [← split]
      intro inside
      obtain ⟨y, inY, equal⟩ := List.mem_map.mp inside
      exact outside y inY equal
    · rfl
    · rfl
    · exact link

variable [Backing σ]

/-- The node `fs_init` and `fs_create` put in front. -/
def newNode (s : Fs σ) (inodeType : UInt8) : Node where
  addr := s.heap.bumpPtr
  inode := ⟨s.nextIno, inodeType, 0, 0, s.inodeListHead⟩
  chain := []

theorem allocInode_spec (shape : Shape raw s nodes) (inodeType : UInt8) :
    Follows (fun heap r => r.2.heap = heap ∧ r.1 = s.nextIno ∧ r.2.heap.bumpPtr = s.heap.bumpPtr + 48 ∧
        Shape raw r.2 (newNode s inodeType :: nodes))
      (allocs s.heap [inodeBytes]) (allocInode s inodeType) := by
  unfold allocInode
  refine (kmalloc_follows s.heap inodeBytes shape.heap (by decide)).rest ?_
  rintro _ ⟨p, heap⟩ ⟨rfl, rfl, bump, heapShape⟩
  have moved : heap.bumpPtr = s.heap.bumpPtr + 48 := bump
  have base := shape.heap.base
  have mapped := heapShape.mapped
  have window := heapShape.window
  have room := shape.inodeRoom
  have counted := shape.counted
  have nonnull : s.heap.bumpPtr ≠ 0 := by simp only [heapBase] at base; omega
  -- each inode takes 48 bytes of a bounded heap, so numbers never wrap
  have wrap : (s.nextIno + 1) % 2 ^ 64 = s.nextIno + 1 := by
    simp only [heapBase, heapMaxSize] at *
    omega
  refine .ok _ _ ⟨rfl, rfl, moved, ?_⟩
  constructor
  · exact heapShape
  · exact shape.memory
  · refine ⟨rfl, nonnull, ⟨s.nextIno, inodeType, 0, 0, s.inodeListHead⟩,
      Function.update_self _ _ _, rfl, ?_⟩
    apply shape.inodes.frame
    intro x inX
    obtain ⟨m, inM, rfl⟩ := List.mem_map.mp inX
    have different : m.addr ≠ s.heap.bumpPtr := Nat.ne_of_lt (shape.inodeBelow m inM)
    simp [Fs.setInode, different]
  · intro m inM
    rcases List.mem_cons.mp inM with rfl | old
    · rfl
    · exact shape.chains m old
  · intro m inM
    rcases List.mem_cons.mp inM with rfl | old
    · simp [newNode]
    · exact shape.single m old
  · intro m inM k inK x inX y inY equal
    rcases List.mem_cons.mp inM with rfl | oldM
    · simp [newNode] at inX
    · rcases List.mem_cons.mp inK with rfl | oldK
      · simp [newNode] at inY
      · exact shape.apart m oldM k oldK x inX y inY equal
  · intro m inM
    rcases List.mem_cons.mp inM with rfl | old
    · simp only [newNode, Fs.setInode, moved]; omega
    · have below := shape.inodeBelow m old
      simp only [Fs.setInode, moved]; omega
  · intro m inM x inX
    rcases List.mem_cons.mp inM with rfl | old
    · simp [newNode] at inX
    · have below := shape.blockBelow m old x inX
      simp only [Fs.setInode, moved]; omega
  · rw [List.map_cons, List.nodup_cons]
    refine ⟨?_, shape.distinct⟩
    intro inside
    obtain ⟨m, inM, equal⟩ := List.mem_map.mp inside
    have below := (shape.numbered m inM).2
    simp only [newNode] at equal
    omega
  · intro m inM
    simp only [Fs.setInode, wrap]
    rcases List.mem_cons.mp inM with rfl | old
    · simp only [newNode]; omega
    · have range := shape.numbered m old
      omega
  · rw [List.length_cons, ← counted]
    exact wrap
  · simp only [Fs.setInode, moved, List.length_cons]; omega
  · intro m inM
    simp only [Fs.setInode, moved]
    rcases List.mem_cons.mp inM with rfl | old
    · simp only [newNode, List.length_nil]; omega
    · have roomM := shape.blockRoom m old
      omega

theorem allocBlock_spec (shape : Shape raw s nodes) :
    Follows (fun heap r => r.2.heap = heap ∧ r.1 = s.heap.bumpPtr ∧ BlockGranted raw s r.2)
      (allocs s.heap [blockSize]) (allocBlock s) := by
  unfold allocBlock
  apply (kmalloc_follows s.heap blockSize shape.heap (by decide)).rest
  rintro _ ⟨p, heap⟩ ⟨rfl, here, bump, heapShape⟩
  dsimp only at here bump heapShape
  subst here
  have whole : (blockSize + 15) / 16 * 16 = 4096 := by decide
  have moved : heap.bumpPtr = s.heap.bumpPtr + 4096 := by rw [bump, Heap.requiredEnd, whole]
  exact .ok _ _ ⟨rfl, rfl, heapShape, moved, by rw [← shape.memory]; rfl⟩

/-- `append_block` extends the chain by one block if the memory it gets happens
to read a null link. -/
theorem appendBlock_spec (shape : Shape raw s nodes) {ino : Nat} {n : Node}
    (found : findNode nodes ino = some n) (link : Bytes.decode 8 (raw s.heap.bumpPtr) = 0) :
    Follows (fun heap s' => s'.heap = heap ∧ s'.heap.bumpPtr = s.heap.bumpPtr + 4096 ∧
        Shape raw s' (replaceNode nodes ino (n.grow raw s.heap.bumpPtr)))
      (allocs s.heap [blockSize]) (appendBlock s n.addr) := by
  obtain ⟨member, _⟩ := findNode_some found
  obtain ⟨_, stored⟩ := shape.stored n member
  have chain := shape.chains n member
  unfold appendBlock
  simp only [stored, fetch_some, ok_bind]
  by_cases empty : n.inode.firstBlock = 0
  · have noBlocks : n.chain = [] := chain.null_iff.mp empty
    rw [if_pos empty]
    apply (allocBlock_spec shape).rest
    rintro _ ⟨_, t⟩ ⟨rfl, rfl, granted⟩
    exact .ok _ _ ⟨rfl, granted.moved, granted.first shape found noBlocks link⟩
  · have someBlocks : n.chain ≠ [] := fun none => empty (chain.null_iff.mpr none)
    obtain ⟨front, x, split⟩ := List.eq_nil_or_concat n.chain |>.resolve_left someBlocks
    rw [List.concat_eq_append] at split
    -- the walk has fuel for every chain of a well-formed state
    have lastWalk : Linked.last 0 Block.next s.blocks walkFuel n.inode.firstBlock = .ok x.1 := by
      apply Linked.last_spec walkFuel _ front x (split ▸ chain)
      have short := shape.chain_fuel n member
      rw [split, List.length_append] at short
      omega
    rw [if_neg empty, lastWalk, ok_bind]
    apply (allocBlock_spec shape).rest
    rintro _ ⟨_, t⟩ ⟨rfl, rfl, granted⟩
    obtain ⟨b, lastStays, grown⟩ := granted.last shape found split link
    dsimp only
    rw [lastStays, fetch_some, ok_bind]
    exact .ok _ _ ⟨rfl, granted.moved, grown⟩

end KehindeKernel
