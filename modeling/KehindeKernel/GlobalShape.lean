import KehindeKernel.FsRuns
import Mathlib.Logic.Relation

/-!
The shape of the whole ramfs, said of what the code itself reads: the inode list,
the block chains, and the dirents `dirent_at` points to. It holds after every run
in zero-filled memory, and the walks of the source end well in it.
-/

namespace KehindeKernel

open Outcome Bytes

variable {σ : Type}

/-- Dirent `j` of directory inode `dir` reads `e`. -/
def DirentIs (s : Fs σ) (dir : Inode) (j : Nat) (e : Dirent) : Prop :=
  ∃ d, direntAt s dir j = .ok (some d) ∧ readDirent s d = .ok e

/-- Directory `a` has a dirent for inode number `b`. -/
def LeadsTo (s : Fs σ) (nodes : List Node) (a b : Nat) : Prop :=
  ∃ n ∈ nodes, n.inode.ino = a ∧ n.inode.inodeType = 2 ∧
    ∃ j, j < n.inode.inodeSize ∧ ∃ e, DirentIs s n.inode j e ∧ e.inodeId = b

structure GlobalShape (s : Fs σ) (nodes : List Node) : Prop where
  list : Linked.Holds 0 Inode.next id s.inodes s.inodeListHead (inodeCells nodes)
  distinct : (nodes.map fun n => n.inode.ino).Nodup
  numbered : ∀ n ∈ nodes, 1 ≤ n.inode.ino ∧ n.inode.ino < s.nextIno
  root : ∃ r ∈ nodes, r.inode.ino = rootIno ∧ r.inode.inodeType = 2
  chains : ∀ n ∈ nodes, Linked.Holds 0 Block.next Block.data s.blocks n.inode.firstBlock n.chain ∧
    (n.chain.map Prod.fst).Nodup
  apart : ∀ m ∈ nodes, ∀ n ∈ nodes, ∀ x ∈ m.chain, ∀ y ∈ n.chain, x.1 = y.1 →
    m.inode.ino = n.inode.ino
  dirents : ∀ n ∈ nodes, n.inode.inodeType = 2 → ∀ j, j < n.inode.inodeSize →
    ∃ e, DirentIs s n.inode j e ∧ WellNamed e ∧ ∃ m ∈ nodes, m.inode.ino = e.inodeId
  namedOnce : ∀ m ∈ nodes, m.inode.inodeType = 2 → ∀ n ∈ nodes, n.inode.inodeType = 2 →
    ∀ i, i < m.inode.inodeSize → ∀ j, j < n.inode.inodeSize → ∀ e f, DirentIs s m.inode i e →
      DirentIs s n.inode j f → e.inodeId = f.inodeId → m.inode.ino = n.inode.ino ∧ i = j
  rootUnnamed : ∀ a, ¬ LeadsTo s nodes a rootIno
  acyclic : ∀ a, ¬ Relation.TransGen (LeadsTo s nodes) a a
  fileRoom : ∀ n ∈ nodes, n.inode.inodeType ≠ 2 → n.inode.inodeSize ≤ 4088 * n.chain.length
  dirRoom : ∀ n ∈ nodes, n.inode.inodeType = 2 → n.inode.inodeSize ≤ 15 * n.chain.length

/-- The walks of the source return in `s`, and what they point to is there. -/
structure WalksReturn [Backing σ] (s : Fs σ) (nodes : List Node) : Prop where
  findInode : ∀ ino, ∃ p, findInode s ino = .ok p ∧ (p ≠ 0 → (s.inodes p).isSome)
  direntAt : ∀ n ∈ nodes, n.inode.inodeType = 2 → ∀ idx, ∃ found, direntAt s n.inode idx = .ok found ∧
    ∀ d, found = some d → (s.blocks d.block).isSome
  appendBlock : ∀ n ∈ nodes, Guarded (fun _ => True) (appendBlock s n.addr)
  fsLookup : ∀ path line, Terminated path line → ∃ ino, fsLookup s path = .ok ino

theorem lt_of_transGen {R : Nat → Nat → Prop} (grows : ∀ a b, R a b → a < b) {a b : Nat}
    (path : Relation.TransGen R a b) : a < b := by
  induction path with
  | single step => exact grows _ _ step
  | tail _ step ih => exact Nat.lt_trans ih (grows _ _ step)

variable {raw : Nat → Region} {s : Fs σ} {nodes : List Node}

theorem direntIs_slot (shape : Shape raw s nodes) (n : Node) (member : n ∈ nodes) (slots : SlotsOk n)
    (j : Nat) (inside : j < n.inode.inodeSize) (e : Dirent) :
    DirentIs s n.inode j e ↔ e = slotOf n.chain j := by
  rw [DirentIs, direntAt_spec shape n member slots j, if_pos inside]
  constructor
  · rintro ⟨d, at_, read⟩
    rw [Except.ok.injEq, Option.some.injEq] at at_
    rw [← at_, readDirent_spec shape n member slots j inside, Except.ok.injEq] at read
    exact read.symm
  · rintro rfl
    exact ⟨_, rfl, readDirent_spec shape n member slots j inside⟩

theorem leadsTo_entry (ok : FsOk raw s nodes) (a b : Nat) (leads : LeadsTo s nodes a b) :
    ∃ n ∈ nodes, n.inode.ino = a ∧ n.inode.inodeType = 2 ∧ ∃ e ∈ n.entries, e.2 = b := by
  obtain ⟨n, member, number, dir, j, inside, e, read, target⟩ := leads
  rw [direntIs_slot ok.shape n member (ok.tree.slots n member dir) j inside e] at read
  exact ⟨n, member, number, dir, _, List.mem_of_getElem? (entries_get n j inside), by rw [← target, read]; rfl⟩

theorem leadsTo_grows (ok : FsOk raw s nodes) (a b : Nat) (leads : LeadsTo s nodes a b) : a < b := by
  obtain ⟨n, member, number, dir, e, listed, target⟩ := leadsTo_entry ok a b leads
  have later := (ok.tree.targets n member dir e listed).1
  omega

theorem Mounted.globalShape (mounted : Mounted raw s nodes) : GlobalShape s nodes := by
  obtain ⟨ok, r, foundRoot, dirRoot⟩ := mounted
  obtain ⟨shape, tree⟩ := ok
  have ok : FsOk raw s nodes := ⟨shape, tree⟩
  obtain ⟨memberRoot, numberRoot⟩ := findNode_some foundRoot
  constructor
  · exact shape.inodes
  · exact shape.distinct
  · exact shape.numbered
  · exact ⟨r, memberRoot, numberRoot, dirRoot⟩
  · exact fun n member => ⟨shape.chains n member, shape.single n member⟩
  · exact shape.apart
  · intro n member dir j inside
    have slots := tree.slots n member dir
    refine ⟨slotOf n.chain j, (direntIs_slot shape n member slots j inside _).mpr rfl, slots.named j inside, ?_⟩
    exact (tree.targets n member dir _ (List.mem_of_getElem? (entries_get n j inside))).2
  · intro m inM dirM n inN dirN i insideI j insideJ e f readE readF same
    rw [direntIs_slot shape m inM (tree.slots m inM dirM) i insideI] at readE
    rw [direntIs_slot shape n inN (tree.slots n inN dirN) j insideJ] at readF
    subst readE readF
    have getI := entries_get m i insideI
    have getJ := entries_get n j insideJ
    -- two slots that name one inode are of one directory
    have owner := tree.parent m inM dirM n inN dirN _ (List.mem_of_getElem? getI) _
      (List.mem_of_getElem? getJ) same
    obtain rfl := node_unique shape.distinct m n inM inN owner
    have numberI : (m.entries.map Prod.snd)[i]? = some (slotOf m.chain i).inodeId := by
      rw [List.getElem?_map, getI]
      rfl
    have numberJ : (m.entries.map Prod.snd)[j]? = some (slotOf m.chain i).inodeId := by
      rw [List.getElem?_map, getJ, same]
      rfl
    have range : i < (m.entries.map Prod.snd).length := by
      rw [List.length_map, entries_length]
      exact insideI
    exact ⟨rfl, (List.getElem?_inj range (tree.ids m inM dirM)).mp (numberI.trans numberJ.symm)⟩
  · intro a leads
    obtain ⟨n, member, number, _⟩ := leadsTo_entry ok a rootIno leads
    have positive := (shape.numbered n member).1
    have grows := leadsTo_grows ok a rootIno leads
    rw [number] at positive
    simp only [rootIno] at grows
    omega
  · exact fun a round => Nat.lt_irrefl a (lt_of_transGen (leadsTo_grows ok) round)
  · exact tree.bytes
  · exact fun n member dir => (tree.slots n member dir).room

variable [Backing σ]

theorem FsOk.walksReturn (ok : FsOk raw s nodes) (zeros : ∀ a i, raw a i = 0) : WalksReturn s nodes := by
  obtain ⟨shape, tree⟩ := ok
  constructor
  · intro ino
    cases found : findNode nodes ino with
    | none => exact ⟨0, findInode_miss shape found, fun nonnull => absurd rfl nonnull⟩
    | some n =>
        obtain ⟨pointer, _, stored⟩ := findInode_hit shape found
        exact ⟨n.addr, pointer, fun _ => by rw [stored]; rfl⟩
  · intro n member dir idx
    have slots := tree.slots n member dir
    refine ⟨_, direntAt_spec shape n member slots idx, ?_⟩
    intro d here
    by_cases inside : idx < n.inode.inodeSize
    · obtain ⟨b, stored, _⟩ := shape.block_at n member _ (slot_block n slots idx inside)
      rw [if_pos inside, Option.some.injEq] at here
      rw [← here, slotPtr, stored]
      rfl
    · rw [if_neg inside] at here
      contradiction
  · intro n member
    exact (appendBlock_spec shape (findNode_unique shape.distinct n member) (zero_null zeros _)).guarded
      (allocs_stop s.heap [blockSize] shape.heap (by decide)) fun _ _ _ => trivial
  · intro path line ends
    exact ⟨_, fsLookup_spec shape tree path line ends⟩

/-- After every run in zero-filled memory the ramfs has its global shape, and the
walks of the source return. -/
theorem ramfs_global_shape (back : σ) (raw : Nat → Region) (zeros : ∀ a i, raw a i = 0)
    (calls : List FsCall) (wf : ∀ call ∈ calls, call.WellFormed) :
    Guarded (fun r => ∃ nodes, GlobalShape r.2 nodes ∧ WalksReturn r.2 nodes) (fsRun back raw calls) :=
  (fsRun_mounted back raw calls wf (nullLinksRun_zero back raw zeros calls wf)).mono
    fun _ ⟨nodes, mounted⟩ => ⟨nodes, mounted.globalShape, mounted.ok.walksReturn zeros⟩

/-- A directory with a file in it, the file unlinked and another one created. -/
def churnCalls : List FsCall :=
  [.create 1 [97, 0] 2, .create 2 [98, 0] 1, .write 3 0 1 (some [7]), .unlink 2 [98, 0],
    .create 2 [99, 0] 1]

theorem churnCalls_wellFormed : ∀ call ∈ churnCalls, call.WellFormed := by
  simp only [churnCalls, List.forall_mem_cons, List.not_mem_nil, false_imp_iff, implies_true, and_true]
  exact ⟨⟨[97], terminated_cstring [97] (by decide)⟩, ⟨[98], terminated_cstring [98] (by decide)⟩,
    wellFormed_write 3 (Or.inl (by decide)) (by decide), ⟨[98], terminated_cstring [98] (by decide)⟩,
    ⟨[99], terminated_cstring [99] (by decide)⟩⟩

theorem ramfs_global_shape_churn : ∃ r, fsRun Endless.mk (fun _ _ => 0) churnCalls = .ok r ∧
    ∃ nodes, GlobalShape r.2 nodes ∧ WalksReturn r.2 nodes := by
  have guarded := ramfs_global_shape Endless.mk (fun _ _ => 0) (fun _ _ => rfl) churnCalls churnCalls_wellFormed
  exact guarded.returned (by decide +kernel)

end KehindeKernel
