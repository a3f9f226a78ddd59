import KehindeKernel.FileContents
import KehindeKernel.HeapBudget

/-!
A disk of bounded size. Nothing is ever given back, so a disk is its directories
and files and the bytes of the heap it has left; a new object costs an inode, an
entry behind the last full block costs a block, and a file pays for the blocks its
new end needs. Runs of the code return and panic exactly as this disk does.
-/

namespace KehindeKernel

open Outcome Bytes

structure Volume where
  disk : Disk
  room : Nat

namespace Disk

/-- What a creation takes from the heap. -/
def createCost (d : Disk) (parent : Nat) (name : List UInt8) : Nat :=
  match d.catalog.dirs parent with
  | none => 0
  | some l =>
      -- a multiple of fifteen counts as full, the blocks that are there do not count
      if Accepts l name then 48 + if l.length % direntsPerBlock = 0 then blockSize else 0
      else 0

/-- What a write that ends at `stop` takes from the heap. -/
def writeCost (d : Disk) (ino stop : Nat) : Nat :=
  match d.files ino with
  | none => 0
  | some c => (blocksFor stop - blocksFor c.length) * blockSize

def cost (d : Disk) : FsCall → Nat
  | .init => 48
  | .create parent name _ => d.createCost parent (text name)
  | .write ino offset len (some _) => d.writeCost ino (offset + len)
  | _ => 0

end Disk

namespace Volume

def create (v : Volume) (parent : Nat) (name : List UInt8) (inodeType : UInt8) : Run (Nat × Volume) := do
  let room ← spend v.room (v.disk.createCost parent name)
  let r := v.disk.create parent name inodeType
  pure (r.1, ⟨r.2, room⟩)

def write (v : Volume) (ino offset : Nat) (src : List UInt8) : Run (Int × Volume) := do
  let room ← spend v.room (v.disk.writeCost ino (offset + src.length))
  let r := v.disk.write ino offset src
  pure (r.1, ⟨r.2, room⟩)

/-- Removal gives nothing back and takes nothing. -/
def unlink (v : Volume) (parent : Nat) (name : List UInt8) : Int × Volume :=
  let r := v.disk.catalog.unlink parent name
  (r.1, { v with disk := { v.disk with catalog := r.2 } })

def step (v : Volume) (call : FsCall) : Run (DiskAnswer × Volume) := do
  let room ← spend v.room (v.disk.cost call)
  let r := v.disk.step call
  pure (r.1, ⟨r.2, room⟩)

/-- The volume after `fs_init`: the root has its inode. -/
def mounted : Volume where
  disk := Disk.mounted
  room := heapMaxSize - 48

end Volume

variable {σ : Type}

/-- A file has the blocks its size needs. -/
def Fitted (nodes : List Node) : Prop :=
  ∀ n ∈ nodes, n.inode.inodeType = 1 → n.chain.length = blocksFor n.inode.inodeSize

theorem blocksFor_max (a b : Nat) : blocksFor (max a b) = max (blocksFor a) (blocksFor b) := by
  simp only [blocksFor, payloadSize]
  omega

theorem Fitted.cons {nodes : List Node} (fitted : Fitted nodes) (s : Fs σ) (inodeType : UInt8) :
    Fitted (newNode s inodeType :: nodes) := by
  intro m member file
  rcases List.mem_cons.mp member with rfl | old
  · show 0 = blocksFor 0
    decide
  · exact fitted m old file

theorem Fitted.replace {nodes : List Node} (fitted : Fitted nodes) (p : Nat) (n' : Node)
    (here : n'.inode.inodeType = 1 → n'.chain.length = blocksFor n'.inode.inodeSize) :
    Fitted (replaceNode nodes p n') := by
  intro m member file
  rcases mem_replaceNode member with rfl | ⟨old, _⟩
  · exact here file
  · exact fitted m old file

section Step

variable {raw : Nat → Region} {s : Fs σ} {nodes nodes' : List Node}

theorem effect_fitted (fitted : Fitted nodes) (call : FsCall) (range : call.InRange) (out : FsResult)
    (effect : Effect raw s nodes call out nodes') : Fitted nodes' := by
  have other : ∀ n' : Node, n'.inode.inodeType = 2 → n'.inode.inodeType = 1 →
      n'.chain.length = blocksFor n'.inode.inodeSize := by
    intro n' dir file
    rw [dir] at file
    contradiction
  cases effect with
  | init => exact fitted.cons s 2
  | created parentIno name line inodeType n n' ends found creates added =>
      exact (fitted.replace parentIno n' (other n' (added.inode.2.1.trans creates.1))).cons s inodeType
  | unlinked parentIno name line n n' ends found removes removed =>
      exact fitted.replace parentIno n' (other n' (removed.inode.2.1.trans removes.1))
  | wrapped _ _ _ _ _ _ _ _ wraps => exact absurd range (Nat.not_lt.mpr wraps)
  | written ino offset len src n n' found file room small wrote =>
      apply fitted.replace
      intro _
      rw [wrote.blocks, fitted n (findNode_some found).1 file, wrote.inode.2.2, blocksFor_max]
  | _ => exact fitted

/-- The disk knows what a call will ask the heap for. -/
theorem requests_cost (fitted : Fitted nodes) (next : Nat) (call : FsCall) (range : call.InRange) :
    footprint (call.requests nodes) = (diskOf nodes next).cost call := by
  cases call with
  | create parentIno name inodeType =>
      rw [FsCall.requests, Disk.cost, Disk.createCost]
      simp only [diskOf, catalogOf]
      cases found : findNode nodes parentIno with
      | none =>
          have unlisted : dirsOf nodes parentIno = none := by
            rw [dirsOf, found]
            rfl
          rw [unlisted]
          rfl
      | some n =>
          by_cases dir : n.inode.inodeType = 2
          · have same : CreatesIn n (text name) ↔ Accepts n.entries (text name) :=
              ⟨fun creates => creates.2, fun accepts => ⟨dir, accepts⟩⟩
            rw [dirsOf_dir found dir]
            simp only [same, entries_length, entryBlock]
            by_cases accepts : Accepts n.entries (text name)
            · rw [if_pos accepts, if_pos accepts, footprint_append]
              split
              · rfl
              · rfl
            · rw [if_neg accepts, if_neg accepts]
              rfl
          · have unlisted : dirsOf nodes parentIno = none := by
              rw [dirsOf, found, Option.bind_some, if_neg dir]
            rw [unlisted]
            dsimp only
            rw [if_neg fun creates => dir creates.1]
            rfl
  | write ino offset len buf =>
      cases buf with
      | none => rfl
      | some src =>
          rw [FsCall.requests, Disk.cost, Disk.writeCost]
          simp only [diskOf, Nat.mod_eq_of_lt (show offset + len < 2 ^ 64 from range)]
          cases found : findNode nodes ino with
          | none =>
              have absent : filesOf nodes ino = none := by
                rw [filesOf, found]
                rfl
              rw [absent]
              rfl
          | some n =>
              by_cases file : n.inode.inodeType = 1
              · rw [filesOf_file found file]
                dsimp only
                rw [if_pos file, footprint_replicate, fitted n (findNode_some found).1 file, contents_length]
                rfl
              · have absent : filesOf nodes ino = none := by
                  rw [filesOf, found, Option.bind_some, if_neg file]
                rw [absent]
                dsimp only
                rw [if_neg file]
                rfl
  | _ => rfl

variable [Backing σ]

/-- A store over zero-filled memory and the volume it holds. -/
structure HoldsVolume (raw : Nat → Region) (s : Fs σ) (v : Volume) (nodes : List Node) : Prop where
  ok : FsOk raw s nodes
  blank : Blank nodes
  fitted : Fitted nodes
  disk : v.disk = diskOf nodes s.nextIno
  room : s.heap.room = v.room
  supplied : Supplied s.heap

/-- A call costs what the volume says it costs, and does what the disk does. -/
theorem fsStep_volume (zeros : ∀ a i, raw a i = 0) {v : Volume} (held : HoldsVolume raw s v nodes)
    (call : FsCall) (valid : call.Valid) (ordinary : call ≠ .init) :
    Follows (fun m r => Agrees r.1 m.1 ∧ ∃ nodes', Effect raw s nodes call r.1 nodes' ∧
        HoldsVolume raw r.2 m.2 nodes')
      (v.step call) (fsStep s call) := by
  obtain ⟨ok, blank, fitted, disk, room, supplied⟩ := held
  have links : NullLinks s call :=
    nullLinks_null s (by rw [ok.shape.memory]; exact zero_null zeros) call
  have planned := allocs_follows (call.requests nodes) s.heap ok.shape.heap (requests_small nodes call) supplied
  rw [requests_cost fitted s.nextIno call valid.range, room, ← disk] at planned
  apply (planned.trans (fsStep_follows ok call valid.wellFormed links)).report
  rintro left ⟨out, t⟩ ⟨heap, ⟨budget, _, more⟩, rfl, nodes', effect, kept⟩
  obtain ⟨agrees, same, blank'⟩ := effect_disk zeros ok blank kept call ordinary out effect
  rw [← disk] at agrees same
  exact ⟨agrees, nodes', effect, kept, blank', effect_fitted fitted call valid.range out effect, same.symm, budget, more⟩

end Step

theorem boot_disk (back : σ) (raw : Nat → Region) (s : Fs σ)
    (mounted : Mounted raw s [newNode (fsEmpty (kheapInit back) raw) 2]) :
    diskOf [newNode (fsEmpty (kheapInit back) raw) 2] s.nextIno = Disk.mounted := by
  rw [diskOf, boot_catalog (fsEmpty (kheapInit back) raw) s mounted.ok rfl, Disk.mounted]
  congr 1
  funext ino
  rw [filesOf_cons]
  simp [Function.update_apply, filesOf, findNode]

section Runs

variable [Backing σ] {raw : Nat → Region}

/-- `fs_init` takes the root's inode from a heap that has its window to itself. -/
theorem fsBoot_volume (back : σ) (raw : Nat → Region) (ample : Ample (heapMaxSize / pageSize) back) :
    ∃ s, fsBoot back raw = .ok s ∧ Mounted raw s [newNode (fsEmpty (kheapInit back) raw) 2] ∧
      HoldsVolume raw s Volume.mounted [newNode (fsEmpty (kheapInit back) raw) 2] := by
  have planned := allocs_follows [inodeBytes] (kheapInit back) (kheapInit_shape back) (by decide)
    (kheapInit_supplied back ample)
  have booted := planned.trans (fsBoot_follows back raw)
  have window : (kheapInit back).room = heapMaxSize := Nat.add_sub_cancel_left _ _
  have paid : spend heapMaxSize (footprint [inodeBytes]) = .ok (heapMaxSize - 48) := by decide
  rw [window, paid] at booted
  cases result : fsBoot back raw with
  | error stop =>
      rw [result] at booted
      cases booted
  | ok s =>
      rw [result] at booted
      cases booted with
      | ok _ _ holds =>
          obtain ⟨heap, ⟨budget, _, more⟩, rfl, mounted⟩ := holds
          refine ⟨s, rfl, mounted, mounted.ok, ?_, ?_, ?_, budget, more⟩
          · intro m member _ i _
            rw [List.mem_singleton.mp member]
            exact byte_past _ i (Nat.zero_le i)
          · exact Fitted.cons (fun _ none_ => absurd none_ List.not_mem_nil) _ 2
          · exact (boot_disk back raw s mounted).symm

/-- Runs of the filesystem are runs of the volume: they panic exactly where its
memory runs out, every other call answers as the disk does, and at the end the
store shows the disk and has as much of the heap left as the volume. -/
theorem runs_refine_volume (back : σ) (raw : Nat → Region) (ample : Ample (heapMaxSize / pageSize) back)
    (zeros : ∀ a i, raw a i = 0) (calls : List FsCall)
    (valid : ∀ call ∈ calls, call.Valid ∧ call ≠ .init) :
    Follows (fun m r => List.Forall₂ Agrees r.1 m.1 ∧ Shows r.2 m.2.disk ∧ r.2.heap.room = m.2.room)
      (Replay.attempt Volume.step Volume.mounted calls) (fsRun back raw calls) := by
  obtain ⟨s, booted, _, held⟩ := fsBoot_volume back raw ample
  rw [fsRun, booted, ok_bind]
  apply (Replay.attempt_follows fsStep Volume.step (fun t v => ∃ nodes, HoldsVolume raw t v nodes) Agrees
    (fun _ call => call.Valid ∧ call ≠ .init) ?_ calls s Volume.mounted ⟨_, held⟩
    (Replay.along_of_forall fsStep _ calls s valid)).mono
  · rintro ⟨answers, v⟩ ⟨outs, t⟩ ⟨agree, nodes, final⟩
    refine ⟨agree, ?_, final.room⟩
    rw [final.disk]
    exact fsOk_shows final.ok t.nextIno
  · rintro t v call ⟨nodes, holds⟩ ⟨fits, ordinary⟩
    exact (fsStep_volume zeros holds call fits ordinary).mono fun _ _ ⟨agrees, nodes', _, kept⟩ =>
      ⟨agrees, nodes', kept⟩

end Runs

theorem ample_endless (n : Nat) (back : Endless) : Ample n back := by
  induction n with
  | zero => trivial
  | succ n ih => exact fun _ _ _ _ => ⟨back, rfl, ih⟩

theorem runs_refine_volume_sparse :
    Follows (fun m r => List.Forall₂ Agrees r.1 m.1 ∧ Shows r.2 m.2.disk ∧ r.2.heap.room = m.2.room)
      (Replay.attempt Volume.step Volume.mounted sparseCalls)
      (fsRun Endless.mk (fun _ _ => 0) sparseCalls) :=
  runs_refine_volume Endless.mk (fun _ _ => 0) (ample_endless _ _) (fun _ _ => rfl) sparseCalls
    sparseCalls_valid

end KehindeKernel
