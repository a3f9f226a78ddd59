import KehindeKernel.FsCalls

/-!
Runs of the filesystem: `fs_init` on a fresh heap, then any calls. The store stays
well formed and keeps its root as long as the blocks handed out have null links.
-/

namespace KehindeKernel

open Outcome Bytes

variable {σ : Type}

/-- A well-formed filesystem with its root. -/
structure Mounted (raw : Nat → Region) (s : Fs σ) (nodes : List Node) : Prop where
  ok : FsOk raw s nodes
  root : ∃ r, findNode nodes rootIno = some r ∧ r.inode.inodeType = 2

section Effects

variable {raw : Nat → Region} {s s' : Fs σ} {nodes nodes' : List Node}

/-- The node a number names keeps its type under every call. -/
theorem effect_type (ok : FsOk raw s nodes) (call : FsCall) (out : FsResult)
    (effect : Effect raw s nodes call out nodes') (d : Nat) (n : Node) (found : findNode nodes d = some n) :
    ∃ n', findNode nodes' d = some n' ∧ n'.inode.inodeType = n.inode.inodeType := by
  have new : (newNode s 2).inode.ino ≠ d := by
    have below := (ok.shape.numbered n (findNode_some found).1).2
    rw [(findNode_some found).2] at below
    exact Nat.ne_of_gt below
  have replaced : ∀ p m m', findNode nodes p = some m → m'.inode.ino = m.inode.ino →
      m'.inode.inodeType = m.inode.inodeType →
      ∃ n', findNode (replaceNode nodes p m') d = some n' ∧ n'.inode.inodeType = n.inode.inodeType := by
    intro p m m' foundM number type
    rw [findNode_replace nodes p m' (number.trans (findNode_some foundM).2)]
    by_cases hit : d = p
    · subst hit
      rw [found, Option.some.injEq] at foundM
      exact ⟨m', by rw [if_pos rfl, found]; rfl, by rw [type, foundM]⟩
    · exact ⟨n, by rw [if_neg hit]; exact found, rfl⟩
  cases effect with
  | init => exact ⟨n, by rw [findNode_cons new]; exact found, rfl⟩
  | created parentIno name line inodeType m m' ends foundM creates added =>
      rw [findNode_cons (by exact new)]
      exact replaced parentIno m m' foundM added.inode.1 added.inode.2.1
  | unlinked parentIno name line m m' ends foundM removes removed =>
      exact replaced parentIno m m' foundM removed.inode.1 removed.inode.2.1
  | written ino offset len src m m' foundM file room small wrote =>
      exact replaced ino m m' foundM wrote.inode.1 wrote.inode.2.1
  | wrapped ino offset len src m m' foundM file wraps longer =>
      exact replaced ino m m' foundM longer.inode.1 longer.inode.2.1
  | _ => exact ⟨n, found, rfl⟩

theorem Mounted.effect (mounted : Mounted raw s nodes) (kept : FsOk raw s' nodes') (call : FsCall)
    (out : FsResult) (effect : Effect raw s nodes call out nodes') : Mounted raw s' nodes' := by
  obtain ⟨r, found, dir⟩ := mounted.root
  obtain ⟨r', found', same⟩ := effect_type mounted.ok call out effect rootIno r found
  exact ⟨kept, r', found', same.trans dir⟩

end Effects

/-- A file named `a` in the root, inode 2 of a new filesystem. -/
def makeFile : FsCall := .create rootIno [97, 0] 1

/-- A machine whose frames never run out. -/
structure Endless where

instance : Backing Endless where
  growPage m _ := some m

variable [Backing σ]

def fsBoot (back : σ) (raw : Nat → Region) : Run (Fs σ) := fsInit (fsEmpty (kheapInit back) raw)

def fsRun (back : σ) (raw : Nat → Region) (calls : List FsCall) : Run (List FsResult × Fs σ) := do
  let s ← fsBoot back raw
  Replay.attempt fsStep s calls

/-- Every block a call of the run appends has a null link. -/
def NullLinksRun (back : σ) (raw : Nat → Region) (calls : List FsCall) : Prop :=
  ∀ s, fsBoot back raw = .ok s → Replay.Along fsStep NullLinks s calls

theorem fsBoot_follows (back : σ) (raw : Nat → Region) :
    Follows (fun heap s => s.heap = heap ∧ Mounted raw s [newNode (fsEmpty (kheapInit back) raw) 2])
      (allocs (kheapInit back) [inodeBytes]) (fsBoot back raw) := by
  have shape := fsEmpty_shape back raw
  unfold fsBoot fsInit
  apply (allocInode_spec shape 2).rest
  rintro _ ⟨number, t⟩ ⟨rfl, _, _, shape'⟩
  exact .ok _ t ⟨rfl, ⟨shape', tree_nil.cons _ rfl⟩, _, rfl, rfl⟩

theorem fsBoot_mounted (back : σ) (raw : Nat → Region) :
    Guarded (fun s => ∃ nodes, Mounted raw s nodes ∧ nodes = [newNode (fsEmpty (kheapInit back) raw) 2])
      (fsBoot back raw) :=
  (fsBoot_follows back raw).guarded
    (allocs_stop (kheapInit back) [inodeBytes] (kheapInit_shape back) (by decide))
    fun _ _ holds => ⟨_, holds.2, rfl⟩

variable {raw : Nat → Region} {s s' : Fs σ} {nodes nodes' : List Node}

theorem fsStep_mounted (mounted : Mounted raw s nodes) (call : FsCall) (wf : call.WellFormed)
    (links : NullLinks s call) :
    Guarded (fun r => ∃ nodes', Mounted raw r.2 nodes') (fsStep s call) :=
  (fsStep_effect mounted.ok call wf links).mono fun r ⟨nodes', effect, kept⟩ =>
    ⟨nodes', mounted.effect kept call r.1 effect⟩

/-- Calls that meet both sides of their contract. -/
def Proper (s : Fs σ) (call : FsCall) : Prop := call.WellFormed ∧ NullLinks s call

theorem proper_along (calls : List FsCall) (s : Fs σ) (wf : ∀ call ∈ calls, call.WellFormed)
    (links : Replay.Along fsStep NullLinks s calls) : Replay.Along fsStep Proper s calls :=
  Replay.Along.and calls s (Replay.along_of_forall fsStep FsCall.WellFormed calls s wf) links

theorem nullLinks_along_null (null : ∀ a, decode 8 (raw a) = 0) (calls : List FsCall)
    (ok : FsOk raw s nodes) (wf : ∀ call ∈ calls, call.WellFormed) :
    Replay.Along fsStep NullLinks s calls := by
  have links : ∀ (t : Fs σ) call, (∃ nodes, FsOk raw t nodes) → NullLinks t call := by
    rintro t call ⟨_, ok⟩
    exact nullLinks_null t (by rw [ok.shape.memory]; exact null) call
  refine Replay.along_of_invariant fsStep (fun t => ∃ nodes, FsOk raw t nodes) FsCall.WellFormed NullLinks
    (fun t call holds _ => links t call holds) ?_ calls s ⟨nodes, ok⟩ wf
  rintro t call out next ⟨_, ok⟩ fits done
  obtain ⟨nodes', _, kept⟩ := (fsStep_effect ok call fits (links t call ⟨_, ok⟩)).of_eq done
  exact ⟨nodes', kept⟩

theorem nullLinksRun_null (back : σ) (raw : Nat → Region) (null : ∀ a, decode 8 (raw a) = 0)
    (calls : List FsCall) (wf : ∀ call ∈ calls, call.WellFormed) : NullLinksRun back raw calls := by
  intro s booted
  obtain ⟨nodes, mounted, _⟩ := (fsBoot_mounted back raw).of_eq booted
  exact nullLinks_along_null null calls mounted.ok wf

/-- In zero-filled memory every link is null. -/
theorem nullLinksRun_zero (back : σ) (raw : Nat → Region) (zeros : ∀ a i, raw a i = 0)
    (calls : List FsCall) (wf : ∀ call ∈ calls, call.WellFormed) : NullLinksRun back raw calls :=
  nullLinksRun_null back raw (zero_null zeros) calls wf

/-- After every run the filesystem is well formed and has its root. -/
theorem fsRun_mounted (back : σ) (raw : Nat → Region) (calls : List FsCall)
    (wf : ∀ call ∈ calls, call.WellFormed) (links : NullLinksRun back raw calls) :
    Guarded (fun r => ∃ nodes, Mounted raw r.2 nodes) (fsRun back raw calls) := by
  unfold fsRun
  apply (fsBoot_mounted back raw).bind_eq
  rintro s result ⟨nodes, mounted, _⟩
  exact Replay.attempt_guarded fsStep (fun t => ∃ nodes, Mounted raw t nodes) Proper
    (fun t call ⟨_, held⟩ proper => fsStep_mounted held call proper.1 proper.2) calls s
    ⟨nodes, mounted⟩ (proper_along calls s wf (links s result))

end KehindeKernel
