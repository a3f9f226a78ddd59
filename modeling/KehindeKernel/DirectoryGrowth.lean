import KehindeKernel.DirectoryRuns

/-!
How many blocks the chain of a directory has. `fs_create` asks only whether the
number of entries is a multiple of 15, and `fs_unlink` gives no block back, so an
entry behind a removed one may take a block the chain does not need.
-/

namespace KehindeKernel

open Outcome Bytes

variable {σ : Type}

/-- The inode of directory `d`, none if the number is not a directory's. -/
def dirInode (s : Fs σ) (d : Nat) : Run (Option Inode) := do
  let p ← findInode s d
  if p = 0 then pure none
  else
    let n ← fetch (s.inodes p)
    pure (if n.inodeType = 2 then some n else none)

def entriesIn (s : Fs σ) (d : Nat) : Nat :=
  match dirInode s d with
  | .ok (some n) => n.inodeSize
  | _ => 0

/-- The length of the chain of directory `d`. -/
def chainBlocks (s : Fs σ) (d : Nat) : Run Nat := do
  let dir ← dirInode s d
  match dir with
  | none => pure 0
  | some n => Linked.count 0 Block.next s.blocks walkFuel n.firstBlock

/-- A filesystem with the most entries each directory has had at one time. -/
structure Watched (σ : Type) where
  fs : Fs σ
  most : Nat → Nat

def watch (before : Nat → Nat) (s : Fs σ) : Watched σ where
  fs := s
  most := fun d => max (before d) (entriesIn s d)

/-- Each chain is as long as the most entries its directory has had need. -/
def Tight (w : Watched σ) : Prop := ∀ d, chainBlocks w.fs d = .ok ((w.most d + 14) / 15)

/-- A chain grows by one block, and only from a directory whose slots are all in use. -/
def GrowsWhenFull (w w' : Watched σ) : Prop :=
  ∀ d blocks blocks', chainBlocks w.fs d = .ok blocks → chainBlocks w'.fs d = .ok blocks' →
    blocks' ≠ blocks → entriesIn w.fs d = 15 * blocks ∧ blocks' = blocks + 1

/-- A create that passes its checks and finds a multiple of 15 entries finds as
many as the directory ever had. -/
def MeetsMark (w : Watched σ) : FsCall → Prop
  | .create parentIno name _ =>
      GrowsDirectory w.fs parentIno name → entriesIn w.fs parentIno = w.most parentIno
  | _ => True

def FsCall.EditsDirectory : FsCall → Prop
  | .create _ _ _ => True
  | .unlink _ _ => True
  | _ => False

/-- Entries and blocks of the directory a number names, over the nodes. -/
def measure (nodes : List Node) (d : Nat) : Nat × Nat :=
  match findNode nodes d with
  | none => (0, 0)
  | some n => if n.inode.inodeType = 2 then (n.inode.inodeSize, n.chain.length) else (0, 0)

theorem measure_dir {nodes : List Node} {d : Nat} {n : Node} (found : findNode nodes d = some n)
    (dir : n.inode.inodeType = 2) : measure nodes d = (n.inode.inodeSize, n.chain.length) := by
  simp [measure, found, dir]

theorem measure_replace {nodes : List Node} {p : Nat} {n n' : Node} (found : findNode nodes p = some n)
    (number : n'.inode.ino = p) (dir : n'.inode.inodeType = 2) :
    measure (replaceNode nodes p n') =
      Function.update (measure nodes) p (n'.inode.inodeSize, n'.chain.length) := by
  funext d
  rw [measure, findNode_replace nodes p n' number]
  by_cases hit : d = p
  · subst hit
    simp [found, dir]
  · rw [if_neg hit, Function.update_of_ne hit]
    rfl

section Nodes

variable {raw : Nat → Region} {s : Fs σ} {nodes : List Node}

/-- A new object has neither entries nor blocks. -/
theorem measure_new (s : Fs σ) (inodeType : UInt8) (absent : findNode nodes s.nextIno = none) :
    measure (newNode s inodeType :: nodes) = measure nodes := by
  funext d
  by_cases hit : d = s.nextIno
  · have front : findNode (newNode s inodeType :: nodes) s.nextIno = some (newNode s inodeType) := by
      simp [findNode, newNode]
    subst hit
    rw [measure, measure, front, absent]
    by_cases dir : (newNode s inodeType).inode.inodeType = 2
    · simp only [if_pos dir]
      rfl
    · simp only [if_neg dir]
  · have different : (newNode s inodeType).inode.ino ≠ d := fun same => hit same.symm
    rw [measure, findNode_cons different]
    rfl

theorem measured (shape : Shape raw s nodes) (d : Nat) :
    entriesIn s d = (measure nodes d).1 ∧ chainBlocks s d = .ok (measure nodes d).2 := by
  cases found : findNode nodes d with
  | none => simp [entriesIn, chainBlocks, dirInode, measure, findInode_miss shape found, found]
  | some n =>
      obtain ⟨pointer, nonnull, stored⟩ := findInode_hit shape found
      obtain ⟨member, _⟩ := findNode_some found
      have counted := Linked.count_spec walkFuel _ _ (shape.chains n member) (shape.chain_fuel n member)
      by_cases dir : n.inode.inodeType = 2
      · simp [entriesIn, chainBlocks, dirInode, measure, pointer, nonnull, stored, found, dir, counted]
      · simp [entriesIn, chainBlocks, dirInode, measure, pointer, nonnull, stored, found, dir]

/-- A directory that passes the checks of `fs_create` takes the entry. -/
theorem GrowsDirectory.creates (ok : FsOk raw s nodes) {parentIno : Nat} {name line : List UInt8}
    (grows : GrowsDirectory s parentIno name) (ends : Terminated name line) {n : Node}
    (found : findNode nodes parentIno = some n) :
    CreatesIn n line ∧ n.inode.inodeSize % direntsPerBlock = 0 := by
  obtain ⟨p, m, len, last, pointer, stored, dir, length, nonempty, short, done, full⟩ := grows
  obtain ⟨pointer', _, stored'⟩ := findInode_hit ok.shape found
  obtain ⟨member, _⟩ := findNode_some found
  rw [pointer', Except.ok.injEq] at pointer
  subst pointer
  rw [stored', Option.some.injEq] at stored
  subst stored
  rw [strlen_spec name line ends, Except.ok.injEq] at length
  subst length
  have slots := ok.tree.slots n member dir
  rcases scanName_spec ok.shape n member slots name line ends with ⟨j, _, _, hit⟩ | ⟨fresh, _⟩
  · rw [hit, Except.ok.injEq] at done
    cases done
  · simp only [maxSize] at short
    exact ⟨⟨dir, nonempty, by omega, fresh⟩, full⟩

/-- How a call changes entries and blocks of the directories. -/
inductive Measured (s : Fs σ) (nodes nodes' : List Node) : FsCall → Prop where
  | added (d : Nat) (name : List UInt8) (inodeType : UInt8)
      (grows : GrowsDirectory s d name ↔ (measure nodes d).1 % 15 = 0)
      (change : measure nodes' = Function.update (measure nodes) d
        ((measure nodes d).1 + 1, (measure nodes d).2 + if (measure nodes d).1 % 15 = 0 then 1 else 0)) :
      Measured s nodes nodes' (.create d name inodeType)
  | refused (d : Nat) (name : List UInt8) (inodeType : UInt8)
      (idle : GrowsDirectory s d name → measure nodes d = (0, 0)) (same : measure nodes' = measure nodes) :
      Measured s nodes nodes' (.create d name inodeType)
  | removed (d : Nat) (name : List UInt8)
      (change : measure nodes' =
        Function.update (measure nodes) d ((measure nodes d).1 - 1, (measure nodes d).2)) :
      Measured s nodes nodes' (.unlink d name)
  | kept (d : Nat) (name : List UInt8) (same : measure nodes' = measure nodes) :
      Measured s nodes nodes' (.unlink d name)

theorem fsUnlink_measured (ok : FsOk raw s nodes) (parentIno : Nat) {name line : List UInt8}
    (ends : Terminated name line) :
    Guarded (fun r => ∃ nodes', FsOk raw r.2 nodes' ∧ Measured s nodes nodes' (.unlink parentIno name))
      (fsUnlink s parentIno name) := by
  rcases fsUnlink_spec ok parentIno name line ends with
    ⟨n, n', t, found, removes, removed, length, returned, _, kept⟩ | ⟨_, returned⟩
  · rw [returned]
    have dir := removes.1
    obtain ⟨number, type, size⟩ := removed.inode
    refine .ok _ ⟨_, kept, .removed parentIno name ?_⟩
    rw [measure_replace found (number.trans (findNode_some found).2) (type.trans dir), measure_dir found dir,
      size, length]
  · rw [returned]
    exact .ok _ ⟨nodes, ok, .kept parentIno name rfl⟩

variable [Backing σ]

theorem fsCreate_measured (ok : FsOk raw s nodes) (null : ∀ a, decode 8 (raw a) = 0) (parentIno : Nat)
    {name line : List UInt8} (inodeType : UInt8) (ends : Terminated name line) :
    Guarded (fun r => ∃ nodes', FsOk raw r.2 nodes' ∧ Measured s nodes nodes' (.create parentIno name inodeType))
      (fsCreate s parentIno name inodeType) := by
  have per : direntsPerBlock = 15 := rfl
  rcases fsCreate_spec ok parentIno name line ends inodeType (fun _ _ _ _ => null _) with
    ⟨n, found, creates, made⟩ | ⟨refused, returned⟩
  · have dir := creates.1
    apply made.guarded
    · have small : ∀ size ∈ [inodeBytes] ++ entryBlock n.inode.inodeSize, size ≤ heapMaxSize := by
        intro size member
        apply requests_small nodes (.create parentIno name inodeType) size
        rw [FsCall.requests, found, ends.text_eq]
        simp only [if_pos creates]
        exact member
      exact fun stop stopped => allocs_stop s.heap _ ok.shape.heap small stop stopped
    · rintro _ ⟨number, t⟩ ⟨_, _, n', added, length, kept⟩
      obtain ⟨same, type, size⟩ := added.inode
      refine ⟨_, kept, .added parentIno name inodeType ?_ ?_⟩
      · rw [measure_dir found dir]
        constructor
        · intro grows
          exact (grows.creates ok ends found).2
        · intro full
          exact creates.grows ok ends found full
      · have absent : findNode (replaceNode nodes parentIno n') s.nextIno = none := by
          have number' := same.trans (findNode_some found).2
          rw [findNode, List.find?_eq_none]
          intro m member
          have below : m.inode.ino < s.nextIno := by
            rcases mem_replaceNode member with rfl | ⟨old, _⟩
            · rw [same]
              exact (ok.shape.numbered n (findNode_some found).1).2
            · exact (ok.shape.numbered m old).2
          simpa using Nat.ne_of_lt below
        rw [measure_new s inodeType absent,
          measure_replace found (same.trans (findNode_some found).2) (type.trans dir), measure_dir found dir,
          size, length, entryBlock_length, per]
  · rw [returned]
    refine .ok _ ⟨nodes, ok, .refused parentIno name inodeType ?_ rfl⟩
    intro grows
    cases found : findNode nodes parentIno with
    | none => simp [measure, found]
    | some n => exact absurd (grows.creates ok ends found).1 (refused n found)

theorem fsStep_measured (ok : FsOk raw s nodes) (null : ∀ a, decode 8 (raw a) = 0) (call : FsCall)
    (edits : call.EditsDirectory) (valid : call.Valid) :
    Guarded (fun r => ∃ nodes', FsOk raw r.2 nodes' ∧ Measured s nodes nodes' call) (fsStep s call) := by
  cases call with
  | create parentIno name inodeType =>
      obtain ⟨line, ends⟩ := valid.wellFormed
      exact (fsCreate_measured ok null parentIno inodeType ends).bind fun _ holds => .ok _ holds
  | unlink parentIno name =>
      obtain ⟨line, ends⟩ := valid.wellFormed
      exact (fsUnlink_measured ok parentIno ends).bind fun _ holds => .ok _ holds
  | _ => exact edits.elim

end Nodes

section Runs

variable [Backing σ]

def watchedStep (w : Watched σ) (call : FsCall) : Run (FsResult × Watched σ) := do
  let (out, s) ← fsStep w.fs call
  pure (out, watch w.most s)

def watchedBoot (back : σ) (raw : Nat → Region) : Run (Watched σ) := do
  let s ← fsBoot back raw
  pure (watch (fun _ => 0) s)

def watchedRun (back : σ) (raw : Nat → Region) (calls : List FsCall) : Run (List FsResult × Watched σ) := do
  let w ← watchedBoot back raw
  Replay.attempt watchedStep w calls

/-- Watching changes nothing: without the marks it is the run of the filesystem. -/
theorem watchedRun_fs (back : σ) (raw : Nat → Region) (calls : List FsCall) :
    (watchedRun back raw calls).map (Prod.map id Watched.fs) = fsRun back raw calls := by
  have view : ∀ (w : Watched σ) call,
      (watchedStep w call).map (Prod.map id Watched.fs) = fsStep w.fs call := by
    intro w call
    unfold watchedStep
    cases fsStep w.fs call <;> rfl
  unfold watchedRun watchedBoot fsRun
  cases fsBoot back raw with
  | error stop => rfl
  | ok s => exact Replay.attempt_view watchedStep fsStep Watched.fs view calls (watch (fun _ => 0) s)

def TightStep (w : Watched σ) (call : FsCall) : Prop :=
  ∀ out w', watchedStep w call = .ok (out, w') → GrowsWhenFull w w' ∧ Tight w'

/-- From `fs_init` on, and behind every call of the run. -/
def TightRun (back : σ) (raw : Nat → Region) (calls : List FsCall) : Prop :=
  ∀ w, watchedBoot back raw = .ok w → Tight w ∧ Replay.Along watchedStep TightStep w calls

def MeetsMarkRun (back : σ) (raw : Nat → Region) (calls : List FsCall) : Prop :=
  ∀ w, watchedBoot back raw = .ok w → Replay.Along watchedStep MeetsMark w calls

/-- A store whose chains are as long as the marks need. -/
def Ledger (raw : Nat → Region) (w : Watched σ) : Prop :=
  ∃ nodes, FsOk raw w.fs nodes ∧ ∀ d, (measure nodes d).1 ≤ w.most d ∧
    (measure nodes d).2 = (w.most d + 14) / 15

omit [Backing σ] in
theorem Ledger.of_tight {raw : Nat → Region} {s : Fs σ} {nodes : List Node} (ok : FsOk raw s nodes)
    (before : Nat → Nat) (tight : Tight (watch before s)) : Ledger raw (watch before s) := by
  refine ⟨nodes, ok, ?_⟩
  intro d
  obtain ⟨entries, blocks⟩ := measured ok.shape d
  have long := tight d
  simp only [watch, entries, blocks, Except.ok.injEq] at long ⊢
  exact ⟨Nat.le_max_right _ _, long⟩

/-- An added entry that starts a block only at the mark: the chain grows from full slots
and stays as short as the mark allows. -/
theorem block_step {entries blocks most : Nat} (below : entries ≤ most) (tight : blocks = (most + 14) / 15)
    (mark : entries % 15 = 0 → entries = most) :
    ((blocks + if entries % 15 = 0 then 1 else 0) ≠ blocks →
      entries = 15 * blocks ∧ (blocks + if entries % 15 = 0 then 1 else 0) = blocks + 1) ∧
    (blocks + if entries % 15 = 0 then 1 else 0) = (max most (entries + 1) + 14) / 15 := by
  by_cases full : entries % 15 = 0
  · have same := mark full
    rw [if_pos full]
    omega
  · rw [if_neg full]
    omega

omit [Backing σ] in
/-- What one call does to the marks: the chains stay tight exactly when the
entry met the mark. -/
theorem Measured.tight_iff {raw : Nat → Region} {w : Watched σ} {s' : Fs σ} {nodes nodes' : List Node}
    {call : FsCall} (ok : FsOk raw w.fs nodes) (ok' : FsOk raw s' nodes')
    (ledger : ∀ d, (measure nodes d).1 ≤ w.most d ∧ (measure nodes d).2 = (w.most d + 14) / 15)
    (effect : Measured w.fs nodes nodes' call) :
    (GrowsWhenFull w (watch w.most s') ∧ Tight (watch w.most s')) ↔ MeetsMark w call := by
  have entries : ∀ d, entriesIn w.fs d = (measure nodes d).1 := fun d => (measured ok.shape d).1
  have blocks : ∀ d, chainBlocks w.fs d = .ok (measure nodes d).2 := fun d => (measured ok.shape d).2
  have entries' : ∀ d, entriesIn s' d = (measure nodes' d).1 := fun d => (measured ok'.shape d).1
  have blocks' : ∀ d, chainBlocks s' d = .ok (measure nodes' d).2 := fun d => (measured ok'.shape d).2
  simp only [GrowsWhenFull, Tight, watch, blocks, blocks', entries, entries', Except.ok.injEq]
  -- a call that adds no entry leaves chains and marks as they are
  have still : (∀ d, (measure nodes' d).1 ≤ (measure nodes d).1 ∧ (measure nodes' d).2 = (measure nodes d).2) →
      ((∀ d a b, (measure nodes d).2 = a → (measure nodes' d).2 = b → b ≠ a →
          (measure nodes d).1 = 15 * a ∧ b = a + 1) ∧
        ∀ d, (measure nodes' d).2 = (max (w.most d) (measure nodes' d).1 + 14) / 15) := by
    intro lower
    constructor
    · rintro d a b rfl rfl different
      exact absurd (lower d).2 different
    · intro d
      obtain ⟨fewer, same⟩ := lower d
      obtain ⟨below, tight⟩ := ledger d
      rw [same, tight, Nat.max_eq_left (fewer.trans below)]
  cases effect with
  | refused d name inodeType idle same =>
      refine ⟨fun _ grows => ?_, fun _ => still fun d => by rw [same]; exact ⟨Nat.le_refl _, rfl⟩⟩
      have tight := (ledger d).2
      rw [idle grows] at tight
      rw [entries, idle grows]
      omega
  | removed d name change =>
      refine ⟨fun _ => trivial, fun _ => still ?_⟩
      intro e
      rw [change]
      by_cases hit : e = d
      · subst hit
        rw [Function.update_self]
        exact ⟨Nat.sub_le _ _, rfl⟩
      · rw [Function.update_of_ne hit]
        exact ⟨Nat.le_refl _, rfl⟩
  | kept d name same =>
      exact ⟨fun _ => trivial, fun _ => still fun d => by rw [same]; exact ⟨Nat.le_refl _, rfl⟩⟩
  | added d name inodeType grows change =>
      obtain ⟨below, tight⟩ := ledger d
      constructor
      · rintro ⟨_, long⟩ full
        have here := long d
        rw [change, Function.update_self, if_pos (grows.mp full)] at here
        simp only at here
        rw [entries]
        omega
      · intro met
        have mark : (measure nodes d).1 % 15 = 0 → (measure nodes d).1 = w.most d := by
          intro full
          rw [← entries]
          exact met (grows.mpr full)
        constructor
        · rintro e a b rfl rfl different
          by_cases hit : e = d
          · subst hit
            rw [change, Function.update_self] at different ⊢
            exact (block_step below tight mark).1 different
          · rw [change, Function.update_of_ne hit] at different
            exact absurd rfl different
        · intro e
          by_cases hit : e = d
          · subst hit
            rw [change, Function.update_self]
            exact (block_step below tight mark).2
          · rw [change, Function.update_of_ne hit, Nat.max_eq_left (ledger e).1]
            exact (ledger e).2

theorem watchedStep_ok (w w' : Watched σ) (call : FsCall) (out : FsResult) :
    watchedStep w call = .ok (out, w') ↔ ∃ s', fsStep w.fs call = .ok (out, s') ∧ w' = watch w.most s' := by
  unfold watchedStep
  cases fsStep w.fs call with
  | error stop => simp
  | ok r => simp [Prod.ext_iff, eq_comm, and_assoc]

theorem watchedBoot_ledger (back : σ) (raw : Nat → Region) :
    Guarded (fun w => Tight w ∧ Ledger raw w) (watchedBoot back raw) := by
  unfold watchedBoot
  apply (fsBoot_mounted back raw).bind
  rintro s ⟨_, mounted, rfl⟩
  have shape := mounted.ok.shape
  have none_ : measure [newNode (fsEmpty (kheapInit back) raw) 2] = fun _ => (0, 0) := by
    have empty : measure [] = fun _ => (0, 0) := rfl
    rw [measure_new _ 2 rfl, empty]
  have tight : Tight (watch (fun _ => 0) s) := by
    intro d
    obtain ⟨entries, blocks⟩ := measured shape d
    rw [none_] at entries blocks
    simp only [watch, blocks, entries]
    rfl
  exact .ok _ ⟨tight, Ledger.of_tight mounted.ok _ tight⟩

section Steps

variable {raw : Nat → Region} (null : ∀ a, decode 8 (raw a) = 0)

include null

theorem watchedStep_guarded (w : Watched σ) (call : FsCall) (ok : ∃ nodes, FsOk raw w.fs nodes)
    (edits : call.EditsDirectory ∧ call.Valid) :
    Guarded (fun r => ∃ nodes, FsOk raw r.2.fs nodes) (watchedStep w call) := by
  obtain ⟨nodes, ok⟩ := ok
  exact (fsStep_measured ok null call edits.1 edits.2).bind fun _ ⟨nodes', kept, _⟩ => .ok _ ⟨nodes', kept⟩

theorem tightStep_iff (w w' : Watched σ) (call : FsCall) (out : FsResult) (ledger : Ledger raw w)
    (edits : call.EditsDirectory ∧ call.Valid) (done : watchedStep w call = .ok (out, w')) :
    TightStep w call ↔ MeetsMark w call := by
  obtain ⟨nodes, ok, marks⟩ := ledger
  obtain ⟨s', stepped, rfl⟩ := (watchedStep_ok w w' call out).mp done
  obtain ⟨nodes', ok', effect⟩ := (fsStep_measured ok null call edits.1 edits.2).of_eq stepped
  rw [← effect.tight_iff ok ok' marks]
  constructor
  · intro tight
    exact tight out _ done
  · intro holds out' w'' again
    rw [done, Except.ok.injEq, Prod.mk.injEq] at again
    exact again.2 ▸ holds

theorem tightStep_ledger (w w' : Watched σ) (call : FsCall) (out : FsResult) (ledger : Ledger raw w)
    (edits : call.EditsDirectory ∧ call.Valid) (tight : TightStep w call)
    (done : watchedStep w call = .ok (out, w')) : Ledger raw w' := by
  obtain ⟨nodes, ok, _⟩ := ledger
  obtain ⟨s', stepped, rfl⟩ := (watchedStep_ok w w' call out).mp done
  obtain ⟨nodes', ok', _⟩ := (fsStep_measured ok null call edits.1 edits.2).of_eq stepped
  exact Ledger.of_tight ok' _ (tight out _ done).2

end Steps

/-- A run of creates and unlinks that returns keeps every chain as short as the
most entries of its directory allow, and grows it from full slots only, if and
only if each accepted create that finds a multiple of 15 entries met the mark. -/
theorem directories_tight_iff_mark_met (back : σ) (raw : Nat → Region) (zeros : ∀ a i, raw a i = 0)
    (calls : List FsCall) (edits : ∀ call ∈ calls, call.EditsDirectory ∧ call.Valid) :
    Guarded (fun _ => TightRun back raw calls ↔ MeetsMarkRun back raw calls) (watchedRun back raw calls) := by
  have null := zero_null zeros
  unfold watchedRun
  apply (watchedBoot_ledger back raw).bind_eq
  rintro w booted ⟨tight, ledger⟩
  have guarded := Replay.attempt_guarded watchedStep (fun w => ∃ nodes, FsOk raw w.fs nodes)
    (fun _ call => call.EditsDirectory ∧ call.Valid) (watchedStep_guarded null) calls w
    (ledger.imp fun _ holds => holds.1) (Replay.along_of_forall watchedStep _ calls w edits)
  apply guarded.mono_eq
  intro r done _
  have same := Replay.along_congr_returned watchedStep (Ledger raw)
    (fun call => call.EditsDirectory ∧ call.Valid) TightStep MeetsMark
    (fun w call out w' => tightStep_iff null w w' call out)
    (fun w call out w' => tightStep_ledger null w w' call out) calls w r.2 r.1 ledger edits done
  have started : ∀ w', watchedBoot back raw = .ok w' ↔ w' = w := by
    intro w'
    rw [booted, Except.ok.injEq, eq_comm]
  simp only [TightRun, MeetsMarkRun, started, forall_eq, same]
  exact ⟨fun holds => holds.2, fun holds => ⟨tight, holds⟩⟩

/-- An entry comes back while the directory has another one. -/
def replaceCalls : List FsCall :=
  [.create 1 nameA 1, .create 1 nameB 2, .unlink 1 nameA, .create 1 nameA 1]

theorem replaceCalls_edit : ∀ call ∈ replaceCalls, call.EditsDirectory ∧ call.Valid := by
  simp only [replaceCalls, List.forall_mem_cons, List.not_mem_nil, false_imp_iff, implies_true, and_true]
  exact ⟨⟨trivial, ⟨[97], nameA_ends⟩, trivial⟩, ⟨trivial, ⟨[98], nameB_ends⟩, trivial⟩,
    ⟨trivial, ⟨[97], nameA_ends⟩, trivial⟩, trivial, ⟨[97], nameA_ends⟩, trivial⟩

theorem directories_tight_iff_mark_met_replace :
    ∃ r, watchedRun Endless.mk (fun _ _ => 0) replaceCalls = .ok r ∧
      (TightRun Endless.mk (fun _ _ => 0) replaceCalls ↔
        MeetsMarkRun Endless.mk (fun _ _ => 0) replaceCalls) := by
  have guarded := directories_tight_iff_mark_met Endless.mk (fun _ _ => 0) (fun _ _ => rfl) replaceCalls
    replaceCalls_edit
  exact guarded.returned (by decide +kernel)

theorem TightRun.last {back : σ} {raw : Nat → Region} {calls : List FsCall} (tight : TightRun back raw calls)
    {r : List FsResult × Watched σ} (done : watchedRun back raw calls = .ok r) : Tight r.2 := by
  obtain ⟨w, booted, rest⟩ := (bind_ok_iff _ _ _).mp done
  obtain ⟨start, along⟩ := tight w booted
  exact along.invariant Tight (fun _ _ out next _ step made => (step out next made).2) calls w r.1 r.2 start rest

/-- The last create finds an empty directory that has a block, and appends another. -/
theorem refill_appends_block :
    ¬ ∀ (σ : Type) (_ : Backing σ) (back : σ) (raw : Nat → Region) (_ : ∀ a i, raw a i = 0)
      (calls : List FsCall) (_ : ∀ call ∈ calls, call.EditsDirectory ∧ call.Valid),
      Guarded (fun _ => TightRun back raw calls) (watchedRun back raw calls) := by
  intro claimed
  have edits : ∀ call ∈ refillCalls, call.EditsDirectory ∧ call.Valid := by
    intro call member
    refine ⟨?_, refillCalls_valid call member⟩
    simp only [refillCalls, List.mem_cons, List.not_mem_nil, or_false] at member
    rcases member with rfl | rfl | rfl <;> trivial
  have tight := claimed Endless inferInstance Endless.mk (fun _ _ => 0) (fun _ _ => rfl) refillCalls edits
  have ran : (watchedRun Endless.mk (fun _ _ => 0) refillCalls).map
      (fun r => (chainBlocks r.2.fs 1, r.2.most 1)) = .ok (.ok 2, 1) := by decide +kernel
  cases result : watchedRun Endless.mk (fun _ _ => 0) refillCalls with
  | error stop =>
      rw [result] at ran
      simp [Except.map] at ran
  | ok r =>
      have long := (tight.of_eq result).last result 1
      rw [result] at ran
      obtain ⟨blocks, mark⟩ := Prod.mk.inj (Except.ok.inj ran)
      rw [blocks, mark] at long
      exact absurd long (by decide)

end Runs

end KehindeKernel
