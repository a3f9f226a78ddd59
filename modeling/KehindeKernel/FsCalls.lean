import KehindeKernel.FsDirectory
import KehindeKernel.FsFile
import KehindeKernel.FsLookup
import KehindeKernel.Lib.Replay

/-!
The filesystem as a machine that takes one call after the other. `fsStep_effect`
says once what each call does to the nodes of the store; every property of runs
is read off it. What the calls rely on and `append_block` does not establish is a
null link word in each block `kmalloc` hands out.
-/

namespace KehindeKernel

open Outcome Bytes

inductive FsCall where
  | init
  | lookup (path : List UInt8)
  | create (parentIno : Nat) (name : List UInt8) (inodeType : UInt8)
  | unlink (parentIno : Nat) (name : List UInt8)
  | write (ino offset len : Nat) (buf : Option (List UInt8))
  | read (ino offset len : Nat) (buf : Option Nat)
  | readdir (dirIno index : Nat) (out : Bool)
  | stat (ino : Nat) (sizeOut typeOut : Bool)

inductive FsResult where
  | done
  | ino (number : Nat)
  | code (value : Int)
  | bytes (value : Int) (out : List UInt8)
  | entry (value : Int) (out : Option Dirent)
  | stat (value : Int) (size : Option Nat) (type : Option UInt8)
  deriving DecidableEq

/-- The caller's side: strings end, buffers have room. -/
def FsCall.WellFormed : FsCall → Prop
  | .lookup path => ∃ line, Terminated path line
  | .create _ name _ => ∃ line, Terminated name line
  | .unlink _ name => ∃ line, Terminated name line
  | .write _ offset len buf => ∀ src, buf = some src → RangeSized offset len ∧ len ≤ src.length
  | .read _ offset len buf => ∀ capacity, buf = some capacity → RangeSized offset len ∧ len ≤ capacity
  | _ => True

theorem wellFormed_write (ino : Nat) {offset len : Nat} {src : List UInt8} (sized : RangeSized offset len)
    (room : len ≤ src.length) : (FsCall.write ino offset len (some src)).WellFormed := by
  rintro _ ⟨rfl⟩
  exact ⟨sized, room⟩

theorem wellFormed_read (ino : Nat) {offset len capacity : Nat} (sized : RangeSized offset len)
    (room : len ≤ capacity) : (FsCall.read ino offset len (some capacity)).WellFormed := by
  rintro _ ⟨rfl⟩
  exact ⟨sized, room⟩

/-- The range of the call does not wrap. -/
def FsCall.InRange : FsCall → Prop
  | .write _ offset len _ => offset + len < 2 ^ 64
  | .read _ offset len _ => offset + len < 2 ^ 64
  | _ => True

structure FsCall.Valid (call : FsCall) : Prop where
  wellFormed : call.WellFormed
  range : call.InRange

theorem all_wellFormed {calls : List FsCall} (valid : ∀ call ∈ calls, call.Valid) :
    ∀ call ∈ calls, call.WellFormed := fun call member => (valid call member).wellFormed

variable {σ : Type}

def fsStep [Backing σ] (s : Fs σ) : FsCall → Run (FsResult × Fs σ)
  | .init => do
      let s ← fsInit s
      pure (.done, s)
  | .lookup path => do
      let number ← fsLookup s path
      pure (.ino number, s)
  | .create parentIno name inodeType => do
      let (number, s) ← fsCreate s parentIno name inodeType
      pure (.ino number, s)
  | .unlink parentIno name => do
      let (value, s) ← fsUnlink s parentIno name
      pure (.code value, s)
  | .write ino offset len buf => do
      let (value, s) ← fsWrite s ino offset len buf
      pure (.code value, s)
  | .read ino offset len buf => do
      let (value, out) ← fsRead s ino offset len buf
      pure (.bytes value out, s)
  | .readdir dirIno index out => do
      let (value, entry) ← fsReaddir s dirIno index out
      pure (.entry value entry, s)
  | .stat ino sizeOut typeOut => do
      let (value, size, type) ← fsStat s ino sizeOut typeOut
      pure (.stat value size type, s)

/-- `fs_create` passes its checks and finds the last block full. -/
def GrowsDirectory (s : Fs σ) (parentIno : Nat) (name : List UInt8) : Prop :=
  ∃ p n len last, findInode s parentIno = .ok p ∧ s.inodes p = some n ∧ n.inodeType = 2 ∧
    strlen name = .ok len ∧ 1 ≤ len ∧ len < maxSize ∧
    scanDirents s n (fun entry => nameMatchesSingle entry name) (intTrips n.inodeSize) 0 none =
      .ok (.exhausted last) ∧
    n.inodeSize % direntsPerBlock = 0

/-- `fs_write` appends more than `k` blocks to reach `need` bytes. -/
def GrowsFile (s : Fs σ) (ino need k : Nat) : Prop :=
  ∃ p n blocks, findInode s ino = .ok p ∧ s.inodes p = some n ∧ n.inodeType = 1 ∧
    Linked.count 0 Block.next s.blocks walkFuel n.firstBlock = .ok blocks ∧
    payloadSize * (blocks + k) < need

/-- The blocks the call appends come from memory whose first word reads null. -/
def NullLinks (s : Fs σ) : FsCall → Prop
  | .create parentIno name _ => GrowsDirectory s parentIno name →
      decode 8 (s.raw (s.heap.requiredEnd inodeBytes)) = 0
  | .write ino offset len (some _) => ∀ k, GrowsFile s ino ((offset + len) % 2 ^ 64) k →
      decode 8 (s.raw (s.heap.bumpPtr + blockSize * k)) = 0
  | _ => True

theorem decode_zero (n : Nat) : decode n (fun _ => 0) = 0 := by
  induction n with
  | zero => rfl
  | succ n ih =>
      have rest : decode n (fun _ => (0 : UInt8)) = 0 := ih
      rw [decode, rest]
      rfl

theorem zero_null {raw : Nat → Region} (zeros : ∀ a i, raw a i = 0) (a : Nat) : decode 8 (raw a) = 0 := by
  rw [show raw a = fun _ => 0 from funext (zeros a)]
  exact decode_zero 8

/-- Memory in which every link reads null meets the condition. -/
theorem nullLinks_null (s : Fs σ) (null : ∀ a, decode 8 (s.raw a) = 0) (call : FsCall) :
    NullLinks s call := by
  cases call with
  | create => exact fun _ => null _
  | write ino offset len buf =>
      cases buf with
      | none => trivial
      | some src => exact fun _ _ => null _
  | _ => trivial

/-- What `fs_stat` returns over the nodes. -/
def statResult (found : Option Node) (sizeOut typeOut : Bool) : FsResult :=
  match found with
  | none => .stat (-1) none none
  | some n => .stat 0 (if sizeOut then some n.inode.inodeSize else none)
      (if typeOut then some n.inode.inodeType else none)

/-- What one call returns and does to the nodes of the store. -/
inductive Effect (raw : Nat → Region) (s : Fs σ) (nodes : List Node) :
    FsCall → FsResult → List Node → Prop where
  | init : Effect raw s nodes .init .done (newNode s 2 :: nodes)
  | lookup (path line : List UInt8) (ends : Terminated path line) :
      Effect raw s nodes (.lookup path) (.ino (lookupResult nodes line)) nodes
  | created (parentIno : Nat) (name line : List UInt8) (inodeType : UInt8) (n n' : Node)
      (ends : Terminated name line) (found : findNode nodes parentIno = some n)
      (creates : CreatesIn n line) (added : Added n n' line s.nextIno) :
      Effect raw s nodes (.create parentIno name inodeType) (.ino s.nextIno)
        (newNode s inodeType :: replaceNode nodes parentIno n')
  | notCreated (parentIno : Nat) (name line : List UInt8) (inodeType : UInt8)
      (ends : Terminated name line)
      (refused : ∀ n, findNode nodes parentIno = some n → ¬ CreatesIn n line) :
      Effect raw s nodes (.create parentIno name inodeType) (.ino invalidIno) nodes
  | unlinked (parentIno : Nat) (name line : List UInt8) (n n' : Node)
      (ends : Terminated name line) (found : findNode nodes parentIno = some n)
      (removes : RemovesFrom nodes n line) (removed : Removed n n' line) :
      Effect raw s nodes (.unlink parentIno name) (.code 0) (replaceNode nodes parentIno n')
  | notUnlinked (parentIno : Nat) (name line : List UInt8) (ends : Terminated name line)
      (refused : ∀ n, findNode nodes parentIno = some n → ¬ RemovesFrom nodes n line) :
      Effect raw s nodes (.unlink parentIno name) (.code (-1)) nodes
  | written (ino offset len : Nat) (src : List UInt8) (n n' : Node)
      (found : findNode nodes ino = some n) (file : n.inode.inodeType = 1) (room : len ≤ src.length)
      (small : offset + len < 2 ^ 64) (wrote : Wrote raw n n' offset (src.take len)) :
      Effect raw s nodes (.write ino offset len (some src)) (.code len) (replaceNode nodes ino n')
  | wrapped (ino offset len : Nat) (src : List UInt8) (n n' : Node)
      (found : findNode nodes ino = some n) (file : n.inode.inodeType = 1) (wraps : 2 ^ 64 ≤ offset + len)
      (longer : Longer raw n n')
      (reached : n'.chain.length = max n.chain.length (blocksFor ((offset + len) % 2 ^ 64))) :
      Effect raw s nodes (.write ino offset len (some src)) (.code (-1)) (replaceNode nodes ino n')
  | notWritten (ino offset len : Nat) (buf : Option (List UInt8))
      (refused : buf = none ∨ ∀ n, findNode nodes ino = some n → n.inode.inodeType ≠ 1) :
      Effect raw s nodes (.write ino offset len buf) (.code (-1)) nodes
  | read (ino offset len capacity : Nat) :
      Effect raw s nodes (.read ino offset len (some capacity))
        (.bytes (readResult (findNode nodes ino) offset len).1
          (readResult (findNode nodes ino) offset len).2) nodes
  | notRead (ino offset len : Nat) :
      Effect raw s nodes (.read ino offset len none) (.bytes (-1) []) nodes
  | readdir (dirIno index : Nat) (out : Bool) :
      Effect raw s nodes (.readdir dirIno index out)
        (.entry (readdirResult (findNode nodes dirIno) index out).1
          (readdirResult (findNode nodes dirIno) index out).2) nodes
  | stat (ino : Nat) (sizeOut typeOut : Bool) :
      Effect raw s nodes (.stat ino sizeOut typeOut) (statResult (findNode nodes ino) sizeOut typeOut)
        nodes

instance (n : Node) (line : List UInt8) : Decidable (CreatesIn n line) :=
  inferInstanceAs (Decidable (_ ∧ _ ∧ _ ∧ _))

/-- What a call requests from the heap. -/
def FsCall.requests (nodes : List Node) : FsCall → List Nat
  | .init => [inodeBytes]
  | .create parentIno name _ =>
      match findNode nodes parentIno with
      | none => []
      | some n => if CreatesIn n (text name) then [inodeBytes] ++ entryBlock n.inode.inodeSize else []
  | .write ino offset len (some _) =>
      match findNode nodes ino with
      | none => []
      | some n =>
          if n.inode.inodeType = 1 then
            List.replicate (blocksFor ((offset + len) % 2 ^ 64) - n.chain.length) blockSize
          else []
  | _ => []

theorem requests_small (nodes : List Node) (call : FsCall) (size : Nat)
    (member : size ∈ call.requests nodes) : size ≤ heapMaxSize := by
  have known : size = inodeBytes ∨ size = blockSize := by
    cases call with
    | init => exact Or.inl (List.mem_singleton.mp member)
    | create parentIno name inodeType =>
        rw [FsCall.requests] at member
        cases found : findNode nodes parentIno with
        | none => simp [found] at member
        | some n =>
            simp only [found, entryBlock] at member
            split at member
            · split at member
              · simpa using member
              · exact Or.inl (by simpa using member)
            · simp at member
    | write ino offset len buf =>
        cases buf with
        | none => simp [FsCall.requests] at member
        | some src =>
            rw [FsCall.requests] at member
            cases found : findNode nodes ino with
            | none => simp [found] at member
            | some n =>
                simp only [found] at member
                split at member
                · exact Or.inr (List.eq_of_mem_replicate member)
                · simp at member
    | _ => simp [FsCall.requests] at member
  rcases known with rfl | rfl <;> decide

section Step

variable {raw : Nat → Region} {s : Fs σ} {nodes : List Node}

theorem fsStat_spec (shape : Shape raw s nodes) (ino : Nat) (sizeOut typeOut : Bool) :
    fsStat s ino sizeOut typeOut = .ok (match findNode nodes ino with
      | none => (-1, none, none)
      | some n => (0, if sizeOut then some n.inode.inodeSize else none,
          if typeOut then some n.inode.inodeType else none)) := by
  cases found : findNode nodes ino with
  | none => simp [fsStat, findInode_miss shape found]
  | some n =>
      obtain ⟨pointer, nonnull, stored⟩ := findInode_hit shape found
      simp [fsStat, pointer, nonnull, stored]

theorem CreatesIn.grows (ok : FsOk raw s nodes) {parentIno : Nat} {name line : List UInt8} {n : Node}
    (creates : CreatesIn n line) (ends : Terminated name line) (found : findNode nodes parentIno = some n)
    (full : n.inode.inodeSize % direntsPerBlock = 0) : GrowsDirectory s parentIno name := by
  obtain ⟨dir, nonempty, short, fresh⟩ := creates
  obtain ⟨pointer, _, stored⟩ := findInode_hit ok.shape found
  obtain ⟨member, _⟩ := findNode_some found
  have slots := ok.tree.slots n member dir
  rcases scanName_spec ok.shape n member slots name line ends with ⟨j, inside, named, _⟩ | ⟨_, done⟩
  · exact absurd ((mem_names n line).mpr ⟨j, inside, named⟩) fresh
  · have small : line.length < maxSize := by
      simp only [maxSize]
      omega
    exact ⟨_, _, _, _, pointer, stored, dir, strlen_spec name line ends, nonempty, small, done, full⟩

/-- The link condition of a call, at the node the call works on. -/
theorem NullLinks.create (ok : FsOk raw s nodes) {parentIno : Nat} {name line : List UInt8}
    {inodeType : UInt8} (links : NullLinks s (.create parentIno name inodeType))
    (ends : Terminated name line) (n : Node) (found : findNode nodes parentIno = some n)
    (creates : CreatesIn n line) (full : n.inode.inodeSize % direntsPerBlock = 0) :
    decode 8 (raw (s.heap.bumpPtr + 48)) = 0 := by
  have link := links (creates.grows ok ends found full)
  rw [ok.shape.memory] at link
  exact link

theorem NullLinks.write (ok : FsOk raw s nodes) {ino offset len : Nat} {src : List UInt8}
    (links : NullLinks s (.write ino offset len (some src))) (n : Node)
    (found : findNode nodes ino = some n) (file : n.inode.inodeType = 1) (k : Nat)
    (below : payloadSize * (n.chain.length + k) < (offset + len) % 2 ^ 64) :
    decode 8 (raw (s.heap.bumpPtr + blockSize * k)) = 0 := by
  obtain ⟨pointer, _, stored⟩ := findInode_hit ok.shape found
  obtain ⟨member, _⟩ := findNode_some found
  have counted := Linked.count_spec walkFuel _ _ (ok.shape.chains n member)
    (ok.shape.chain_fuel n member)
  have link := links k ⟨_, _, _, pointer, stored, file, counted, below⟩
  rw [ok.shape.memory] at link
  exact link

theorem fsUnlink_follows (ok : FsOk raw s nodes) (parentIno : Nat) {name line : List UInt8}
    (ends : Terminated name line) :
    Follows (fun heap r => r.2.heap = heap ∧
        ∃ nodes', Effect raw s nodes (.unlink parentIno name) (.code r.1) nodes' ∧ FsOk raw r.2 nodes')
      (.ok s.heap) (fsUnlink s parentIno name) := by
  rcases fsUnlink_spec ok parentIno name line ends with
    ⟨n, n', t, found, removes, removed, _, returned, sameHeap, kept⟩ | ⟨refused, returned⟩
  · rw [returned]
    exact .ok _ _ ⟨sameHeap, _, .unlinked parentIno name line n n' ends found removes removed, kept⟩
  · rw [returned]
    exact .ok _ _ ⟨rfl, nodes, .notUnlinked parentIno name line ends refused, ok⟩

theorem fsUnlink_effect (ok : FsOk raw s nodes) (parentIno : Nat) {name line : List UInt8}
    (ends : Terminated name line) :
    Guarded (fun r => ∃ nodes', Effect raw s nodes (.unlink parentIno name) (.code r.1) nodes' ∧
        FsOk raw r.2 nodes')
      (fsUnlink s parentIno name) :=
  (fsUnlink_follows ok parentIno ends).guarded (fun _ stopped => by contradiction) fun _ _ holds => holds.2

variable [Backing σ]

theorem requests_panic (ok : FsOk raw s nodes) (call : FsCall) (stop : Stop)
    (stopped : allocs s.heap (call.requests nodes) = .error stop) : stop = .panic :=
  allocs_stop s.heap _ ok.shape.heap (requests_small nodes call) stop stopped

theorem fsCreate_follows (ok : FsOk raw s nodes) {parentIno : Nat} {name line : List UInt8}
    {inodeType : UInt8} (ends : Terminated name line)
    (links : NullLinks s (.create parentIno name inodeType)) :
    Follows (fun heap r => r.2.heap = heap ∧ ∃ nodes',
        Effect raw s nodes (.create parentIno name inodeType) (.ino r.1) nodes' ∧ FsOk raw r.2 nodes')
      (allocs s.heap (FsCall.requests nodes (.create parentIno name inodeType)))
      (fsCreate s parentIno name inodeType) := by
  rcases fsCreate_spec ok parentIno name line ends inodeType
    (fun n found creates => links.create ok ends n found creates) with
    ⟨n, found, creates, made⟩ | ⟨refused, returned⟩
  · simp only [FsCall.requests, found, ends.text_eq, if_pos creates]
    apply made.mono
    rintro _ ⟨number, t⟩ ⟨rfl, rfl, n', added, _, kept⟩
    exact ⟨rfl, _, .created parentIno name line inodeType n n' ends found creates added, kept⟩
  · have none_ : FsCall.requests nodes (.create parentIno name inodeType) = [] := by
      rw [FsCall.requests]
      cases found : findNode nodes parentIno with
      | none => rfl
      | some n =>
          rw [ends.text_eq]
          exact if_neg (refused n found)
    rw [returned, none_]
    exact .ok _ _ ⟨rfl, nodes, .notCreated parentIno name line inodeType ends refused, ok⟩

theorem fsCreate_effect (ok : FsOk raw s nodes) {parentIno : Nat} {name line : List UInt8}
    {inodeType : UInt8} (ends : Terminated name line)
    (links : NullLinks s (.create parentIno name inodeType)) :
    Guarded (fun r => ∃ nodes', Effect raw s nodes (.create parentIno name inodeType) (.ino r.1) nodes' ∧
        FsOk raw r.2 nodes')
      (fsCreate s parentIno name inodeType) :=
  (fsCreate_follows ok ends links).guarded (requests_panic ok _) fun _ _ holds => holds.2

theorem fsWrite_follows (ok : FsOk raw s nodes) {ino offset len : Nat} {src : List UInt8}
    (sized : RangeSized offset len) (room : len ≤ src.length)
    (links : NullLinks s (.write ino offset len (some src))) :
    Follows (fun heap r => r.2.heap = heap ∧ ∃ nodes',
        Effect raw s nodes (.write ino offset len (some src)) (.code r.1) nodes' ∧ FsOk raw r.2 nodes')
      (allocs s.heap (FsCall.requests nodes (.write ino offset len (some src))))
      (fsWrite s ino offset len (some src)) := by
  by_cases refused : ∀ n, findNode nodes ino = some n → n.inode.inodeType ≠ 1
  · have none_ : FsCall.requests nodes (.write ino offset len (some src)) = [] := by
      rw [FsCall.requests]
      cases found : findNode nodes ino with
      | none => rfl
      | some n => exact if_neg (refused n found)
    rw [fsWrite_refused ok.shape ino offset len src refused, none_]
    exact .ok _ _ ⟨rfl, nodes, .notWritten ino offset len _ (Or.inr refused), ok⟩
  · obtain ⟨n, found, file⟩ : ∃ n, findNode nodes ino = some n ∧ n.inode.inodeType = 1 := by
      simpa only [not_forall, not_not, exists_prop] using refused
    obtain ⟨member, number⟩ := findNode_some found
    simp only [FsCall.requests, found, if_pos file]
    apply (fsWrite_spec ok.shape ok.tree found file sized room (links.write ok n found file)).mono
    rintro _ ⟨value, t⟩ ⟨rfl, n', ⟨small, rfl, wrote⟩ | ⟨wraps, rfl, longer, reached⟩, shape'⟩
    · have notDir : n'.inode.inodeType ≠ 2 := by rw [wrote.inode.2.1, file]; decide
      have kept := ok.tree.replace_file (wrote.inode.1.trans number) notDir wrote.room
      exact ⟨rfl, _, .written ino offset len src n n' found file room small wrote, shape', kept⟩
    · obtain ⟨sameIno, sameType, sameSize⟩ := longer.inode
      have notDir : n'.inode.inodeType ≠ 2 := by rw [sameType, file]; decide
      have kept := ok.tree.replace_file (sameIno.trans number) notDir
        (longer.room (ok.tree.bytes n member (by rw [file]; decide)))
      exact ⟨rfl, _, .wrapped ino offset len src n n' found file wraps longer reached, shape', kept⟩

theorem fsWrite_effect (ok : FsOk raw s nodes) {ino offset len : Nat} {src : List UInt8}
    (sized : RangeSized offset len) (room : len ≤ src.length)
    (links : NullLinks s (.write ino offset len (some src))) :
    Guarded (fun r => ∃ nodes', Effect raw s nodes (.write ino offset len (some src)) (.code r.1) nodes' ∧
        FsOk raw r.2 nodes')
      (fsWrite s ino offset len (some src)) :=
  (fsWrite_follows ok sized room links).guarded (requests_panic ok _) fun _ _ holds => holds.2

/-- Every call in a well-formed state stops with its heap requests or has its effect. -/
theorem fsStep_follows (ok : FsOk raw s nodes) (call : FsCall) (wf : call.WellFormed)
    (links : NullLinks s call) :
    Follows (fun heap r => r.2.heap = heap ∧ ∃ nodes', Effect raw s nodes call r.1 nodes' ∧ FsOk raw r.2 nodes')
      (allocs s.heap (call.requests nodes)) (fsStep s call) := by
  obtain ⟨shape, tree⟩ := ok
  have ok : FsOk raw s nodes := ⟨shape, tree⟩
  cases call with
  | init =>
      have inited : Follows (fun heap t => t.heap = heap ∧ FsOk raw t (newNode s 2 :: nodes))
          (allocs s.heap [inodeBytes]) (fsInit s) := by
        apply (allocInode_spec shape 2).rest
        rintro _ ⟨number, t⟩ ⟨rfl, _, _, shape'⟩
        exact .ok _ t ⟨rfl, shape', tree.cons _ rfl⟩
      exact inited.rest fun _ t ⟨sameHeap, kept⟩ => .ok _ _ ⟨sameHeap, _, .init, kept⟩
  | lookup path =>
      obtain ⟨line, ends⟩ := wf
      simp only [fsStep, fsLookup_spec shape tree path line ends, ok_bind]
      exact .ok _ _ ⟨rfl, nodes, .lookup path line ends, ok⟩
  | create parentIno name inodeType =>
      obtain ⟨line, ends⟩ := wf
      exact (fsCreate_follows ok ends links).rest fun _ _ holds => .ok _ _ holds
  | unlink parentIno name =>
      obtain ⟨line, ends⟩ := wf
      exact (fsUnlink_follows ok parentIno ends).rest fun _ _ holds => .ok _ _ holds
  | write ino offset len buf =>
      cases buf with
      | none => exact .ok _ _ ⟨rfl, nodes, .notWritten ino offset len none (Or.inl rfl), ok⟩
      | some src =>
          obtain ⟨sized, room⟩ := wf src rfl
          exact (fsWrite_follows ok sized room links).rest fun _ _ holds => .ok _ _ holds
  | read ino offset len buf =>
      cases buf with
      | none => exact .ok _ _ ⟨rfl, nodes, .notRead ino offset len, ok⟩
      | some capacity =>
          obtain ⟨sized, room⟩ := wf capacity rfl
          simp only [fsStep, fsRead_spec shape tree ino offset len capacity sized room, ok_bind]
          exact .ok _ _ ⟨rfl, nodes, .read ino offset len capacity, ok⟩
  | readdir dirIno index out =>
      simp only [fsStep, fsReaddir_spec ok dirIno index out, ok_bind]
      exact .ok _ _ ⟨rfl, nodes, .readdir dirIno index out, ok⟩
  | stat ino sizeOut typeOut =>
      have shown : Effect raw s nodes (.stat ino sizeOut typeOut)
          (statResult (findNode nodes ino) sizeOut typeOut) nodes := .stat ino sizeOut typeOut
      simp only [fsStep, fsStat_spec shape ino sizeOut typeOut]
      cases found : findNode nodes ino with
      | none =>
          rw [found] at shown
          exact .ok _ _ ⟨rfl, nodes, shown, ok⟩
      | some n =>
          rw [found] at shown
          exact .ok _ _ ⟨rfl, nodes, shown, ok⟩

/-- Every call in a well-formed state panics or has its effect. -/
theorem fsStep_effect (ok : FsOk raw s nodes) (call : FsCall) (wf : call.WellFormed)
    (links : NullLinks s call) :
    Guarded (fun r => ∃ nodes', Effect raw s nodes call r.1 nodes' ∧ FsOk raw r.2 nodes')
      (fsStep s call) :=
  (fsStep_follows ok call wf links).guarded (requests_panic ok call) fun _ _ holds => holds.2

end Step

end KehindeKernel
