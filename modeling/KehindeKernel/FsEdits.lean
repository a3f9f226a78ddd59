import KehindeKernel.FsRuns
import Mathlib.Logic.Relation

/-!
What a filesystem call can do to the store, whatever memory and arguments are: it
places an object where `kmalloc` puts it, or it stores into an object that lives.
An invariant that these edits keep holds along every run. A call that follows a link
to where no object is stops there.
-/

namespace KehindeKernel

open Outcome Bytes

variable {σ : Type}

/-- An object of `n` bytes lives at `a`. -/
def Occupies (s : Fs σ) (a n : Nat) : Prop :=
  (s.inodes a ≠ none ∧ n = inodeBytes) ∨ (s.blocks a ≠ none ∧ n = blockSize)

/-- The objects lie in what the heap has handed out, and none overlaps another. -/
structure Placed (s : Fs σ) : Prop where
  heap : HeapShape s.heap
  inside : ∀ a n, Occupies s a n → heapBase ≤ a ∧ a % 16 = 0 ∧ a + n ≤ s.heap.bumpPtr
  apart : ∀ a n b m, Occupies s a n → Occupies s b m → (a = b ∧ n = m) ∨ a + n ≤ b ∨ b + m ≤ a

theorem placed_empty (back : σ) (raw : Nat → Region) : Placed (fsEmpty (kheapInit back) raw) := by
  have none_ : ∀ a n, ¬ Occupies (fsEmpty (kheapInit back) raw) a n := by
    rintro a n (⟨live, _⟩ | ⟨live, _⟩)
    · exact live rfl
    · exact live rfl
  exact ⟨kheapInit_shape back, fun a n lives => absurd lives (none_ a n),
    fun a n _ _ lives => absurd lives (none_ a n)⟩

/-- A store into a live object moves nothing. -/
theorem Placed.stored {s s' : Fs σ} (placed : Placed s) (heap : s'.heap = s.heap)
    (lives : ∀ a n, Occupies s' a n → Occupies s a n) : Placed s' := by
  refine ⟨heap ▸ placed.heap, fun a n here => heap ▸ placed.inside a n (lives a n here), ?_⟩
  exact fun a n b m here there => placed.apart a n b m (lives a n here) (lives b m there)

variable [Backing σ]

inductive StoreEdit (s : Fs σ) : Fs σ → Prop where
  | makeInode (p : Nat) (heap : Heap σ) (n : Inode) (head next : Nat)
      (served : kmalloc s.heap inodeBytes = .ok (p, heap)) :
      StoreEdit s ({ s with heap := heap, inodeListHead := head, nextIno := next }.setInode p n)
  | makeBlock (p : Nat) (heap : Heap σ) (b : Block) (served : kmalloc s.heap blockSize = .ok (p, heap)) :
      StoreEdit s ({ s with heap := heap }.setBlock p b)
  | setInode (p : Nat) (n : Inode) (live : s.inodes p ≠ none) : StoreEdit s (s.setInode p n)
  | setBlock (p : Nat) (b : Block) (live : s.blocks p ≠ none) : StoreEdit s (s.setBlock p b)

abbrev StoreEdits (s s' : Fs σ) : Prop := Relation.ReflTransGen StoreEdit s s'

/-- An invariant of edits is one of their sequences. -/
theorem StoreEdits.keeps {Inv : Fs σ → Prop} (kept : ∀ s s', Inv s → StoreEdit s s' → Inv s') {s s' : Fs σ}
    (edits : StoreEdits s s') (start : Inv s) : Inv s' := by
  induction edits with
  | refl => exact start
  | tail _ last ih => exact kept _ _ ih last

section Calls

variable {s : Fs σ}

theorem live_of_fetch {α : Type} {cell : Option α} {value : α} (fetched : fetch cell = .ok value) :
    cell ≠ none := by
  rw [(fetch_ok_iff _ _).mp fetched]
  exact Option.some_ne_none value

theorem returns_edits {α : Type} (value : α) : Returns (fun r : α × Fs σ => StoreEdits s r.2) (.ok (value, s)) :=
  returns_ok .refl

theorem allocInode_edits (inodeType : UInt8) : Returns (fun r => StoreEdits s r.2) (allocInode s inodeType) := by
  unfold allocInode
  apply returns_bind
  rintro ⟨p, heap⟩ served
  exact returns_ok (.single (.makeInode p heap _ _ _ served))

theorem allocBlock_edits : Returns (fun r => StoreEdits s r.2) (allocBlock s) := by
  unfold allocBlock
  apply returns_bind
  rintro ⟨p, heap⟩ served
  exact returns_ok (.single (.makeBlock p heap _ served))

theorem makeBlock_inodes {s' : Fs σ} {p : Nat} (made : allocBlock s = .ok (p, s')) : s'.inodes = s.inodes := by
  obtain ⟨⟨q, heap⟩, _, rest⟩ := (bind_ok_iff _ _ _).mp made
  rw [← (Prod.mk.inj (Except.ok.inj rest)).2]
  rfl

theorem appendBlock_edits (p : Nat) : Returns (fun s' => StoreEdits s s') (appendBlock s p) := by
  unfold appendBlock
  apply returns_bind
  intro inode fetched
  have live := live_of_fetch fetched
  refine returns_ite (fun _ => ?_) fun _ => ?_
  · apply returns_bind
    rintro ⟨block, s1⟩ made
    exact returns_ok ((allocBlock_edits _ made).tail (.setInode p _ (makeBlock_inodes made ▸ live)))
  · apply returns_bind
    intro last _
    apply returns_bind
    rintro ⟨block, s1⟩ made
    apply returns_bind
    intro b stored
    exact returns_ok ((allocBlock_edits _ made).tail (.setBlock last _ (live_of_fetch stored)))

theorem growChain_edits (need p fuel blocks : Nat) : Returns (fun s' => StoreEdits s s')
    (growChain need p fuel blocks s) := by
  induction fuel generalizing blocks s with
  | zero => exact returns_ite (fun _ => returns_error _) fun _ => returns_ok .refl
  | succ fuel ih =>
      refine returns_ite (fun _ => ?_) fun _ => returns_ok .refl
      apply returns_bind
      intro s1 grew
      exact (ih (blocks + 1)).mono fun _ later => (appendBlock_edits p s1 grew).trans later

/-- The copy loop stores into blocks it has just read. -/
theorem writeChunks_edits (src : List UInt8) (len fuel curr blockOffset written : Nat)
    (blocks : Nat → Option Block) (before : StoreEdits s { s with blocks := blocks }) :
    Returns (fun blocks' => StoreEdits s { s with blocks := blocks' })
      (writeChunks src len fuel curr blockOffset written blocks) := by
  induction fuel generalizing curr blockOffset written blocks with
  | zero => exact returns_ite (fun _ => returns_error _) fun _ => returns_ok before
  | succ fuel ih =>
      refine returns_ite (fun _ => ?_) fun _ => returns_ok before
      apply returns_bind
      intro b stored
      refine returns_ite (fun _ => returns_error _) fun _ => ?_
      exact ih _ _ _ _ (before.tail (.setBlock curr _ (live_of_fetch stored)))

theorem copyDirent_edits (dst src : DirentPtr) : Returns (fun s' => StoreEdits s s' ∧ s'.inodes = s.inodes)
    (copyDirent s dst src) := by
  unfold copyDirent
  apply returns_bind
  intro source _
  apply returns_bind
  intro target stored
  exact returns_ok ⟨.single (.setBlock dst.block _ (live_of_fetch stored)), rfl⟩

theorem unlinkSubject_edits {p : Nat} (live : s.inodes p ≠ none) (parent : Inode) (name : List UInt8)
    (subject : Option DirentPtr) : Returns (fun r => StoreEdits s r.2) (unlinkSubject s p parent name subject) := by
  cases subject with
  | none => exact returns_edits _
  | some d =>
      apply returns_bind
      intro entry _
      apply returns_bind
      intro hit _
      refine returns_ite (fun _ => returns_edits _) fun _ => ?_
      apply returns_bind
      intro last _
      cases last with
      | none => exact returns_edits _
      | some last =>
          apply returns_bind
          intro q _
          refine returns_ite (fun _ => returns_edits _) fun _ => ?_
          apply returns_bind
          intro inode _
          refine returns_ite (fun _ => returns_edits _) fun _ => ?_
          refine returns_ite (fun _ => returns_ok (.single (.setInode p _ live))) fun _ => ?_
          apply returns_bind
          intro s1 copied
          obtain ⟨edits, same⟩ := copyDirent_edits d last s1 copied
          exact returns_ok (edits.tail (.setInode p _ (same ▸ live)))

theorem fsUnlink_edits (parentIno : Nat) (name : List UInt8) :
    Returns (fun r => StoreEdits s r.2) (fsUnlink s parentIno name) := by
  unfold fsUnlink
  apply returns_bind
  intro p _
  refine returns_ite (fun _ => returns_edits _) fun _ => ?_
  apply returns_bind
  intro parent fetched
  have live := live_of_fetch fetched
  refine returns_ite (fun _ => returns_edits _) fun _ => ?_
  apply returns_bind
  intro scan _
  cases scan with
  | broken => exact returns_edits _
  | found d => exact unlinkSubject_edits live parent name (some d)
  | exhausted last => exact unlinkSubject_edits live parent name last

theorem linkDirent_edits (p ino : Nat) (name : List UInt8) :
    Returns (fun s' => StoreEdits s s') (linkDirent s p ino name) := by
  unfold linkDirent
  apply returns_bind
  intro parent fetched
  apply returns_bind
  intro walked _
  apply returns_bind
  intro b stored
  apply returns_bind
  intro data _
  exact returns_ok ((Relation.ReflTransGen.single (.setInode p _ (live_of_fetch fetched))).tail
    (.setBlock _ _ (live_of_fetch stored)))

theorem growIfFull_edits (p : Nat) (parent : Inode) : Returns (fun s' => StoreEdits s s') (growIfFull s p parent) :=
  returns_ite (fun _ => appendBlock_edits p) fun _ => returns_ok .refl

theorem fsCreate_edits (parentIno : Nat) (name : List UInt8) (inodeType : UInt8) :
    Returns (fun r => StoreEdits s r.2) (fsCreate s parentIno name inodeType) := by
  unfold fsCreate
  apply returns_bind
  intro p _
  refine returns_ite (fun _ => returns_edits _) fun _ => ?_
  apply returns_bind
  intro parent _
  refine returns_ite (fun _ => returns_edits _) fun _ => ?_
  apply returns_bind
  intro len _
  apply returns_bind
  intro first _
  refine returns_ite (fun _ => returns_edits _) fun _ => ?_
  apply returns_bind
  intro scan _
  cases scan with
  | broken => exact returns_edits _
  | found d => exact returns_edits _
  | exhausted last =>
      apply returns_bind
      rintro ⟨ino, s1⟩ made
      apply returns_bind
      intro s2 grew
      apply returns_bind
      intro s3 linked
      exact returns_ok (((allocInode_edits inodeType _ made).trans (growIfFull_edits p parent s2 grew)).trans
        (linkDirent_edits p ino name s3 linked))

theorem storeRange_edits (p offset len : Nat) (src : List UInt8) :
    Returns (fun r => StoreEdits s r.2) (storeRange s p offset len src) := by
  unfold storeRange
  apply returns_bind
  intro subject fetched
  apply returns_bind
  intro walked _
  cases walked with
  | none => exact returns_edits _
  | some curr =>
      apply returns_bind
      intro blocks copied
      have written := @writeChunks_edits σ _ s src len len curr _ 0 s.blocks .refl blocks copied
      refine returns_ite (fun _ => ?_) fun _ => returns_ok written
      exact returns_ok (written.tail (.setInode p _ (live_of_fetch fetched)))

theorem fsWrite_edits (ino offset len : Nat) (buf : Option (List UInt8)) :
    Returns (fun r => StoreEdits s r.2) (fsWrite s ino offset len buf) := by
  cases buf with
  | none => exact returns_edits _
  | some src =>
      apply returns_bind
      intro p _
      refine returns_ite (fun _ => returns_edits _) fun _ => ?_
      apply returns_bind
      intro subject _
      refine returns_ite (fun _ => returns_edits _) fun _ => ?_
      apply returns_bind
      intro count _
      apply returns_bind
      intro s1 grew
      have grown := growChain_edits _ p walkFuel count s1 grew
      exact (storeRange_edits p offset len src).mono fun _ later => grown.trans later

theorem fsInit_edits : Returns (fun s' => StoreEdits s s') (fsInit s) := by
  unfold fsInit
  apply returns_bind
  rintro ⟨ino, s1⟩ made
  exact returns_ok (allocInode_edits 2 _ made)

/-- Every call is a sequence of edits. -/
theorem fsStep_edits (call : FsCall) : Returns (fun r => StoreEdits s r.2) (fsStep s call) := by
  have reads : ∀ {α : Type} (run : Run α) (out : α → FsResult),
      Returns (fun r => StoreEdits s r.2) (run >>= fun value => pure (out value, s)) := by
    intro α run out
    apply returns_bind
    intro value _
    exact returns_edits _
  cases call with
  | init =>
      apply returns_bind
      intro s1 made
      exact returns_ok (fsInit_edits s1 made)
  | create parentIno name inodeType =>
      apply returns_bind
      rintro ⟨number, s1⟩ made
      exact returns_ok (fsCreate_edits parentIno name inodeType _ made)
  | unlink parentIno name =>
      apply returns_bind
      rintro ⟨value, s1⟩ done
      exact returns_ok (fsUnlink_edits parentIno name _ done)
  | write ino offset len buf =>
      apply returns_bind
      rintro ⟨value, s1⟩ done
      exact returns_ok (fsWrite_edits ino offset len buf _ done)
  | lookup path => exact reads (fsLookup s path) .ino
  | read ino offset len buf => exact reads (fsRead s ino offset len buf) fun r => .bytes r.1 r.2
  | readdir dirIno index out => exact reads (fsReaddir s dirIno index out) fun r => .entry r.1 r.2
  | stat ino sizeOut typeOut => exact reads (fsStat s ino sizeOut typeOut) fun r => .stat r.1 r.2.1 r.2.2

end Calls

section Placement

variable {s s' : Fs σ}

/-- One more object, on what `kmalloc` returned. -/
theorem Placed.place (placed : Placed s) {p size : Nat} (small : size ≤ heapMaxSize)
    (served : kmalloc s.heap size = .ok (p, s'.heap))
    (lives : ∀ a n, Occupies s' a n → Occupies s a n ∨ (a = p ∧ n = size)) : Placed s' := by
  obtain ⟨rfl, bump, shape⟩ := kmalloc_ok s.heap s'.heap size p placed.heap small served
  have base := placed.heap.base
  have aligned := placed.heap.aligned
  rw [Heap.requiredEnd] at bump
  refine ⟨shape, ?_, ?_⟩
  · intro a n here
    rcases lives a n here with old | ⟨rfl, rfl⟩
    · obtain ⟨low, sixteen, high⟩ := placed.inside a n old
      exact ⟨low, sixteen, by omega⟩
    · exact ⟨base, aligned, by omega⟩
  · intro a n b m here there
    -- the new object starts where every old one has ended
    rcases lives a n here with old | ⟨rfl, rfl⟩
    · rcases lives b m there with old' | ⟨rfl, rfl⟩
      · exact placed.apart a n b m old old'
      · exact Or.inr (Or.inl (placed.inside a n old).2.2)
    · rcases lives b m there with old' | ⟨rfl, rfl⟩
      · exact Or.inr (Or.inr (placed.inside b m old').2.2)
      · exact Or.inl ⟨rfl, rfl⟩

theorem StoreEdit.placed (placed : Placed s) (edit : StoreEdit s s') : Placed s' := by
  cases edit with
  | makeInode p heap n head next served =>
      apply placed.place (by decide) served
      rintro a m (⟨live, size⟩ | ⟨live, size⟩)
      · by_cases here : a = p
        · exact Or.inr ⟨here, size⟩
        · simp only [Fs.setInode, Function.update_of_ne here] at live
          exact Or.inl (Or.inl ⟨live, size⟩)
      · exact Or.inl (Or.inr ⟨live, size⟩)
  | makeBlock p heap b served =>
      apply placed.place (by decide) served
      rintro a m (⟨live, size⟩ | ⟨live, size⟩)
      · exact Or.inl (Or.inl ⟨live, size⟩)
      · by_cases here : a = p
        · exact Or.inr ⟨here, size⟩
        · simp only [Fs.setBlock, Function.update_of_ne here] at live
          exact Or.inl (Or.inr ⟨live, size⟩)
  | setInode p n held =>
      refine placed.stored ?_ ?_
      · rfl
      rintro a m (⟨live, size⟩ | ⟨live, size⟩)
      · by_cases here : a = p
        · exact Or.inl ⟨here ▸ held, size⟩
        · simp only [Fs.setInode, Function.update_of_ne here] at live
          exact Or.inl ⟨live, size⟩
      · exact Or.inr ⟨live, size⟩
  | setBlock p b held =>
      refine placed.stored ?_ ?_
      · rfl
      rintro a m (⟨live, size⟩ | ⟨live, size⟩)
      · exact Or.inl ⟨live, size⟩
      · by_cases here : a = p
        · exact Or.inr ⟨here ▸ held, size⟩
        · simp only [Fs.setBlock, Function.update_of_ne here] at live
          exact Or.inr ⟨live, size⟩

/-- Of the heap an edit sees `kmalloc` alone. -/
theorem StoreEdit.heap (edit : StoreEdit s s') : s'.heap = s.heap ∨
    ∃ p size, size ≤ heapMaxSize ∧ kmalloc s.heap size = .ok (p, s'.heap) := by
  cases edit with
  | makeInode p heap n head next served => exact Or.inr ⟨p, inodeBytes, by decide, served⟩
  | makeBlock p heap b served => exact Or.inr ⟨p, blockSize, by decide, served⟩
  | setInode => exact Or.inl rfl
  | setBlock => exact Or.inl rfl

/-- What requests keep of the heap, calls keep. -/
theorem StoreEdits.heap {Inv : Heap σ → Prop}
    (kept : ∀ h size p h', size ≤ heapMaxSize → Inv h → kmalloc h size = .ok (p, h') → Inv h')
    (edits : StoreEdits s s') (start : Inv s.heap) : Inv s'.heap := by
  have step : ∀ t t' : Fs σ, Inv t.heap → StoreEdit t t' → Inv t'.heap := by
    intro t t' holds edit
    rcases edit.heap with same | ⟨p, size, small, served⟩
    · exact same ▸ holds
    · exact kept t.heap size p t'.heap small holds served
  exact edits.keeps step start

theorem StoreEdits.placed (edits : StoreEdits s s') (placed : Placed s) : Placed s' :=
  edits.keeps (fun _ _ holds edit => edit.placed holds) placed

end Placement

end KehindeKernel
