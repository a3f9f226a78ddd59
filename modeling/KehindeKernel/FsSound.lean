import KehindeKernel.FsRuns
import KehindeKernel.Lib.Reach

/-!
What holds of the ramfs whatever heap memory holds when `kmalloc` hands it out, and
whatever the arguments of its calls: live objects lie below the bump pointer, numbers
are not used up, and the chain of a file has the blocks its size needs. How a chain
goes on behind them depends on memory; a call that follows it to where no block is
does not return.
-/

namespace KehindeKernel

open Outcome Bytes

variable {σ : Type}

/-- At least `n` blocks follow each other from `p` on. -/
abbrev BlocksFrom (s : Fs σ) (n p : Nat) : Prop := Linked.Reaches 0 Block.next s.blocks n p

/-- Blocks stay, and only null links are filled in. -/
abbrev KeepsBlocks (s s' : Fs σ) : Prop := Linked.Grows 0 Block.next s.blocks s'.blocks

/-- The chain of a file holds its size. A write finds at most the blocks the heap has
room for and appends no more than that. -/
structure FileFits (s : Fs σ) (n : Inode) : Prop where
  room : BlocksFrom s (blocksFor n.inodeSize) n.firstBlock
  small : n.inodeSize ≤ payloadSize * 512

structure Sound (s : Fs σ) : Prop where
  heap : HeapShape s.heap
  fresh : ∀ a, s.heap.bumpPtr ≤ a → s.blocks a = none ∧ s.inodes a = none
  null : s.inodes 0 = none
  numbered : 1 ≤ s.nextIno
  live : ∃ cells : Finset Nat, (∀ a, s.blocks a ≠ none → a ∈ cells) ∧
    heapBase + blockSize * cells.card ≤ s.heap.bumpPtr
  spent : heapBase + inodeBytes * (s.nextIno - 1) ≤ s.heap.bumpPtr
  files : ∀ p n, s.inodes p = some n → n.inodeType ≠ 2 → FileFits s n

/-- A sound state that came out of another: the heap goes up and blocks stay. -/
structure Follow (s s' : Fs σ) : Prop where
  sound : Sound s'
  blocks : KeepsBlocks s s'
  heap : s.heap.bumpPtr ≤ s'.heap.bumpPtr

theorem sound_empty (back : σ) (raw : Nat → Region) : Sound (fsEmpty (kheapInit back) raw) where
  heap := kheapInit_shape back
  fresh := fun _ _ => ⟨rfl, rfl⟩
  null := rfl
  numbered := Nat.le_refl 1
  live := ⟨∅, fun _ live => absurd rfl live, Nat.le_refl heapBase⟩
  spent := Nat.le_refl heapBase
  files := fun _ _ none_ => by contradiction

theorem FileFits.grows {s s' : Fs σ} {n : Inode} (fits : FileFits s n) (blocks : KeepsBlocks s s') :
    FileFits s' n := ⟨fits.room.grows blocks, fits.small⟩

theorem fileFits_empty (s : Fs σ) (n : Inode) (empty : n.inodeSize = 0) : FileFits s n := by
  refine ⟨?_, by rw [empty]; exact Nat.zero_le _⟩
  have zero : blocksFor n.inodeSize = 0 := by rw [empty]; decide
  rw [zero]
  trivial

variable {s : Fs σ}

theorem Sound.refl (sound : Sound s) : Follow s s := ⟨sound, Linked.grows_refl _, Nat.le_refl _⟩

theorem Follow.trans {s' s'' : Fs σ} (first : Follow s s') (second : Follow s' s'') : Follow s s'' :=
  ⟨second.sound, first.blocks.trans second.blocks, Nat.le_trans first.heap second.heap⟩

/-- Numbers stay far from wrapping, because each inode takes heap. -/
theorem Sound.number_small (sound : Sound s) : s.nextIno < 2 ^ 32 := by
  have spent := sound.spent
  have mapped := sound.heap.mapped
  have window := sound.heap.window
  simp only [inodeBytes, heapBase, heapMaxSize] at *
  omega

theorem Sound.live_of_dead (sound : Sound s) {blocks : Nat → Option Block}
    (dead : ∀ a, s.blocks a = none → blocks a = none) :
    ∃ cells : Finset Nat, (∀ a, blocks a ≠ none → a ∈ cells) ∧
      heapBase + blockSize * cells.card ≤ s.heap.bumpPtr := by
  obtain ⟨cells, all, room⟩ := sound.live
  exact ⟨cells, fun a present => all a (mt (dead a) present), room⟩

/-- The blocks of a chain that ends are no more than the heap has room for. -/
theorem Sound.count_small (sound : Sound s) {fuel p count : Nat}
    (counted : Linked.count 0 Block.next s.blocks fuel p = .ok count) : count ≤ 256 := by
  obtain ⟨cells, all, room⟩ := sound.live
  have few := Linked.count_le_card counted cells all
  have mapped := sound.heap.mapped
  have window := sound.heap.window
  simp only [heapBase, heapMaxSize, blockSize] at *
  omega

/-- A store to a live block that keeps its link or fills in a null one. -/
theorem Sound.setBlock (sound : Sound s) {a : Nat} {b : Block} (b' : Block) (live : s.blocks a = some b)
    (link : b.next = 0 ∨ b'.next = b.next) : Follow s (s.setBlock a b') := by
  have blocks : KeepsBlocks s (s.setBlock a b') := Linked.grows_update live b' link
  have apart : ∀ c, s.blocks c = none → c ≠ a := by
    rintro c dead rfl
    rw [dead] at live
    contradiction
  refine ⟨⟨sound.heap, ?_, sound.null, sound.numbered, ?_, sound.spent, ?_⟩, blocks, Nat.le_refl _⟩
  · intro c past
    have dead := sound.fresh c past
    exact ⟨(Function.update_of_ne (apart c dead.1) _ _).trans dead.1, dead.2⟩
  · exact sound.live_of_dead fun c dead => (Function.update_of_ne (apart c dead) _ _).trans dead
  · intro p n stored file
    exact (sound.files p n stored file).grows blocks

theorem Sound.setInode (sound : Sound s) {p : Nat} {n : Inode} (n' : Inode) (live : s.inodes p = some n)
    (fits : n'.inodeType ≠ 2 → FileFits s n') : Follow s (s.setInode p n') := by
  have blocks : KeepsBlocks s (s.setInode p n') := Linked.grows_refl _
  refine ⟨⟨sound.heap, ?_, ?_, sound.numbered, sound.live, sound.spent, ?_⟩, blocks, Nat.le_refl _⟩
  · intro c past
    have dead := sound.fresh c past
    have apart : c ≠ p := by
      rintro rfl
      rw [dead.2] at live
      contradiction
    exact ⟨dead.1, (Function.update_of_ne apart _ _).trans dead.2⟩
  · have apart : 0 ≠ p := by
      rintro rfl
      rw [sound.null] at live
      contradiction
    exact (Function.update_of_ne apart _ _).trans sound.null
  · intro q m stored file
    by_cases hit : q = p
    · subst hit
      simp only [Fs.setInode, Function.update_self, Option.some.injEq] at stored
      subst stored
      exact (fits file).grows blocks
    · simp only [Fs.setInode, Function.update_of_ne hit] at stored
      exact (sound.files q m stored file).grows blocks

theorem Sound.moved (sound : Sound s) {heap : Heap σ} (shape : HeapShape heap)
    (further : s.heap.bumpPtr ≤ heap.bumpPtr) : Sound { s with heap := heap } where
  heap := shape
  fresh := fun a past => sound.fresh a (Nat.le_trans further past)
  null := sound.null
  numbered := sound.numbered
  live := sound.live.imp fun _ ⟨all, room⟩ => ⟨all, Nat.le_trans room further⟩
  spent := Nat.le_trans sound.spent further
  files := fun p n stored file => (sound.files p n stored file).grows (Linked.grows_refl _)

/-- The end of the range wraps to a place behind the chain, which the call grows. -/
def GrowsWrapped (s : Fs σ) : FsCall → Prop
  | .write ino offset len (some _) => 2 ^ 64 ≤ offset + len ∧ GrowsFile s ino (offset + len - 2 ^ 64) 0
  | _ => False

theorem growsWrapped_iff (offset len : Nat) (src : List UInt8) {ino p count : Nat} {n : Inode}
    (located : findInode s ino = .ok p) (stored : s.inodes p = some n) (file : n.inodeType = 1)
    (counted : Linked.count 0 Block.next s.blocks walkFuel n.firstBlock = .ok count)
    (offsetFits : offset < 2 ^ 64) (lenFits : len < 2 ^ 63) : GrowsWrapped s (.write ino offset len (some src)) ↔
      2 ^ 64 ≤ offset + len ∧ payloadSize * count < (offset + len) % 2 ^ 64 := by
  have wrapped : 2 ^ 64 ≤ offset + len → (offset + len) % 2 ^ 64 = offset + len - 2 ^ 64 := by omega
  constructor
  · rintro ⟨wraps, q, m, blocks, found, storedQ, _, countedQ, past⟩
    obtain rfl : p = q := Except.ok.inj (located.symm.trans found)
    obtain rfl : n = m := Option.some.inj (stored.symm.trans storedQ)
    obtain rfl : count = blocks := Except.ok.inj (counted.symm.trans countedQ)
    exact ⟨wraps, by rw [wrapped wraps]; exact past⟩
  · rintro ⟨wraps, past⟩
    rw [wrapped wraps] at past
    exact ⟨wraps, p, n, count, located, stored, file, counted, past⟩

theorem not_growsWrapped {ino offset len : Nat} {src : List UInt8} {p : Nat}
    (located : findInode s ino = .ok p) (other : ∀ n, s.inodes p = some n → n.inodeType ≠ 1) :
    ¬ GrowsWrapped s (.write ino offset len (some src)) := by
  rintro ⟨_, q, n, _, found, stored, file, _⟩
  obtain rfl : p = q := Except.ok.inj (located.symm.trans found)
  exact other n stored file

/-- Without a wrap the grown chain reaches the start of the range. -/
theorem reaches_start {p count offset len : Nat} (reaches : BlocksFrom s count p) (straight : offset + len < 2 ^ 64)
    (covers : (offset + len) % 2 ^ 64 ≤ payloadSize * count) :
    Linked.advance 0 Block.next s.blocks (intTrips (offset / payloadSize)) p ≠ .ok none := by
  intro walkedTo
  rw [Nat.mod_eq_of_lt straight] at covers
  have start : intTrips (offset / payloadSize) ≤ count := by
    rw [intTrips]
    simp only [payloadSize] at *
    omega
  obtain ⟨q, found⟩ := (Linked.reaches_iff_advance _ _).mp (reaches.mono start)
  exact absurd (Except.ok.inj (found.symm.trans walkedTo)) (Option.some_ne_none q)

section Allocation

variable [Backing σ]

theorem kmalloc_returns (sound : Sound s) (size : Nat) (small : size ≤ heapMaxSize) :
    Returns (fun r => r.1 = s.heap.bumpPtr ∧ HeapShape r.2 ∧ s.heap.bumpPtr + size ≤ r.2.bumpPtr)
      (kmalloc s.heap size) := by
  rintro ⟨p, heap⟩ done
  obtain ⟨at_, moved, shape⟩ := kmalloc_ok s.heap heap size p sound.heap small done
  refine ⟨at_, shape, ?_⟩
  rw [moved, Heap.requiredEnd]
  omega

theorem allocInode_sound (sound : Sound s) (inodeType : UInt8) :
    Returns (fun r => r.1 = s.nextIno ∧ Follow s r.2 ∧
        ∀ p n, s.inodes p = some n → r.2.inodes p = some n)
      (allocInode s inodeType) := by
  unfold allocInode
  apply returns_bind
  rintro ⟨p, heap⟩ done
  obtain ⟨rfl, shape, further⟩ := kmalloc_returns sound inodeBytes (by decide) _ done
  have numberSmall := sound.number_small
  have dead := sound.fresh s.heap.bumpPtr (Nat.le_refl _)
  -- no node lies at the fresh address
  have old : ∀ p n, s.inodes p = some n → p ≠ s.heap.bumpPtr := by
    rintro p n stored rfl
    rw [dead.2] at stored
    contradiction
  have next : (s.nextIno + 1) % 2 ^ 64 = s.nextIno + 1 := Nat.mod_eq_of_lt (by omega)
  have spent := sound.spent
  simp only [inodeBytes] at further spent
  have blocks : Linked.Grows 0 Block.next s.blocks s.blocks := Linked.grows_refl _
  apply returns_ok
  have base := sound.heap.base
  have further : s.heap.bumpPtr + 40 ≤ heap.bumpPtr := further
  have live := (sound.moved shape (by dsimp only; omega)).live
  refine ⟨rfl, ⟨⟨shape, ?_, ?_, ?_, live, ?_, ?_⟩, blocks, by dsimp only [Fs.setInode]; omega⟩, ?_⟩
  · intro a past
    have past : heap.bumpPtr ≤ a := past
    have deadA := sound.fresh a (by omega)
    have apart : a ≠ s.heap.bumpPtr := by omega
    exact ⟨deadA.1, (Function.update_of_ne apart _ _).trans deadA.2⟩
  · have apart : 0 ≠ s.heap.bumpPtr := by
      simp only [heapBase] at base
      omega
    exact (Function.update_of_ne apart _ _).trans sound.null
  · simp only [Fs.setInode, next]
    exact Nat.le_add_left 1 _
  · simp only [Fs.setInode, next, inodeBytes]
    have numbered := sound.numbered
    omega
  · intro q m stored file
    by_cases hit : q = s.heap.bumpPtr
    · subst hit
      simp only [Fs.setInode, Function.update_self, Option.some.injEq] at stored
      subst stored
      exact fileFits_empty _ _ rfl
    · simp only [Fs.setInode, Function.update_of_ne hit] at stored
      exact (sound.files q m stored file).grows blocks
  · intro q m stored
    simp only [Fs.setInode, Function.update_of_ne (old q m stored)]
    exact stored

theorem allocBlock_sound (sound : Sound s) :
    Returns (fun r => r.1 ≠ 0 ∧ s.blocks r.1 = none ∧
        (∃ b, r.2.blocks = Function.update s.blocks r.1 (some b)) ∧ Follow s r.2 ∧ r.2.inodes = s.inodes ∧
        s.heap.bumpPtr + blockSize ≤ r.2.heap.bumpPtr)
      (allocBlock s) := by
  unfold allocBlock
  apply returns_bind
  rintro ⟨p, heap⟩ done
  obtain ⟨rfl, shape, further⟩ := kmalloc_returns sound blockSize (by decide) _ done
  have dead := sound.fresh s.heap.bumpPtr (Nat.le_refl _)
  have base := sound.heap.base
  have further : s.heap.bumpPtr + 4096 ≤ heap.bumpPtr := further
  have blocks : Linked.Grows 0 Block.next s.blocks
      (Function.update s.blocks s.heap.bumpPtr (some (rawBlock (s.raw s.heap.bumpPtr)))) :=
    Linked.grows_fresh dead.1 _
  have moved := sound.moved shape (by omega)
  apply returns_ok
  refine ⟨?_, dead.1, ⟨_, rfl⟩, ⟨⟨shape, ?_, sound.null, sound.numbered, ?_, moved.spent, ?_⟩, blocks, ?_⟩,
    rfl, further⟩
  · simp only [heapBase] at base
    omega
  · intro a past
    have past : heap.bumpPtr ≤ a := past
    have deadA := sound.fresh a (by omega)
    have apart : a ≠ s.heap.bumpPtr := by omega
    exact ⟨(Function.update_of_ne apart _ _).trans deadA.1, deadA.2⟩
  · obtain ⟨cells, all, room⟩ := sound.live
    have more : (insert s.heap.bumpPtr cells).card ≤ cells.card + 1 := Finset.card_insert_le _ _
    refine ⟨insert s.heap.bumpPtr cells, ?_, ?_⟩
    · intro a present
      by_cases hit : a = s.heap.bumpPtr
      · exact hit ▸ Finset.mem_insert_self a cells
      · simp only [Fs.setBlock, Function.update_of_ne hit] at present
        exact Finset.mem_insert_of_mem (all a present)
    · simp only [Fs.setBlock, blockSize] at *
      omega
  · intro q m stored file
    exact (sound.files q m stored file).grows blocks
  · dsimp only [Fs.setBlock]
    omega

/-- `append_block` makes the chain of its inode one block longer at least. -/
theorem appendBlock_sound (sound : Sound s) (p : Nat) :
    Returns (fun s' => Follow s s' ∧ s.heap.bumpPtr + blockSize ≤ s'.heap.bumpPtr ∧ ∀ n, s.inodes p = some n →
        ∃ first, s'.inodes p = some { n with firstBlock := first } ∧
          ∀ k, BlocksFrom s k n.firstBlock → BlocksFrom s' (k + 1) first)
      (appendBlock s p) := by
  unfold appendBlock
  apply returns_bind
  intro n fetched
  have stored := (fetch_ok_iff _ _).mp fetched
  refine returns_ite (fun empty => ?_) fun some_ => ?_
  · apply returns_bind
    rintro ⟨block, s1⟩ done
    obtain ⟨nonnull, _, ⟨b, blocks⟩, follow, sameInodes, higher⟩ := allocBlock_sound sound _ done
    have live : s1.blocks block = some b := by rw [blocks, Function.update_self]
    have known : s1.inodes p = some n := by rw [sameInodes]; exact stored
    have one : BlocksFrom s1 1 block := ⟨nonnull, b, live, trivial⟩
    -- a chain without a block has no length, so one block is enough for its size
    have set_ := follow.sound.setInode { n with firstBlock := block } known fun file => by
      have fits := follow.sound.files p n known file
      have none_ : blocksFor n.inodeSize ≤ 1 := by
        by_contra more
        have two := fits.room.mono (show 1 ≤ blocksFor n.inodeSize by omega)
        rw [empty] at two
        exact two.1 rfl
      exact ⟨one.mono none_, fits.small⟩
    apply returns_ok
    refine ⟨follow.trans set_, higher, ?_⟩
    intro m found
    obtain rfl : n = m := Option.some.inj (stored.symm.trans found)
    refine ⟨block, Function.update_self .., ?_⟩
    intro k reaches
    cases k with
    | zero => exact one.grows set_.blocks
    | succ k => exact absurd empty reaches.1
  · apply returns_bind
    intro last walked
    apply returns_bind
    rintro ⟨block, s1⟩ done
    obtain ⟨nonnull, dead, ⟨fresh, blocks⟩, follow, sameInodes, higher⟩ := allocBlock_sound sound _ done
    have live : s1.blocks block = some fresh := by rw [blocks, Function.update_self]
    apply returns_bind
    intro b fetchedLast
    have liveLast := (fetch_ok_iff _ _).mp fetchedLast
    have ends : b.next = 0 := by
      obtain ⟨r, storedLast, null⟩ := Linked.last_null walked
      have apart : last ≠ block := by
        rintro rfl
        rw [dead] at storedLast
        exact absurd storedLast.symm (Option.some_ne_none r)
      rw [blocks, Function.update_of_ne apart, storedLast, Option.some.injEq] at liveLast
      exact liveLast ▸ null
    have set_ := follow.sound.setBlock { b with next := block } liveLast (Or.inl ends)
    apply returns_ok
    refine ⟨follow.trans set_, higher, ?_⟩
    intro m found
    obtain rfl : n = m := Option.some.inj (stored.symm.trans found)
    refine ⟨n.firstBlock, by rw [Fs.setBlock]; exact sameInodes ▸ stored, ?_⟩
    intro k reaches
    obtain ⟨new, stays, _⟩ := set_.blocks block fresh live
    exact reaches.snoc some_ walked (follow.trans set_).blocks (Function.update_self ..) rfl nonnull stays

/-- The growth loop leaves at least `need` bytes of chain, and the store alone if
the chain already has them. -/
theorem growChain_sound (sound : Sound s) (need p fuel count : Nat) {n : Inode} (stored : s.inodes p = some n)
    (reaches : BlocksFrom s count n.firstBlock) :
    Returns (fun s' => Follow s s' ∧ (need ≤ payloadSize * count → s' = s) ∧
        (payloadSize * count < need → s.heap.bumpPtr < s'.heap.bumpPtr) ∧
        ∃ first count', s'.inodes p = some { n with firstBlock := first } ∧ BlocksFrom s' count' first ∧
          need ≤ payloadSize * count' ∧ s.heap.bumpPtr + blockSize * count' ≤ s'.heap.bumpPtr + blockSize * count)
      (growChain need p fuel count s) := by
  have enough : ∀ {s : Fs σ} {n : Inode} (count : Nat), Sound s → s.inodes p = some n →
      BlocksFrom s count n.firstBlock → ¬ need > payloadSize * count →
      Follow s s ∧ (need ≤ payloadSize * count → s = s) ∧
      (payloadSize * count < need → s.heap.bumpPtr < s.heap.bumpPtr) ∧
      ∃ first c, s.inodes p = some { n with firstBlock := first } ∧ BlocksFrom s c first ∧
        need ≤ payloadSize * c ∧ s.heap.bumpPtr + blockSize * c ≤ s.heap.bumpPtr + blockSize * count :=
    fun count sound stored known covered =>
      ⟨sound.refl, fun _ => rfl, fun more => absurd more covered, _, count, stored, known,
        Nat.not_lt.mp covered, Nat.le_refl _⟩
  induction fuel generalizing s count n with
  | zero =>
      rw [growChain]
      exact returns_ite (fun _ => returns_error _) fun covered =>
        returns_ok (enough count sound stored reaches covered)
  | succ fuel ih =>
      rw [growChain]
      refine returns_ite (fun more => ?_) fun covered => returns_ok (enough count sound stored reaches covered)
      apply returns_bind
      intro s1 appended
      obtain ⟨follow, higher, longer⟩ := appendBlock_sound sound p s1 appended
      obtain ⟨first, stored1, reaches1⟩ := longer n stored
      refine (ih follow.sound (count + 1) stored1 (reaches1 count reaches)).mono ?_
      rintro s2 ⟨follow2, _, _, first2, count2, stored2, reaches2, covers, within⟩
      have up := follow2.heap
      simp only [blockSize] at *
      exact ⟨follow.trans follow2, fun covered => absurd more (Nat.not_lt.mpr covered), fun _ => by omega,
        first2, count2, stored2, reaches2, covers, by omega⟩

end Allocation

section Calls

/-- Blocks may change their bytes where they are. -/
theorem Sound.withBlocks (sound : Sound s) {blocks : Nat → Option Block}
    (grows : Linked.Grows 0 Block.next s.blocks blocks) (dead : ∀ a, s.blocks a = none → blocks a = none) :
    Follow s { s with blocks := blocks } := by
  refine ⟨⟨sound.heap, ?_, sound.null, sound.numbered, sound.live_of_dead dead, sound.spent, ?_⟩, grows,
    Nat.le_refl _⟩
  · intro a past
    obtain ⟨noBlock, noInode⟩ := sound.fresh a past
    exact ⟨dead a noBlock, noInode⟩
  · intro p n stored file
    exact (sound.files p n stored file).grows grows

theorem writeChunks_grows (src : List UInt8) (len fuel curr blockOffset written : Nat)
    (blocks : Nat → Option Block) :
    Returns (fun blocks' => Linked.Grows 0 Block.next blocks blocks' ∧ ∀ a, blocks a = none → blocks' a = none)
      (writeChunks src len fuel curr blockOffset written blocks) := by
  induction fuel generalizing curr blockOffset written blocks with
  | zero =>
      rw [writeChunks]
      exact returns_ite (fun _ => returns_error _) fun _ => returns_ok ⟨Linked.grows_refl _, fun _ => id⟩
  | succ fuel ih =>
      rw [writeChunks]
      refine returns_ite (fun _ => ?_) fun _ => returns_ok ⟨Linked.grows_refl _, fun _ => id⟩
      apply returns_bind
      intro b fetched
      have live := (fetch_ok_iff _ _).mp fetched
      refine returns_ite (fun _ => returns_error _) fun _ => ?_
      refine Returns.mono (ih _ _ _ _) ?_
      rintro blocks' ⟨grows, dead⟩
      refine ⟨Linked.Grows.trans (Linked.grows_update live _ ?_) grows, ?_⟩
      · exact Or.inr rfl
      · intro a none_
        apply dead
        rw [Function.update_of_ne (by rintro rfl; simp [none_] at live)]
        exact none_

theorem copyDirent_sound (sound : Sound s) (dst src : DirentPtr) :
    Returns (fun s' => Follow s s' ∧ s'.inodes = s.inodes) (copyDirent s dst src) := by
  unfold copyDirent
  apply returns_bind
  intro source _
  apply returns_bind
  intro target fetched
  exact returns_ok ⟨sound.setBlock _ ((fetch_ok_iff _ _).mp fetched) (Or.inr rfl), rfl⟩

/-- An entry count that goes down belongs to a directory, whose chain it does not bound. -/
theorem unlinkSubject_sound (sound : Sound s) {p : Nat} {parent : Inode} (stored : s.inodes p = some parent)
    (dir : parent.inodeType = 2) (name : List UInt8) (subject : Option DirentPtr) :
    Returns (fun r => Follow s r.2 ∧ (r.1 = -1 → r.2 = s)) (unlinkSubject s p parent name subject) := by
  have refused : Returns (fun r => Follow s r.2 ∧ (r.1 = -1 → r.2 = s)) (.ok ((-1 : Int), s)) :=
    returns_ok ⟨sound.refl, fun _ => rfl⟩
  have shrinks : ∀ s', Follow s s' → s'.inodes = s.inodes →
      Follow s (s'.setInode p { parent with inodeSize := sub64 parent.inodeSize 1 }) := by
    intro s' follow same
    exact follow.trans (follow.sound.setInode _ (by rw [same]; exact stored) fun file => absurd dir file)
  cases subject with
  | none => exact refused
  | some d =>
      rw [unlinkSubject]
      apply returns_bind
      intro entry _
      apply returns_bind
      intro hit _
      refine returns_ite (fun _ => refused) fun _ => ?_
      apply returns_bind
      intro last _
      cases last with
      | none => exact refused
      | some last =>
          apply returns_bind
          intro q _
          refine returns_ite (fun _ => refused) fun _ => ?_
          apply returns_bind
          intro inode _
          refine returns_ite (fun _ => refused) fun _ => ?_
          refine returns_ite (fun _ => ?_) fun _ => ?_
          · exact returns_ok ⟨shrinks s sound.refl rfl,
              fun failed => absurd failed (show (0 : Int) ≠ -1 by decide)⟩
          · apply returns_bind
            intro s' copied
            obtain ⟨follow, same⟩ := copyDirent_sound sound d last s' copied
            exact returns_ok ⟨shrinks s' follow same, fun failed => absurd failed (show (0 : Int) ≠ -1 by decide)⟩

theorem fsUnlink_sound (sound : Sound s) (parentIno : Nat) (name : List UInt8) :
    Returns (fun r => Follow s r.2 ∧ (r.1 = -1 → r.2 = s)) (fsUnlink s parentIno name) := by
  have refused : Returns (fun r => Follow s r.2 ∧ (r.1 = -1 → r.2 = s)) (.ok ((-1 : Int), s)) :=
    returns_ok ⟨sound.refl, fun _ => rfl⟩
  unfold fsUnlink
  apply returns_bind
  intro p _
  refine returns_ite (fun _ => refused) fun _ => ?_
  apply returns_bind
  intro parent fetched
  have stored := (fetch_ok_iff _ _).mp fetched
  refine returns_ite (fun _ => refused) fun checked => ?_
  have dir : parent.inodeType = 2 := not_not.mp (not_or.mp checked).1
  apply returns_bind
  intro scan _
  cases scan with
  | broken => exact refused
  | found d => exact unlinkSubject_sound sound stored dir name (some d)
  | exhausted last => exact unlinkSubject_sound sound stored dir name last

theorem linkDirent_sound (sound : Sound s) {p : Nat} {parent : Inode} (stored : s.inodes p = some parent)
    (dir : parent.inodeType = 2) (ino : Nat) (name : List UInt8) :
    Returns (fun s' => Follow s s') (linkDirent s p ino name) := by
  unfold linkDirent
  apply returns_bind
  intro parent' fetched
  obtain rfl : parent = parent' := Option.some.inj (stored.symm.trans ((fetch_ok_iff _ _).mp fetched))
  apply returns_bind
  intro walked _
  have grown := sound.setInode { parent with inodeSize := (parent.inodeSize + 1) % 2 ^ 64 } stored
    fun file => absurd dir file
  apply returns_bind
  intro b fetchedBlock
  apply returns_bind
  intro data _
  exact returns_ok (grown.trans (grown.sound.setBlock _ ((fetch_ok_iff _ _).mp fetchedBlock) (Or.inr rfl)))

variable [Backing σ]

theorem growIfFull_sound (sound : Sound s) (p : Nat) (parent : Inode) {n : Inode} (stored : s.inodes p = some n) :
    Returns (fun s' => Follow s s' ∧ ∃ first, s'.inodes p = some { n with firstBlock := first })
      (growIfFull s p parent) := by
  unfold growIfFull
  refine returns_ite (fun _ => ?_) fun _ => returns_ok ⟨sound.refl, n.firstBlock, stored⟩
  refine Returns.mono (appendBlock_sound sound p) ?_
  rintro s' ⟨follow, _, longer⟩
  obtain ⟨first, stored', _⟩ := longer n stored
  exact ⟨follow, first, stored'⟩

theorem fsCreate_sound (sound : Sound s) (parentIno : Nat) (name : List UInt8) (inodeType : UInt8) :
    Returns (fun r => Follow s r.2 ∧ (r.1 = invalidIno → r.2 = s)) (fsCreate s parentIno name inodeType) := by
  have refused : Returns (fun r => Follow s r.2 ∧ (r.1 = invalidIno → r.2 = s)) (.ok (invalidIno, s)) :=
    returns_ok ⟨sound.refl, fun _ => rfl⟩
  unfold fsCreate
  apply returns_bind
  intro p _
  refine returns_ite (fun _ => refused) fun _ => ?_
  apply returns_bind
  intro parent fetched
  have stored := (fetch_ok_iff _ _).mp fetched
  refine returns_ite (fun _ => refused) fun checked => ?_
  have dir : parent.inodeType = 2 := not_not.mp checked
  apply returns_bind
  intro len _
  apply returns_bind
  intro first _
  refine returns_ite (fun _ => refused) fun _ => ?_
  apply returns_bind
  intro scan _
  cases scan with
  | broken => exact refused
  | found d => exact refused
  | exhausted last =>
      apply returns_bind
      rintro ⟨ino, s1⟩ made
      obtain ⟨rfl, follow1, kept⟩ := allocInode_sound sound inodeType _ made
      apply returns_bind
      intro s2 grew
      obtain ⟨follow2, first, stored2⟩ := growIfFull_sound follow1.sound p parent (kept p parent stored) s2 grew
      apply returns_bind
      intro s3 linked
      have follow3 := linkDirent_sound follow2.sound stored2 dir _ name s3 linked
      refine returns_ok ⟨(follow1.trans follow2).trans follow3, ?_⟩
      -- numbers start at 1, so a number that was handed out is no error value
      intro failed
      have numbered := sound.numbered
      have failed : s.nextIno = 0 := failed
      omega

omit [Backing σ] in
/-- The store behind a grown chain: its start is missing only where the end of the range wrapped. -/
theorem storeRange_sound (sound : Sound s) {p offset len count : Nat} {n : Inode} (src : List UInt8)
    (stored : s.inodes p = some n) (reaches : BlocksFrom s count n.firstBlock)
    (covers : (offset + len) % 2 ^ 64 ≤ payloadSize * count)
    (small : (offset + len) % 2 ^ 64 ≤ payloadSize * 512) :
    Returns (fun r => Follow s r.2 ∧ (r.1 = toInt64 len ∧ r.2.heap = s.heap ∨
        r = (-1, s) ∧ 2 ^ 64 ≤ offset + len))
      (storeRange s p offset len src) := by
  unfold storeRange
  apply returns_bind
  intro subject fetched
  obtain rfl := Option.some.inj (stored.symm.trans ((fetch_ok_iff _ _).mp fetched))
  apply returns_bind
  intro walked walkedTo
  cases walked with
  | none =>
      refine returns_ok ⟨sound.refl, Or.inr ⟨rfl, ?_⟩⟩
      by_contra straight
      exact reaches_start reaches (Nat.not_le.mp straight) covers walkedTo
  | some curr =>
      apply returns_bind
      intro blocks copied
      obtain ⟨kept, dead⟩ := writeChunks_grows src len len curr _ 0 s.blocks blocks copied
      have follow := sound.withBlocks kept dead
      refine returns_ite (fun _ => returns_ok ⟨?_, Or.inl ⟨rfl, rfl⟩⟩) fun _ =>
        returns_ok ⟨follow, Or.inl ⟨rfl, rfl⟩⟩
      have needed : blocksFor ((offset + len) % 2 ^ 64) ≤ count := by
        simp only [blocksFor, payloadSize] at *
        omega
      exact follow.trans (follow.sound.setInode _ stored fun _ => ⟨(reaches.mono needed).grows kept, small⟩)

/-- What a write that failed did to the store: nothing, or the growth of a wrapped range. -/
structure WriteTrace (s : Fs σ) (call : FsCall) (value : Int) (s' : Fs σ) : Prop where
  none : ¬ GrowsWrapped s call → value = -1 → s' = s
  grown : GrowsWrapped s call → s.heap.bumpPtr < s'.heap.bumpPtr

/-- A write that fails has grown nothing, unless its range wrapped. -/
theorem fsWrite_sound (sound : Sound s) (ino offset len : Nat) (buf : Option (List UInt8)) :
    Returns (fun r => Follow s r.2 ∧ (offset < 2 ^ 64 → (∀ src, buf = some src → len < 2 ^ 63) →
        WriteTrace s (.write ino offset len buf) r.1 r.2))
      (fsWrite s ino offset len buf) := by
  have refused : ¬ GrowsWrapped s (.write ino offset len buf) →
      Returns (fun r => Follow s r.2 ∧ (offset < 2 ^ 64 → (∀ src, buf = some src → len < 2 ^ 63) →
        WriteTrace s (.write ino offset len buf) r.1 r.2)) (.ok ((-1 : Int), s)) := fun stays =>
    returns_ok ⟨sound.refl, fun _ _ => ⟨fun _ _ => rfl, fun grows => absurd grows stays⟩⟩
  cases buf with
  | none => exact refused id
  | some src =>
      unfold fsWrite
      apply returns_bind
      intro p located
      refine returns_ite (fun null => refused (not_growsWrapped located ?_)) fun _ => ?_
      · intro n stored
        rw [null, sound.null] at stored
        exact absurd stored.symm (Option.some_ne_none n)
      apply returns_bind
      intro subject fetched
      have stored := (fetch_ok_iff _ _).mp fetched
      refine returns_ite (fun other => refused (not_growsWrapped located ?_)) fun checked => ?_
      · intro n storedN
        exact Option.some.inj (stored.symm.trans storedN) ▸ other
      have file : subject.inodeType = 1 := not_not.mp checked
      apply returns_bind
      intro count counted
      obtain ⟨reaches, _⟩ := Linked.count_reaches walkFuel _ count counted
      have grows := growsWrapped_iff offset len src located stored file counted
      apply returns_bind
      intro s1 grew
      obtain ⟨follow, unchanged, higher, first, count', stored1, reaches1, covers, within⟩ :=
        growChain_sound sound _ p walkFuel count stored reaches s1 grew
      -- the blocks of one heap hold at most this many bytes
      have small : (offset + len) % 2 ^ 64 ≤ payloadSize * 512 := by
        have few := sound.count_small counted
        have base := sound.heap.base
        have mapped := follow.sound.heap.mapped
        have window := follow.sound.heap.window
        refine Nat.le_trans covers (Nat.mul_le_mul_left _ ?_)
        simp only [heapBase, heapMaxSize, blockSize] at *
        omega
      refine (storeRange_sound follow.sound src stored1 reaches1 covers small).mono ?_
      rintro ⟨value, s2⟩ ⟨follow2, outcome⟩
      refine ⟨follow.trans follow2, fun offsetFits supplied => ?_⟩
      have lenFits := supplied src rfl
      have grows := grows offsetFits lenFits
      rcases outcome with ⟨stores, sameHeap⟩ | ⟨fails, wraps⟩
      · refine ⟨fun _ failed => ?_, fun grown => sameHeap ▸ higher (grows.mp grown).2⟩
        rw [stores, toInt64_small len lenFits] at failed
        omega
      · obtain ⟨-, rfl⟩ := Prod.mk.inj fails
        refine ⟨fun stays _ => unchanged ?_, fun grown => higher (grows.mp grown).2⟩
        by_contra past
        exact stays (grows.mpr ⟨wraps, Nat.not_le.mp past⟩)

theorem fsInit_sound (sound : Sound s) : Returns (fun s' => Follow s s') (fsInit s) := by
  unfold fsInit
  apply returns_bind
  rintro ⟨ino, s1⟩ made
  exact returns_ok (allocInode_sound sound 2 _ made).2.1

theorem fsStep_sound (sound : Sound s) (call : FsCall) : Returns (fun r => Follow s r.2) (fsStep s call) := by
  have reads : ∀ {α : Type} (run : Run α) (out : α → FsResult),
      Returns (fun r => Follow s r.2) (run >>= fun value => pure (out value, s)) := by
    intro α run out
    apply returns_bind
    intro value _
    exact returns_ok sound.refl
  cases call with
  | init =>
      apply returns_bind
      intro s1 made
      exact returns_ok (fsInit_sound sound s1 made)
  | create parentIno name inodeType =>
      apply returns_bind
      rintro ⟨number, s1⟩ made
      exact returns_ok (fsCreate_sound sound parentIno name inodeType _ made).1
  | unlink parentIno name =>
      apply returns_bind
      rintro ⟨value, s1⟩ done
      exact returns_ok (fsUnlink_sound sound parentIno name _ done).1
  | write ino offset len buf =>
      apply returns_bind
      rintro ⟨value, s1⟩ done
      exact returns_ok (fsWrite_sound sound ino offset len buf _ done).1
  | lookup path => exact reads (fsLookup s path) .ino
  | read ino offset len buf => exact reads (fsRead s ino offset len buf) fun r => .bytes r.1 r.2
  | readdir dirIno index out => exact reads (fsReaddir s dirIno index out) fun r => .entry r.1 r.2
  | stat ino sizeOut typeOut => exact reads (fsStat s ino sizeOut typeOut) fun r => .stat r.1 r.2.1 r.2.2

/-- Every state a run reaches is sound, whatever memory and arguments were. -/
theorem fsRun_sound (back : σ) (raw : Nat → Region) (calls : List FsCall) (outs : List FsResult)
    (done : fsRun back raw calls = .ok (outs, s)) : Sound s := by
  obtain ⟨s0, booted, ran⟩ := (bind_ok_iff _ _ _).mp done
  have start := (fsInit_sound (sound_empty back raw) s0 booted).sound
  exact Replay.attempt_invariant fsStep Sound
    (fun state call out next sound stepped => (fsStep_sound sound call _ stepped).sound) calls s0 outs s start ran

end Calls

end KehindeKernel
