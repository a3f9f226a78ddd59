import KehindeKernel.FsTree

/-!
`fs_read` and `fs_write` on the bytes of a file. Byte `i` of a file lies in block
`i / 4088` of its chain at offset `i % 4088`; both copy loops cover one interval
of bytes, a chunk for each block it meets.
-/

namespace KehindeKernel

open Outcome Bytes

/-- Byte `i` of the chain of a node, zero past its end. -/
def Node.byte (n : Node) (i : Nat) : UInt8 := payload n.chain (i / payloadSize) (i % payloadSize)

def Node.contents (n : Node) : List UInt8 := (List.range n.inode.inodeSize).map n.byte

theorem byte_at (n : Node) (k i : Nat) (below : i < payloadSize) :
    n.byte (payloadSize * k + i) = payload n.chain k i := by
  have positive : 0 < payloadSize := by decide
  rw [Node.byte, Nat.mul_add_div positive, Nat.div_eq_of_lt below, Nat.add_zero,
    Nat.mul_add_mod, Nat.mod_eq_of_lt below]

theorem byte_past (n : Node) (i : Nat) (past : payloadSize * n.chain.length ≤ i) : n.byte i = 0 := by
  have outside : n.chain.length ≤ i / payloadSize := by
    rw [Nat.le_div_iff_mul_le (by decide), Nat.mul_comm]
    exact past
  rw [Node.byte, payload, List.getElem?_eq_none outside]
  rfl

theorem load_chunk (n : Node) (k at_ chunk : Nat) (fits : at_ + chunk ≤ payloadSize) :
    load (payload n.chain k) at_ chunk =
      (List.range chunk).map fun i => n.byte (payloadSize * k + at_ + i) := by
  apply List.map_congr_left
  intro i member
  have below := List.mem_range.mp member
  rw [Nat.add_assoc]
  exact (byte_at n k (at_ + i) (by omega)).symm

variable {σ : Type} {raw : Nat → Region} {s : Fs σ} {nodes : List Node}

theorem readChunks_spec (shape : Shape raw s nodes) (n : Node) (member : n ∈ nodes)
    (capacity len fuel k blockOffset copied : Nat) (room : len ≤ capacity)
    (enough : len - copied ≤ fuel) (low : copied ≤ len) (inBlock : blockOffset < payloadSize)
    (inChain : copied < len →
      payloadSize * k + blockOffset + (len - copied) ≤ payloadSize * n.chain.length) :
    readChunks s capacity len fuel (Linked.cell 0 n.chain k) blockOffset copied =
      .ok ((List.range (len - copied)).map fun i => n.byte (payloadSize * k + blockOffset + i)) := by
  induction fuel generalizing k blockOffset copied with
  | zero =>
      have done : len - copied = 0 := Nat.le_zero.mp enough
      simp [readChunks, done, show ¬ copied < len by omega]
  | succ fuel ih =>
      by_cases more : copied < len
      · have inside := inChain more
        have block : k < n.chain.length := by
          simp only [payloadSize] at *
          omega
        obtain ⟨b, stored, data, next⟩ := shape.block_at n member k block
        obtain ⟨chunk, sized⟩ : ∃ c, c = min (len - copied) (payloadSize - blockOffset) := ⟨_, rfl⟩
        have rest := ih (k + 1) 0 (copied + chunk) (by omega) (by omega) (by decide) (by
          intro later
          simp only [payloadSize] at *
          omega)
        simp only [readChunks, if_pos more, stored, fetch_some, ok_bind, ← sized,
          if_neg (show ¬ copied + chunk > capacity by omega), next, rest, data, pure_ok,
          load_chunk n k blockOffset chunk (by omega)]
        have split : len - copied = chunk + (len - (copied + chunk)) := by omega
        rw [split, List.range_add, List.map_append, List.map_map, Except.ok.injEq]
        congr 1
        apply List.map_congr_left
        intro i member
        have below := List.mem_range.mp member
        -- a chunk that leaves something to copy ends at the end of its block
        have edge : payloadSize * (k + 1) + 0 + i = payloadSize * k + blockOffset + (chunk + i) := by
          simp only [payloadSize] at *
          omega
        rw [edge]
        rfl
      · have done : len - copied = 0 := by omega
        simp [readChunks, more, done]

/-- What `fs_read` returns for a node: the bytes of the range the file has. -/
def readResult (found : Option Node) (offset len : Nat) : Int × List UInt8 :=
  match found with
  | none => (-1, [])
  | some n =>
      if n.inode.inodeType ≠ 1 then (-1, [])
      else if n.chain.length < offset / payloadSize then (-1, [])
      else if n.inode.inodeSize ≤ offset then (0, [])
      else ((min len (n.inode.inodeSize - offset) : Nat),
        (List.range (min len (n.inode.inodeSize - offset))).map fun i => n.byte (offset + i))

theorem toInt64_small (n : Nat) (small : n < 2 ^ 63) : toInt64 n = n := if_pos small

theorem Shape.file_small (shape : Shape raw s nodes) (tree : Tree nodes) (n : Node)
    (member : n ∈ nodes) (file : n.inode.inodeType ≠ 2) : n.inode.inodeSize ≤ 4088 * 256 := by
  have short := shape.chain_length n member
  have fits : n.inode.inodeSize ≤ 4088 * n.chain.length := tree.bytes n member file
  omega

theorem Shape.walk_spec (shape : Shape raw s nodes) (n : Node) (member : n ∈ nodes) (k : Nat) :
    Linked.advance 0 Block.next s.blocks (intTrips k) n.inode.firstBlock =
      .ok (if k ≤ n.chain.length then some (Linked.cell 0 n.chain k) else none) := by
  have short := shape.chain_length n member
  rw [Linked.advance_spec (intTrips k) _ _ (shape.chains n member)]
  by_cases near : k ≤ n.chain.length
  · have trips : intTrips k = k := by
      rw [intTrips]
      omega
    rw [trips]
  · have past : ¬ intTrips k ≤ n.chain.length := by
      rw [intTrips]
      omega
    rw [if_neg past, if_neg near]

/-- An offset and a length of words. An object has fewer than 2^63 bytes, so a range that
wraps starts behind every file. -/
def RangeSized (offset len : Nat) : Prop := offset + len < 2 ^ 64 ∨ (offset < 2 ^ 64 ∧ len < 2 ^ 63)

theorem RangeSized.far {offset len : Nat} (sized : RangeSized offset len) (wraps : ¬ offset + len < 2 ^ 64) :
    2 ^ 63 < offset := by
  have bounds := sized.resolve_left wraps
  omega

theorem RangeSized.behind {offset len : Nat} (sized : RangeSized offset len) (wraps : ¬ offset + len < 2 ^ 64)
    (shape : Shape raw s nodes) (n : Node) (member : n ∈ nodes) : n.chain.length < offset / payloadSize := by
  have short := shape.chain_length n member
  have far := sized.far wraps
  simp only [payloadSize]
  omega

theorem fsRead_spec (shape : Shape raw s nodes) (tree : Tree nodes) (ino offset len capacity : Nat)
    (sized : RangeSized offset len) (room : len ≤ capacity) :
    fsRead s ino offset len (some capacity) = .ok (readResult (findNode nodes ino) offset len) := by
  cases found : findNode nodes ino with
  | none => simp [fsRead, readResult, findInode_miss shape found]
  | some n =>
      obtain ⟨member, _⟩ := findNode_some found
      obtain ⟨pointer, nonnull, stored⟩ := findInode_hit shape found
      by_cases file : n.inode.inodeType = 1
      · have notDir : n.inode.inodeType ≠ 2 := by rw [file]; decide
        have fits : n.inode.inodeSize ≤ payloadSize * n.chain.length := tree.bytes n member notDir
        have walk := shape.walk_spec n member (offset / payloadSize)
        by_cases far : n.chain.length < offset / payloadSize
        · rw [if_neg (Nat.not_le.mpr far)] at walk
          simp [fsRead, readResult, pointer, nonnull, stored, file, walk, far]
        · rw [if_pos (Nat.not_lt.mp far)] at walk
          by_cases ended : n.inode.inodeSize ≤ offset
          · simp [fsRead, readResult, pointer, nonnull, stored, file, walk, far, ended]
          · have small : offset + len < 2 ^ 64 := by
              by_contra wraps
              exact far (sized.behind wraps shape n member)
            have clamp : (if (offset + len) % 2 ^ 64 > n.inode.inodeSize
                then n.inode.inodeSize - offset else len) = min len (n.inode.inodeSize - offset) := by
              rw [Nat.mod_eq_of_lt small]
              split <;> omega
            have start : payloadSize * (offset / payloadSize) + offset % payloadSize = offset :=
              Nat.div_add_mod offset payloadSize
            have fileSmall := shape.file_small tree n member notDir
            have copied := readChunks_spec shape n member capacity
              (min len (n.inode.inodeSize - offset)) (min len (n.inode.inodeSize - offset))
              (offset / payloadSize) (offset % payloadSize) 0 (by omega) (Nat.sub_le _ _)
              (Nat.zero_le _) (Nat.mod_lt _ (by decide)) (by rw [start]; omega)
            rw [start, Nat.sub_zero] at copied
            have back : toInt64 (min len (n.inode.inodeSize - offset)) =
                (min len (n.inode.inodeSize - offset) : Nat) := toInt64_small _ (by omega)
            simp only [fsRead, readResult, pointer, ok_bind, if_neg nonnull, stored, fetch_some, file,
              ne_eq, not_true_eq_false, ↓reduceIte, walk, if_neg far, ge_iff_le, ended,
              clamp, copied, back, pure_ok]
      · simp [fsRead, readResult, pointer, nonnull, stored, file]

def blocksFor (need : Nat) : Nat := (need + (payloadSize - 1)) / payloadSize

/-- `n'` has the bytes of `src` at `offset`, and elsewhere the bytes of `n` or, in
blocks it did not have, what the memory of the block held. -/
structure Wrote (raw : Nat → Region) (n n' : Node) (offset : Nat) (src : List UInt8) : Prop where
  blocks : n'.chain.length = max n.chain.length (blocksFor (offset + src.length))
  inode : n'.inode.ino = n.inode.ino ∧ n'.inode.inodeType = n.inode.inodeType ∧
    n'.inode.inodeSize = max n.inode.inodeSize (offset + src.length)
  room : n'.inode.inodeSize ≤ payloadSize * n'.chain.length
  inside : ∀ i, i < src.length → n'.byte (offset + i) = src.getD i 0
  outside : ∀ i, i < offset ∨ offset + src.length ≤ i → n'.byte i = n.byte i ∨
    (payloadSize * n.chain.length ≤ i ∧ ∃ b, n'.byte i = (rawBlock (raw b)).data (i % payloadSize))

theorem byte_write (n : Node) (k at_ : Nat) (bytes : List UInt8) (inside : k < n.chain.length)
    (fits : at_ + bytes.length ≤ payloadSize) (i : Nat) :
    (n.write k (Bytes.store (payload n.chain k) at_ bytes)).byte i =
      if payloadSize * k + at_ ≤ i ∧ i < payloadSize * k + at_ + bytes.length
      then bytes.getD (i - (payloadSize * k + at_)) 0 else n.byte i := by
  rw [Node.byte, payload_write n k _ _ inside]
  by_cases here : i / payloadSize = k
  · have position : payloadSize * k + i % payloadSize = i := by
      rw [← here]
      exact Nat.div_add_mod i payloadSize
    rw [if_pos here, store_get]
    by_cases hit : at_ ≤ i % payloadSize ∧ i % payloadSize < at_ + bytes.length
    · have index : i % payloadSize - at_ = i - (payloadSize * k + at_) := by omega
      rw [if_pos hit, if_pos (by omega), index]
    · rw [if_neg hit, if_neg (by omega), Node.byte, here]
  · have apart : ¬ (payloadSize * k + at_ ≤ i ∧ i < payloadSize * k + at_ + bytes.length) := by
      rintro ⟨low, high⟩
      apply here
      simp only [payloadSize] at *
      omega
    rw [if_neg here, if_neg apart]
    rfl

/-- `n'` has `count` bytes of `src`, from index `first` on, at `start`, and elsewhere
the bytes of `n`. -/
def Patched (src : List UInt8) (start first count : Nat) (n n' : Node) : Prop :=
  ∀ i, n'.byte i =
    if start ≤ i ∧ i < start + count then src.getD (first + (i - start)) 0 else n.byte i

theorem patched_none (src : List UInt8) (start first : Nat) (n : Node) : Patched src start first 0 n n := by
  intro i
  rw [if_neg (by omega)]

theorem Patched.trans {src : List UInt8} {start first count next more : Nat} {n n1 n2 : Node}
    (here : Patched src start first count n n1) (later : Patched src next (first + count) more n1 n2)
    (meet : more = 0 ∨ next = start + count) : Patched src start first (count + more) n n2 := by
  intro i
  rw [later i, here i]
  by_cases second : next ≤ i ∧ i < next + more
  · have place : first + count + (i - next) = first + (i - start) := by omega
    rw [if_pos second, if_pos (by omega), place]
  · rw [if_neg second]
    by_cases hit : start ≤ i ∧ i < start + count
    · rw [if_pos hit, if_pos (by omega)]
    · rw [if_neg hit, if_neg (by omega)]

def Node.writeChunk (n : Node) (k at_ : Nat) (src : List UInt8) (written chunk : Nat) : Node :=
  n.write k (Bytes.store (payload n.chain k) at_ ((src.drop written).take chunk))

theorem patched_chunk (n : Node) (k at_ : Nat) (src : List UInt8) (written chunk : Nat)
    (block : k < n.chain.length) (fits : at_ + chunk ≤ payloadSize) (room : written + chunk ≤ src.length) :
    Patched src (payloadSize * k + at_) written chunk n (n.writeChunk k at_ src written chunk) := by
  have length : ((src.drop written).take chunk).length = chunk := by
    rw [List.length_take, List.length_drop]
    omega
  intro i
  rw [Node.writeChunk, byte_write n k at_ _ block (by omega), length]
  by_cases hit : payloadSize * k + at_ ≤ i ∧ i < payloadSize * k + at_ + chunk
  · have short : i - (payloadSize * k + at_) < chunk := by omega
    rw [if_pos hit, if_pos hit]
    simp [List.getD_eq_getElem?_getD, short]
  · rw [if_neg hit, if_neg hit]

theorem writeChunk_fields (n : Node) (k at_ : Nat) (src : List UInt8) (written chunk : Nat)
    (block : k < n.chain.length) : (n.writeChunk k at_ src written chunk).addr = n.addr ∧
      (n.writeChunk k at_ src written chunk).inode = n.inode ∧
      (n.writeChunk k at_ src written chunk).chain.length = n.chain.length ∧
      ∀ i, Linked.cell 0 (n.writeChunk k at_ src written chunk).chain i = Linked.cell 0 n.chain i := by
  refine ⟨rfl, rfl, by rw [Node.writeChunk, Node.write, List.length_set], ?_⟩
  intro i
  have cells := write_cells n k (Bytes.store (payload n.chain k) at_ ((src.drop written).take chunk)) block
  rw [Node.writeChunk, Linked.cell, Linked.cell, ← List.getElem?_map, ← List.getElem?_map, cells]

theorem writeChunks_spec (src : List UInt8) (len fuel : Nat) (shape : Shape raw s nodes) {ino : Nat}
    {n : Node} (found : findNode nodes ino = some n) (k blockOffset written : Nat)
    (room : len ≤ src.length) (enough : len - written ≤ fuel) (inBlock : blockOffset < payloadSize)
    (inChain : written < len →
      payloadSize * k + blockOffset + (len - written) ≤ payloadSize * n.chain.length) :
    ∃ blocks n', writeChunks src len fuel (Linked.cell 0 n.chain k) blockOffset written s.blocks =
        .ok blocks ∧
      Shape raw { s with blocks := blocks } (replaceNode nodes ino n') ∧
      n'.addr = n.addr ∧ n'.inode = n.inode ∧ n'.chain.length = n.chain.length ∧
      Patched src (payloadSize * k + blockOffset) written (len - written) n n' := by
  induction fuel generalizing k blockOffset written s nodes n with
  | zero =>
      have done : len - written = 0 := Nat.le_zero.mp enough
      have stop : ¬ written < len := by omega
      rw [done]
      refine ⟨s.blocks, n, by simp [writeChunks, stop], ?_, rfl, rfl, rfl, patched_none src _ _ n⟩
      rw [replaceNode_self shape.distinct found]
      exact shape
  | succ fuel ih =>
      by_cases more : written < len
      · obtain ⟨member, number⟩ := findNode_some found
        have inside := inChain more
        have block : k < n.chain.length := by
          simp only [payloadSize] at *
          omega
        obtain ⟨b, stored, data, next⟩ := shape.block_at n member k block
        obtain ⟨chunk, sized⟩ : ∃ c, c = min (len - written) (payloadSize - blockOffset) := ⟨_, rfl⟩
        -- the node after this trip; the induction goes on from it
        obtain ⟨n1, named⟩ : ∃ m, m = n.writeChunk k blockOffset src written chunk := ⟨_, rfl⟩
        have shape1 := shape.store found k block b stored
          (Bytes.store (payload n.chain k) blockOffset ((src.drop written).take chunk))
        rw [← Node.writeChunk, ← named] at shape1
        obtain ⟨addr1, inode1, length1, cells⟩ := writeChunk_fields n k blockOffset src written chunk block
        have here := patched_chunk n k blockOffset src written chunk block (by omega) (by omega)
        rw [← named] at addr1 inode1 length1 cells here
        have number1 : n1.inode.ino = ino := by rw [inode1, number]
        obtain ⟨blocks, n', done, shape', addr, inode, length, later⟩ :=
          ih shape1 (findNode_replaced found number1) (k + 1) 0 (written + chunk) (by omega) (by decide) (by
            intro further
            rw [length1]
            simp only [payloadSize] at *
            omega)
        rw [cells] at done
        rw [replaceNode_replace nodes ino n1 n' number1] at shape'
        refine ⟨blocks, n', ?_, shape', addr.trans addr1, inode.trans inode1, length.trans length1, ?_⟩
        · simp only [writeChunks, if_pos more, stored, fetch_some, ok_bind, ← sized,
            if_neg (show ¬ written + chunk > src.length by omega), next, data]
          simp only [Fs.setBlock, next] at done
          exact done
        · -- the next trip starts where this one stopped, unless this was the last
          have whole : len - written = chunk + (len - (written + chunk)) := by omega
          rw [whole]
          apply here.trans later
          simp only [payloadSize] at *
          omega
      · have done : len - written = 0 := by omega
        rw [done]
        refine ⟨s.blocks, n, by simp [writeChunks, more], ?_, rfl, rfl, rfl, patched_none src _ _ n⟩
        rw [replaceNode_self shape.distinct found]
        exact shape

variable [Backing σ]

theorem growChain_spec (need fuel : Nat) (shape : Shape raw s nodes) {ino : Nat} {n : Node}
    (found : findNode nodes ino = some n) (enough : 256 < fuel + n.chain.length)
    (links : ∀ k, payloadSize * (n.chain.length + k) < need →
      decode 8 (raw (s.heap.bumpPtr + blockSize * k)) = 0) :
    Follows (fun heap s' => s'.heap = heap ∧ ∃ n', Longer raw n n' ∧
        n'.chain.length = max n.chain.length (blocksFor need) ∧ Shape raw s' (replaceNode nodes ino n'))
      (allocs s.heap (List.replicate (blocksFor need - n.chain.length) blockSize))
      (growChain need n.addr fuel n.chain.length s) := by
  have whole : need > payloadSize * n.chain.length ↔ n.chain.length < blocksFor need := by
    simp only [blocksFor, payloadSize]
    omega
  induction fuel generalizing s nodes n with
  | zero =>
      have short := shape.chain_length n (findNode_some found).1
      omega
  | succ fuel ih =>
      by_cases more : need > payloadSize * n.chain.length
      · have count : blocksFor need - n.chain.length = blocksFor need - (n.chain.length + 1) + 1 := by
          have := whole.mp more
          omega
        rw [growChain, if_pos more, count, List.replicate_succ, ← List.singleton_append, allocs_append]
        apply (appendBlock_spec shape found (links 0 more)).bind
        rintro _ s1 ⟨rfl, moved, shape1⟩
        have number := (n.grow_fields raw s.heap.bumpPtr).1.trans (findNode_some found).2
        have length : (n.grow raw s.heap.bumpPtr).chain.length = n.chain.length + 1 := by
          simp [Node.grow]
        -- the next block comes one block higher in memory
        have later := ih shape1 (findNode_replaced found number) (by rw [length]; omega) (by
          intro k below
          rw [length, Nat.add_assoc] at below
          have link := links (1 + k) below
          have place : s1.heap.bumpPtr + blockSize * k = s.heap.bumpPtr + blockSize * (1 + k) := by
            rw [moved, Nat.mul_add, Nat.mul_one, Nat.add_assoc]
            rfl
          rw [place]
          exact link) (by
          rw [length]
          simp only [blocksFor, payloadSize]
          omega)
        rw [length, show (n.grow raw s.heap.bumpPtr).addr = n.addr from rfl] at later
        apply later.mono
        rintro _ s2 ⟨rfl, n', longer, reached, shape2⟩
        rw [replaceNode_replace nodes ino _ n' number] at shape2
        have above := whole.mp more
        exact ⟨rfl, n', (longer_grow n raw _).trans longer, by omega, shape2⟩
      · have below := mt whole.mpr more
        rw [growChain, if_neg more, Nat.sub_eq_zero_of_le (Nat.not_lt.mp below), List.replicate_zero, allocs]
        refine .ok s.heap s ⟨rfl, n, Longer.refl raw n, by omega, ?_⟩
        rw [replaceNode_self shape.distinct found]
        exact shape

theorem Longer.byte {n n' : Node} (longer : Longer raw n n') (i : Nat) : n'.byte i = n.byte i ∨
    (payloadSize * n.chain.length ≤ i ∧ ∃ b, n'.byte i = (rawBlock (raw b)).data (i % payloadSize)) := by
  by_cases old : i / payloadSize < n.chain.length
  · left
    rw [Node.byte, longer.kept _ old, Node.byte]
  · have past : payloadSize * n.chain.length ≤ i := by
      have low := Nat.not_lt.mp old
      rw [Nat.le_div_iff_mul_le (by decide), Nat.mul_comm] at low
      exact low
    by_cases new : i / payloadSize < n'.chain.length
    · obtain ⟨b, filled⟩ := longer.fresh _ (Nat.not_lt.mp old) new
      exact Or.inr ⟨past, b, by rw [Node.byte, filled]⟩
    · left
      rw [byte_past n i past, Node.byte, payload, List.getElem?_eq_none (Nat.not_lt.mp new)]
      rfl

/-- Blocks behind the end of a file do not show. -/
theorem Longer.contents {n n' : Node} (longer : Longer raw n n')
    (room : n.inode.inodeSize ≤ payloadSize * n.chain.length) : n'.contents = n.contents := by
  rw [Node.contents, Node.contents, longer.inode.2.2]
  apply List.map_congr_left
  intro i member
  have below := List.mem_range.mp member
  rcases longer.byte i with same | ⟨past, _⟩
  · exact same
  · omega

/-- A chain that grew and was patched, under an inode with the new size. -/
theorem Longer.wrote {n n1 n' : Node} {src : List UInt8} {offset len : Nat} (longer : Longer raw n n1)
    (bytes : n.inode.inodeSize ≤ payloadSize * n.chain.length) (room : len ≤ src.length)
    (reached : n1.chain.length = max n.chain.length (blocksFor (offset + len)))
    (length : n'.chain.length = n1.chain.length) (patched : Patched src offset 0 len n1 n')
    (inode : n'.inode = { n1.inode with inodeSize := max n1.inode.inodeSize (offset + len) }) :
    Wrote raw n n' offset (src.take len) := by
  have taken : (src.take len).length = len := List.length_take_of_le room
  obtain ⟨sameIno, sameType, sameSize⟩ := longer.inode
  have size : n'.inode.inodeSize = max n.inode.inodeSize (offset + len) := by rw [inode, ← sameSize]
  refine ⟨by rw [length, reached, taken], ⟨?_, ?_, by rw [taken, size]⟩, ?_, ?_, ?_⟩
  · rw [inode]
    exact sameIno
  · rw [inode]
    exact sameType
  · have longEnough := longer.length
    rw [size, length, reached]
    simp only [blocksFor, payloadSize] at *
    omega
  · intro i below
    rw [taken] at below
    rw [patched, if_pos (by omega), Nat.zero_add, Nat.add_sub_cancel_left]
    simp [List.getD_eq_getElem?_getD, below]
  · intro i away
    rw [taken] at away
    rw [patched, if_neg (by omega)]
    exact longer.byte i

/-- What a write that returned `value` has done to its file: it has stored the range,
or the range wraps and the chain is long enough for where it ends. -/
def Writes (raw : Nat → Region) (n n' : Node) (offset len : Nat) (src : List UInt8) (value : Int) : Prop :=
  (offset + len < 2 ^ 64 ∧ value = len ∧ Wrote raw n n' offset (src.take len)) ∨
  (2 ^ 64 ≤ offset + len ∧ value = -1 ∧ Longer raw n n' ∧
    n'.chain.length = max n.chain.length (blocksFor ((offset + len) % 2 ^ 64)))

omit [Backing σ] in
theorem storeRange_behind (shape : Shape raw s nodes) {ino offset len : Nat} {n : Node} (src : List UInt8)
    (found : findNode nodes ino = some n) (behind : n.chain.length < offset / payloadSize) :
    storeRange s n.addr offset len src = .ok (-1, s) := by
  obtain ⟨member, _⟩ := findNode_some found
  have walk := shape.walk_spec n member (offset / payloadSize)
  rw [if_neg (Nat.not_le.mpr behind)] at walk
  simp only [storeRange, (shape.stored n member).2, fetch_some, ok_bind, walk, pure_ok]

omit [Backing σ] in
theorem storeRange_spec (shape : Shape raw s nodes) {ino offset len : Nat} {n : Node} {src : List UInt8}
    (found : findNode nodes ino = some n) (small : offset + len < 2 ^ 64) (room : len ≤ src.length)
    (covers : offset + len ≤ payloadSize * n.chain.length) :
    ∃ s' n', storeRange s n.addr offset len src = .ok ((len : Int), s') ∧ s'.heap = s.heap ∧
      Shape raw s' (replaceNode nodes ino n') ∧
      n'.inode = { n.inode with inodeSize := max n.inode.inodeSize (offset + len) } ∧
      n'.chain.length = n.chain.length ∧ Patched src offset 0 len n n' := by
  obtain ⟨member, number⟩ := findNode_some found
  have short := shape.chain_length n member
  have walk := shape.walk_spec n member (offset / payloadSize)
  have block : offset / payloadSize ≤ n.chain.length := by
    simp only [payloadSize] at *
    omega
  have start : payloadSize * (offset / payloadSize) + offset % payloadSize = offset :=
    Nat.div_add_mod offset payloadSize
  rw [if_pos block] at walk
  obtain ⟨blocks, n2, done, shape2, addr, inode, length, patched⟩ :=
    writeChunks_spec src len len shape found (offset / payloadSize) (offset % payloadSize) 0
      room (Nat.sub_le _ _) (Nat.mod_lt _ (by decide)) (by rw [start]; omega)
  rw [start, Nat.sub_zero] at patched
  have number2 : n2.inode.ino = ino := by rw [inode, number]
  have returned : toInt64 len = len := by
    apply toInt64_small
    simp only [payloadSize] at *
    omega
  simp only [storeRange, (shape.stored n member).2, fetch_some, ok_bind, walk, done, returned,
    Nat.mod_eq_of_lt small]
  -- the size is stored only if it grew; both ways it is the maximum of the two
  by_cases extends_ : offset + len > n.inode.inodeSize
  · rw [if_pos extends_]
    have resized := shape2.resize (findNode_replaced found number2) (offset + len)
    rw [replaceNode_replace nodes ino n2 _ number2, addr, inode] at resized
    refine ⟨_, n2.resize (offset + len), rfl, rfl, resized, ?_, length, patched⟩
    rw [Nat.max_eq_right (Nat.le_of_lt extends_), ← inode]
    rfl
  · rw [if_neg extends_]
    refine ⟨_, n2, rfl, rfl, shape2, ?_, length, patched⟩
    rw [Nat.max_eq_left (Nat.not_lt.mp extends_), inode]

theorem fsWrite_file (shape : Shape raw s nodes) {ino offset len : Nat} {n : Node} {src : List UInt8}
    (found : findNode nodes ino = some n) (file : n.inode.inodeType = 1) :
    fsWrite s ino offset len (some src) =
      growChain ((offset + len) % 2 ^ 64) n.addr walkFuel n.chain.length s >>= fun s =>
        storeRange s n.addr offset len src := by
  obtain ⟨member, _⟩ := findNode_some found
  obtain ⟨pointer, nonnull, stored⟩ := findInode_hit shape found
  have counted := Linked.count_spec walkFuel _ _ (shape.chains n member) (shape.chain_fuel n member)
  simp only [fsWrite, pointer, ok_bind, if_neg nonnull, stored, fetch_some, file, ne_eq,
    not_true_eq_false, ↓reduceIte, counted]

theorem fsWrite_refused (shape : Shape raw s nodes) (ino offset len : Nat) (src : List UInt8)
    (other : ∀ n, findNode nodes ino = some n → n.inode.inodeType ≠ 1) :
    fsWrite s ino offset len (some src) = .ok (-1, s) := by
  cases found : findNode nodes ino with
  | none => simp [fsWrite, findInode_miss shape found]
  | some n =>
      obtain ⟨pointer, nonnull, stored⟩ := findInode_hit shape found
      simp [fsWrite, pointer, nonnull, stored, other n found]

theorem fsWrite_spec (shape : Shape raw s nodes) (tree : Tree nodes) {ino offset len : Nat} {n : Node}
    {src : List UInt8} (found : findNode nodes ino = some n) (file : n.inode.inodeType = 1)
    (sized : RangeSized offset len) (room : len ≤ src.length)
    (links : ∀ k, payloadSize * (n.chain.length + k) < (offset + len) % 2 ^ 64 →
      decode 8 (raw (s.heap.bumpPtr + blockSize * k)) = 0) :
    Follows (fun heap r => r.2.heap = heap ∧
        ∃ n', Writes raw n n' offset len src r.1 ∧ Shape raw r.2 (replaceNode nodes ino n'))
      (allocs s.heap (List.replicate (blocksFor ((offset + len) % 2 ^ 64) - n.chain.length) blockSize))
      (fsWrite s ino offset len (some src)) := by
  obtain ⟨member, number⟩ := findNode_some found
  have enough : 256 < walkFuel + n.chain.length := by
    simp only [walkFuel, heapMaxSize]
    omega
  rw [fsWrite_file shape found file]
  -- the chain is long enough from here on, and its new blocks hold what memory held
  apply (growChain_spec _ walkFuel shape found enough links).rest
  rintro _ s1 ⟨rfl, n1, longer, reached, shape1⟩
  have number1 : n1.inode.ino = ino := longer.inode.1.trans number
  have found1 := findNode_replaced found number1
  rw [← longer.addr]
  by_cases small : offset + len < 2 ^ 64
  · rw [Nat.mod_eq_of_lt small] at reached
    have covers : offset + len ≤ payloadSize * n1.chain.length := by
      rw [reached]
      simp only [blocksFor, payloadSize]
      omega
    obtain ⟨s2, n2, done, heap, shape2, inode, length, patched⟩ := storeRange_spec shape1 found1 small room covers
    have bytes := tree.bytes n member (by rw [file]; decide)
    rw [replaceNode_replace nodes ino n1 n2 number1] at shape2
    rw [done]
    exact .ok _ _ ⟨heap, n2, Or.inl ⟨small, rfl, longer.wrote bytes room reached length patched inode⟩, shape2⟩
  · have behind := sized.behind small shape1 n1 (findNode_some found1).1
    rw [storeRange_behind shape1 src found1 behind]
    exact .ok _ _ ⟨rfl, n1, Or.inr ⟨Nat.not_lt.mp small, rfl, longer, reached⟩, shape1⟩

end KehindeKernel
