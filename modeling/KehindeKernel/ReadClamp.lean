import KehindeKernel.FsSound

/-!
`fs_read` over all 64-bit ranges and in any memory. The block walk comes before the
end-of-file test and the clamp compares `offset + len` modulo 2^64: a read is
clamped as the header says exactly where neither gets in the way.
-/

namespace KehindeKernel

open Outcome Bytes

variable {σ : Type}

/-- Byte `i` of the chain that starts at `p`. -/
def chainByte (s : Fs σ) (p i : Nat) : Option UInt8 :=
  match Linked.advance 0 Block.next s.blocks (i / payloadSize) p with
  | .ok (some q) => (s.blocks q).map fun b => b.data (i % payloadSize)
  | _ => none

structure IsFile (s : Fs σ) (ino : Nat) (n : Inode) : Prop where
  located : ∃ p, findInode s ino = .ok p ∧ s.inodes p = some n
  file : n.inodeType = 1

/-- The call returns the number of bytes the range has in the file, and these bytes. -/
def ReadsClamped (s : Fs σ) (ino : Nat) (n : Inode) (offset len capacity : Nat) : Prop :=
  ∃ out : List UInt8, fsRead s ino offset len (some capacity) = .ok ((out.length : Int), out) ∧
    out.length = min len (n.inodeSize - offset) ∧
    out.map some = (List.range out.length).map fun i => chainByte s n.firstBlock (offset + i)

/-- Inside the file the range does not wrap; behind it the chain has the blocks that
the walk steps over. -/
def RangeFits (s : Fs σ) (n : Inode) (offset len : Nat) : Prop :=
  if offset < n.inodeSize then offset + len < 2 ^ 64
  else BlocksFrom s (intTrips (offset / payloadSize)) n.firstBlock

section Chains

variable {s : Fs σ}

theorem chainByte_first {p i : Nat} {b : Block} (stored : s.blocks p = some b)
    (inside : i < payloadSize) : chainByte s p i = some (b.data i) := by
  rw [chainByte, Nat.div_eq_of_lt inside, Nat.mod_eq_of_lt inside, Linked.advance, pure_ok]
  simp [stored]

theorem chainByte_next {p i : Nat} {b : Block} (nonnull : p ≠ 0) (stored : s.blocks p = some b) :
    chainByte s p (payloadSize + i) = chainByte s b.next i := by
  have positive : 0 < payloadSize := by decide
  rw [chainByte, Nat.add_div_left i positive, Nat.add_mod_left, Linked.advance, if_neg nonnull, stored,
    fetch_some, ok_bind, chainByte]

theorem chainByte_behind (k p q i : Nat)
    (walked : Linked.advance 0 Block.next s.blocks k p = .ok (some q)) :
    chainByte s p (payloadSize * k + i) = chainByte s q i := by
  induction k generalizing p with
  | zero =>
      obtain rfl : p = q := Option.some.inj (Except.ok.inj walked)
      rw [Nat.mul_zero, Nat.zero_add]
  | succ k ih =>
      rw [Linked.advance] at walked
      by_cases ends : p = 0
      · rw [if_pos ends] at walked
        simp at walked
      · rw [if_neg ends] at walked
        obtain ⟨b, fetched, later⟩ := (bind_ok_iff _ _ _).mp walked
        have split : payloadSize * (k + 1) + i = payloadSize + (payloadSize * k + i) := by
          rw [Nat.mul_add, Nat.mul_one, Nat.add_comm _ payloadSize, Nat.add_assoc]
        rw [split, chainByte_next ends ((fetch_ok_iff _ _).mp fetched)]
        exact ih b.next later

theorem reaches_behind {k m p q : Nat} (reaches : BlocksFrom s (k + m) p)
    (walked : Linked.advance 0 Block.next s.blocks k p = .ok (some q)) : BlocksFrom s m q := by
  induction k generalizing p with
  | zero =>
      obtain rfl : p = q := Option.some.inj (Except.ok.inj walked)
      exact reaches.mono (by omega)
  | succ k ih =>
      have shape : k + 1 + m = (k + m) + 1 := by omega
      rw [shape] at reaches
      obtain ⟨nonnull, b, stored, later⟩ := reaches
      rw [Linked.advance, if_neg nonnull, stored, fetch_some, ok_bind] at walked
      exact ih later walked

theorem readChunks_length (capacity len fuel curr blockOffset copied : Nat) :
    Returns (fun out => out.length = len - copied) (readChunks s capacity len fuel curr blockOffset copied) := by
  induction fuel generalizing curr blockOffset copied with
  | zero =>
      rw [readChunks]
      refine returns_ite (fun _ => returns_error _) fun done => returns_ok ?_
      rw [List.length_nil]
      omega
  | succ fuel ih =>
      rw [readChunks]
      refine returns_ite (fun more => ?_) fun done => returns_ok (by rw [List.length_nil]; omega)
      apply returns_bind
      intro b _
      refine returns_ite (fun _ => returns_error _) fun _ => ?_
      apply returns_bind
      intro rest copiedRest
      have length := ih _ _ _ rest copiedRest
      apply returns_ok
      rw [List.length_append, length, load, List.length_map, List.length_range]
      omega

theorem readChunks_reaches (capacity len fuel curr blockOffset copied : Nat) (room : len ≤ capacity)
    (enough : len - copied ≤ fuel) (low : copied ≤ len) (inBlock : blockOffset < payloadSize)
    (reaches : copied < len → BlocksFrom s (blocksFor (blockOffset + (len - copied))) curr) :
    ∃ out, readChunks s capacity len fuel curr blockOffset copied = .ok out ∧ out.map some =
      (List.range (len - copied)).map fun i => chainByte s curr (blockOffset + i) := by
  induction fuel generalizing curr blockOffset copied with
  | zero =>
      have done : len - copied = 0 := Nat.le_zero.mp enough
      exact ⟨[], by simp [readChunks, show ¬ copied < len by omega], by simp [done]⟩
  | succ fuel ih =>
      by_cases more : copied < len
      · obtain ⟨k, blocks⟩ : ∃ k, blocksFor (blockOffset + (len - copied)) = k + 1 := by
          refine ⟨blocksFor (blockOffset + (len - copied)) - 1, ?_⟩
          simp only [blocksFor, payloadSize] at *
          omega
        have chain := reaches more
        rw [blocks] at chain
        obtain ⟨nonnull, b, stored, later⟩ := chain
        obtain ⟨chunk, sized⟩ : ∃ c, c = min (len - copied) (payloadSize - blockOffset) := ⟨_, rfl⟩
        obtain ⟨rest, copiedRest, bytes⟩ := ih b.next 0 (copied + chunk) (by omega) (by omega) (by decide) (by
          intro _
          apply later.mono
          simp only [blocksFor, payloadSize] at *
          omega)
        refine ⟨load b.data blockOffset chunk ++ rest, ?_, ?_⟩
        · simp only [readChunks, if_pos more, stored, fetch_some, ok_bind, ← sized,
            if_neg (show ¬ copied + chunk > capacity by omega), copiedRest, pure_ok]
        · have split : len - copied = chunk + (len - (copied + chunk)) := by omega
          rw [split, List.range_add, List.map_append, List.map_append, bytes, List.map_map, load, List.map_map]
          congr 1
          · apply List.map_congr_left
            intro i member
            have below := List.mem_range.mp member
            exact (chainByte_first stored (by omega)).symm
          · apply List.map_congr_left
            intro i member
            have below := List.mem_range.mp member
            -- a chunk that leaves something to copy ends at the end of its block
            have edge : blockOffset + (chunk + i) = payloadSize + (0 + i) := by
              simp only [payloadSize] at *
              omega
            rw [Function.comp_apply, edge]
            exact (chainByte_next nonnull stored).symm
      · have done : len - copied = 0 := by omega
        exact ⟨[], by simp [readChunks, more], by simp [done]⟩

theorem fsRead_walked (sound : Sound s) {ino : Nat} {n : Inode} (isFile : IsFile s ino n)
    (offset len capacity curr : Nat)
    (walked : Linked.advance 0 Block.next s.blocks (intTrips (offset / payloadSize)) n.firstBlock =
      .ok (some curr)) (count : Nat)
    (clamped : count = if (offset + len) % 2 ^ 64 > n.inodeSize then n.inodeSize - offset else len) :
    fsRead s ino offset len (some capacity) =
      if offset ≥ n.inodeSize then .ok (0, [])
      else readChunks s capacity count count curr (offset % payloadSize) 0 >>= fun out =>
        .ok (toInt64 count, out) := by
  obtain ⟨p, found, stored⟩ := isFile.located
  have nonnull : p ≠ 0 := by
    rintro rfl
    rw [sound.null] at stored
    contradiction
  simp only [fsRead, found, ok_bind, if_neg nonnull, stored, fetch_some, isFile.file, ne_eq, not_true_eq_false,
    ↓reduceIte, walked, ← clamped, pure_ok]

/-- It returns something only after its block walk, and 0 or more only after a walk
that found all its blocks. -/
theorem fsRead_found (sound : Sound s) {ino : Nat} {n : Inode} (isFile : IsFile s ino n)
    (offset len capacity : Nat) (out : List UInt8) (count : Nat)
    (returned : fsRead s ino offset len (some capacity) = .ok ((count : Int), out)) :
    ∃ curr, Linked.advance 0 Block.next s.blocks (intTrips (offset / payloadSize)) n.firstBlock =
      .ok (some curr) := by
  obtain ⟨p, found, stored⟩ := isFile.located
  have nonnull : p ≠ 0 := by
    rintro rfl
    rw [sound.null] at stored
    contradiction
  simp only [fsRead, found, ok_bind, if_neg nonnull, stored, fetch_some, isFile.file, ne_eq, not_true_eq_false,
    ↓reduceIte] at returned
  obtain ⟨walked, known, rest⟩ := (bind_ok_iff _ _ _).mp returned
  cases walked with
  | none =>
      have value : (-1 : Int) = count := congrArg Prod.fst (Except.ok.inj rest)
      omega
  | some curr => exact ⟨curr, known⟩

theorem IsFile.fits (sound : Sound s) {ino : Nat} {n : Inode} (isFile : IsFile s ino n) : FileFits s n := by
  obtain ⟨p, _, stored⟩ := isFile.located
  exact sound.files p n stored (by rw [isFile.file]; decide)

theorem walk_inside (sound : Sound s) {ino : Nat} {n : Inode} (isFile : IsFile s ino n) (offset : Nat)
    (inside : offset < n.inodeSize) : intTrips (offset / payloadSize) = offset / payloadSize ∧
    ∃ curr, Linked.advance 0 Block.next s.blocks (offset / payloadSize) n.firstBlock = .ok (some curr) := by
  obtain ⟨room, small⟩ := isFile.fits sound
  have before : offset / payloadSize ≤ blocksFor n.inodeSize := by
    simp only [blocksFor, payloadSize]
    omega
  refine ⟨?_, (Linked.reaches_iff_advance _ _).mp (room.mono before)⟩
  rw [intTrips]
  simp only [payloadSize] at *
  omega

theorem reads_inside (sound : Sound s) {ino : Nat} {n : Inode} (isFile : IsFile s ino n)
    (offset len capacity : Nat) (room : min len n.inodeSize ≤ capacity) (inside : offset < n.inodeSize)
    (straight : offset + len < 2 ^ 64) : ReadsClamped s ino n offset len capacity := by
  obtain ⟨blocks, small⟩ := isFile.fits sound
  obtain ⟨trips, curr, walked⟩ := walk_inside sound isFile offset inside
  have clamp : (if (offset + len) % 2 ^ 64 > n.inodeSize then n.inodeSize - offset else len) =
      min len (n.inodeSize - offset) := by
    rw [Nat.mod_eq_of_lt straight]
    split <;> omega
  have start : payloadSize * (offset / payloadSize) + offset % payloadSize = offset :=
    Nat.div_add_mod offset payloadSize
  obtain ⟨count, clamped⟩ : ∃ count, count = min len (n.inodeSize - offset) := ⟨_, rfl⟩
  have behind : BlocksFrom s (blocksFor (offset % payloadSize + count)) curr := by
    apply reaches_behind _ walked
    apply blocks.mono
    simp only [blocksFor, payloadSize] at *
    omega
  obtain ⟨out, copied, bytes⟩ := readChunks_reaches capacity count count curr (offset % payloadSize) 0
    (by omega) (Nat.sub_le _ _) (Nat.zero_le _) (Nat.mod_lt _ (by decide)) fun _ => behind
  have length : out.length = count := by
    have same := congrArg List.length bytes
    rw [List.length_map, List.length_map, List.length_range] at same
    exact same
  have returned : toInt64 count = (count : Int) := by
    apply toInt64_small
    simp only [payloadSize] at small
    omega
  refine ⟨out, ?_, by rw [length, clamped], ?_⟩
  · rw [fsRead_walked sound isFile offset len capacity curr (by rw [trips]; exact walked) count
      (clamped.trans clamp.symm), if_neg (Nat.not_le.mpr inside), copied, ok_bind, returned, length]
  · rw [bytes, length, Nat.sub_zero]
    apply List.map_congr_left
    intro i _
    rw [← chainByte_behind (offset / payloadSize) n.firstBlock curr (offset % payloadSize + i) walked,
      ← Nat.add_assoc, start]

/-- A wrapped range is not clamped, so more bytes are asked for than the file has. -/
theorem wrapped_not_clamped (sound : Sound s) {ino : Nat} {n : Inode} (isFile : IsFile s ino n)
    (offset len capacity : Nat) (lenFits : len < 2 ^ 64) (inside : offset < n.inodeSize)
    (clamped : ReadsClamped s ino n offset len capacity) : offset + len < 2 ^ 64 := by
  by_contra wraps
  obtain ⟨_, small⟩ := isFile.fits sound
  obtain ⟨trips, curr, walked⟩ := walk_inside sound isFile offset inside
  simp only [payloadSize] at small
  obtain ⟨out, returned, length, _⟩ := clamped
  have whole : len = if (offset + len) % 2 ^ 64 > n.inodeSize then n.inodeSize - offset else len := by
    rw [if_neg]
    omega
  rw [fsRead_walked sound isFile offset len capacity curr (by rw [trips]; exact walked) len whole,
    if_neg (Nat.not_le.mpr inside)] at returned
  obtain ⟨out', copied, last⟩ := (bind_ok_iff _ _ _).mp returned
  obtain rfl : out' = out := (Prod.mk.inj (Except.ok.inj last)).2
  have asked := readChunks_length capacity len len curr (offset % payloadSize) 0 out' copied
  omega

/-- A read that starts at or behind the end finds the end exactly if the walk does
not run out of blocks first. -/
theorem reads_past_iff (sound : Sound s) {ino : Nat} {n : Inode} (isFile : IsFile s ino n)
    (offset len capacity : Nat) (past : n.inodeSize ≤ offset) :
    ReadsClamped s ino n offset len capacity ↔
      BlocksFrom s (intTrips (offset / payloadSize)) n.firstBlock := by
  constructor
  · rintro ⟨out, returned, _⟩
    exact (Linked.reaches_iff_advance _ _).mpr (fsRead_found sound isFile offset len capacity out _ returned)
  · intro reaches
    obtain ⟨curr, walked⟩ := (Linked.reaches_iff_advance _ _).mp reaches
    refine ⟨[], ?_, ?_, rfl⟩
    · rw [fsRead_walked sound isFile offset len capacity curr walked _ rfl]
      exact if_pos past
    · rw [Nat.sub_eq_zero_of_le past, Nat.min_zero]
      rfl

end Chains

variable [Backing σ]

/-- In every state a run reaches, in any memory: a read of a regular file is
clamped exactly if its range fits. -/
theorem reads_clamped_iff (back : σ) (raw : Nat → Region) (calls : List FsCall) (outs : List FsResult)
    (s : Fs σ) (reached : fsRun back raw calls = .ok (outs, s)) (ino : Nat) (n : Inode) (isFile : IsFile s ino n)
    (offset len capacity : Nat) (lenFits : len < 2 ^ 64) (room : min len n.inodeSize ≤ capacity) :
    ReadsClamped s ino n offset len capacity ↔ RangeFits s n offset len := by
  have sound := fsRun_sound back raw calls outs reached
  unfold RangeFits
  by_cases inside : offset < n.inodeSize
  · rw [if_pos inside]
    exact ⟨wrapped_not_clamped sound isFile offset len capacity lenFits inside,
      reads_inside sound isFile offset len capacity room inside⟩
  · rw [if_neg inside]
    exact reads_past_iff sound isFile offset len capacity (Nat.not_lt.mp inside)

def fiveBytes : FsCall := .write 2 0 5 (some [104, 101, 108, 108, 111])

theorem reads_clamped_iff_five : ∃ outs s n,
    fsRun Endless.mk (fun _ _ => 0) [makeFile, fiveBytes] = .ok (outs, s) ∧ IsFile s 2 n ∧ n.inodeSize = 5 ∧
    (ReadsClamped s 2 n 3 10 5 ↔ RangeFits s n 3 10) := by
  have seen : (fsRun Endless.mk (fun _ _ => 0) [makeFile, fiveBytes] >>= fun r =>
      findInode r.2 2 >>= fun p => fetch (r.2.inodes p) >>= fun n => .ok (n.inodeType, n.inodeSize)) =
      .ok (1, 5) := by decide +kernel
  obtain ⟨⟨outs, s⟩, reached, p, found, n, stored, same⟩ := by
    simpa only [bind_ok_iff] using seen
  obtain ⟨file, size⟩ : n.inodeType = 1 ∧ n.inodeSize = 5 := by
    simpa only [Prod.mk.injEq, Except.ok.injEq] using same
  have isFile : IsFile s 2 n := ⟨⟨p, found, (fetch_ok_iff _ _).mp stored⟩, file⟩
  exact ⟨outs, s, n, reached, isFile, size, reads_clamped_iff Endless.mk (fun _ _ => 0) [makeFile, fiveBytes] outs s
    reached 2 n isFile 3 10 5 (by decide) (by rw [size]; decide)⟩

/-- A read one block behind the end of an empty file returns -1, not 0. -/
theorem read_past_end_fails : ∃ outs s n,
    fsRun Endless.mk (fun _ _ => 0) [makeFile] = .ok (outs, s) ∧ IsFile s 2 n ∧
    fsRead s 2 4088 1 (some 1) = .ok (-1, []) ∧ ¬ ReadsClamped s 2 n 4088 1 1 := by
  have seen : (fsRun Endless.mk (fun _ _ => 0) [makeFile] >>= fun r =>
      findInode r.2 2 >>= fun p => fetch (r.2.inodes p) >>= fun n =>
      fsRead r.2 2 4088 1 (some 1) >>= fun out => .ok (n.inodeType, out)) = .ok (1, (-1, [])) := by decide +kernel
  obtain ⟨⟨outs, s⟩, reached, p, found, n, stored, out, read, same⟩ := by
    simpa only [bind_ok_iff] using seen
  obtain ⟨file, rfl⟩ : n.inodeType = 1 ∧ out = (-1, []) := by
    simpa only [Prod.mk.injEq, Except.ok.injEq] using same
  refine ⟨outs, s, n, reached, ⟨⟨p, found, (fetch_ok_iff _ _).mp stored⟩, file⟩, read, ?_⟩
  rintro ⟨bytes, returned, _⟩
  rw [read] at returned
  have value : (-1 : Int) = bytes.length := congrArg Prod.fst (Except.ok.inj returned)
  omega

end KehindeKernel
