import KehindeKernel.DirectoryRuns

/-!
Two runs of the same calls from memories with different contents. Everything but
payload bytes evolves alike: heap, numbers, listings, types and sizes. Payload
agrees where a call has written it, so the results agree as long as no call shows
a byte that nothing has written.
-/

namespace KehindeKernel

open Outcome Bytes DirectoryTree

/-- What of an object depends on no payload; blocks are counted for regular files. -/
structure Extent where
  inodeType : UInt8
  inodeSize : Nat
  blocks : Nat

def Node.extent (n : Node) : Extent where
  inodeType := n.inode.inodeType
  inodeSize := n.inode.inodeSize
  blocks := if n.inode.inodeType = 1 then n.chain.length else 0

def extents (nodes : List Node) (ino : Nat) : Option Extent := (findNode nodes ino).map Node.extent

/-- The byte `i` of file `ino` that a call has written. -/
def FsCall.Stores : FsCall → FsResult → Nat → Nat → Prop
  | .write ino offset len _, .code value, k, i => 0 ≤ value ∧ k = ino ∧ offset ≤ i ∧ i < offset + len
  | _, _, _, _ => False

variable {σ : Type}

/-- The call shows nothing but what calls have written: a read stays on written
bytes, and `fs_readdir`, whose entries end in bytes nothing ever writes, finds none. -/
def Hides (written : Nat → Nat → Prop) (s : Fs σ) : FsCall → Prop
  | .read ino offset len (some _) => ∀ p n, findInode s ino = .ok p → s.inodes p = some n →
      n.inodeType = 1 → ∀ i, offset ≤ i → i < offset + len → i < n.inodeSize → written ino i
  | .readdir dirIno index true => ∀ p n, findInode s dirIno = .ok p → s.inodes p = some n →
      n.inodeType = 2 → n.inodeSize ≤ index
  | _ => True

/-- The bytes on which two stores have to agree, and do. -/
structure FilesAgree (written : Nat → Nat → Prop) (nodes1 nodes2 : List Node) : Prop where
  covered : ∀ k i, written k i → ∃ e, extents nodes1 k = some e ∧ e.inodeType = 1 ∧ i < e.inodeSize
  bytes : ∀ k i n1 n2, written k i → findNode nodes1 k = some n1 → findNode nodes2 k = some n2 →
    n1.byte i = n2.byte i

/-- Two stores that differ in unwritten payload at most. -/
structure Twin (raw1 raw2 : Nat → Region) (written : Nat → Nat → Prop) (s1 : Fs σ) (nodes1 : List Node)
    (s2 : Fs σ) (nodes2 : List Node) : Prop where
  left : FsOk raw1 s1 nodes1
  right : FsOk raw2 s2 nodes2
  heap : s1.heap = s2.heap
  next : s1.nextIno = s2.nextIno
  dirs : dirsOf nodes1 = dirsOf nodes2
  extents : extents nodes1 = extents nodes2
  files : FilesAgree written nodes1 nodes2

theorem extents_cons (s : Fs σ) (inodeType : UInt8) (nodes : List Node) :
    extents (newNode s inodeType :: nodes) =
      Function.update (extents nodes) s.nextIno (some ⟨inodeType, 0, 0⟩) := by
  funext k
  rw [extents, findNode, List.find?_cons]
  by_cases new : s.nextIno = k
  · subst new
    simp [newNode, Node.extent]
  · have old : ((newNode s inodeType).inode.ino == k) = false := beq_false_of_ne new
    rw [old, Function.update_of_ne (Ne.symm new)]
    rfl

theorem extents_replace {nodes : List Node} {p : Nat} {n n' : Node} (found : findNode nodes p = some n)
    (number : n'.inode.ino = p) :
    extents (replaceNode nodes p n') = Function.update (extents nodes) p (some n'.extent) := by
  funext k
  rw [extents, findNode_replace nodes p n' number]
  by_cases hit : k = p
  · subst hit
    rw [if_pos rfl, found, Function.update_self]
    rfl
  · rw [if_neg hit, Function.update_of_ne hit, extents]

/-- The byte a write puts at `i`. -/
def FsCall.stored : FsCall → Nat → UInt8
  | .write _ offset _ (some src), i => src.getD (i - offset) 0
  | _, _ => 0

/-- The extent after `fs_write` returned `value`. A write whose range wraps fails, and
still the chain reaches the wrapped end. -/
def Extent.write (e : Extent) (offset len : Nat) (value : Int) : Extent :=
  if e.inodeType = 1 then { e with
    inodeSize := if value < 0 then e.inodeSize else max e.inodeSize (offset + len)
    blocks := max e.blocks (blocksFor ((offset + len) % 2 ^ 64)) }
  else e

/-- The extents after a call that returned `out`. -/
def FsCall.resize (nextIno : Nat) (x : Nat → Option Extent) : FsCall → FsResult → Nat → Option Extent
  | .init, _ => Function.update x nextIno (some ⟨2, 0, 0⟩)
  | .create parentIno _ inodeType, .ino number =>
      if number = invalidIno then x
      else Function.update (Function.update x parentIno
        ((x parentIno).map fun e => { e with inodeSize := e.inodeSize + 1 })) nextIno (some ⟨inodeType, 0, 0⟩)
  | .unlink parentIno _, .code value =>
      if value < 0 then x
      else Function.update x parentIno
        ((x parentIno).map fun e => { e with inodeSize := e.inodeSize - 1 })
  | .write ino offset len (some _), .code value =>
      Function.update x ino ((x ino).map fun e => e.write offset len value)
  | _, _ => x

section One

variable {raw : Nat → Region} {s : Fs σ} {nodes nodes' : List Node}

theorem effect_extents (ok : FsOk raw s nodes) (call : FsCall) (out : FsResult)
    (effect : Effect raw s nodes call out nodes') :
    extents nodes' = call.resize s.nextIno (extents nodes) out := by
  have dirExtent : ∀ n n' : Node, n.inode.inodeType = 2 → n'.inode.inodeType = n.inode.inodeType →
      ∀ size, n'.inode.inodeSize = size → n'.extent = { n.extent with inodeSize := size } := by
    intro n n' dir type size sized
    simp [Node.extent, type, dir, sized]
  cases effect with
  | init => exact extents_cons s 2 nodes
  | created parentIno name line inodeType n n' ends found creates added =>
      obtain ⟨ino, type, size⟩ := added.inode
      have positive : s.nextIno ≠ invalidIno := by
        rw [ok.shape.counted]
        exact Nat.succ_ne_zero _
      rw [FsCall.resize, if_neg positive, extents_cons,
        extents_replace found (ino.trans (findNode_some found).2), dirExtent n n' creates.1 type _ size,
        extents, found]
      rfl
  | notCreated => rfl
  | unlinked parentIno name line n n' ends found removes removed =>
      obtain ⟨ino, type, size⟩ := removed.inode
      rw [FsCall.resize, if_neg (by decide), extents_replace found (ino.trans (findNode_some found).2),
        dirExtent n n' removes.1 type _ size, extents, found]
      rfl
  | notUnlinked => rfl
  | written ino offset len src n n' found file room small wrote =>
      obtain ⟨number, type, size⟩ := wrote.inode
      have blocks := wrote.blocks
      rw [List.length_take_of_le room] at size blocks
      have grown : n'.extent = n.extent.write offset len len := by
        have positive : ¬ (len : Int) < 0 := by omega
        simp only [Node.extent, Extent.write, type, file, size, blocks, ↓reduceIte, positive,
          Nat.mod_eq_of_lt small]
      rw [FsCall.resize, extents_replace found (number.trans (findNode_some found).2), grown, extents, found]
      rfl
  | wrapped ino offset len src n n' found file wraps longer reached =>
      obtain ⟨number, type, size⟩ := longer.inode
      have grown : n'.extent = n.extent.write offset len (-1) := by
        simp [Node.extent, Extent.write, type, file, size, reached]
      rw [FsCall.resize, extents_replace found (number.trans (findNode_some found).2), grown, extents, found]
      rfl
  | notWritten ino offset len buf refused =>
      cases buf with
      | none => rfl
      | some src =>
          have same : (extents nodes ino).map (fun e => e.write offset len (-1)) = extents nodes ino := by
            rw [extents]
            cases found : findNode nodes ino with
            | none => rfl
            | some n =>
                have other : ¬ n.extent.inodeType = 1 :=
                  (refused.resolve_left (Option.some_ne_none src)) n found
                rw [Option.map_some, Option.map_some, Extent.write, if_neg other]
          rw [FsCall.resize, same, Function.update_eq_self]
  | _ => rfl

/-- A regular file keeps the bytes a call does not write and has those it writes. -/
structure FileAfter (call : FsCall) (out : FsResult) (k : Nat) (n n' : Node) : Prop where
  file : n'.inode.inodeType = 1
  size : n.inode.inodeSize ≤ n'.inode.inodeSize
  stored : ∀ i, call.Stores out k i → i < n'.inode.inodeSize ∧ n'.byte i = call.stored i
  kept : ∀ i, ¬ call.Stores out k i → i < n.inode.inodeSize → n'.byte i = n.byte i

/-- A number keeps its node where another one gets a new node. -/
theorem findNode_beside {k p : Nat} {n m m' : Node} (found : findNode nodes k = some n)
    (foundM : findNode nodes p = some m) (number : m'.inode.ino = m.inode.ino) (apart : k ≠ p) :
    findNode (replaceNode nodes p m') k = some n := by
  rw [findNode_replace nodes p m' (number.trans (findNode_some foundM).2), if_neg apart]
  exact found

/-- Below the size of a file lie bytes it had; those of new blocks come behind its chain. -/
theorem Wrote.file_after {offset len : Nat} {src : List UInt8} {n n' : Node} (room : len ≤ src.length)
    (wrote : Wrote raw n n' offset (src.take len)) (file : n.inode.inodeType = 1)
    (fits : n.inode.inodeSize ≤ payloadSize * n.chain.length) (k : Nat) :
    FileAfter (.write k offset len (some src)) (.code len) k n n' := by
  have size := wrote.inode.2.2
  have length := List.length_take_of_le room
  rw [length] at size
  refine ⟨wrote.inode.2.1.trans file, by omega, ?_, ?_⟩
  · rintro i ⟨_, _, low, high⟩
    have byte := wrote.inside (i - offset) (by omega)
    rw [Nat.add_sub_cancel' low] at byte
    refine ⟨by omega, byte.trans ?_⟩
    simp only [FsCall.stored, List.getD_eq_getElem?_getD]
    rw [List.getElem?_take_of_lt (by omega)]
  · intro i stores below
    have outside : i < offset ∨ offset + (src.take len).length ≤ i := by
      rw [length]
      by_contra between
      exact stores ⟨by omega, rfl, by omega, by omega⟩
    rcases wrote.outside i outside with kept | ⟨past, _⟩
    · exact kept
    · omega

theorem Longer.file_after {n n' : Node} (longer : Longer raw n n') (file : n.inode.inodeType = 1)
    (fits : n.inode.inodeSize ≤ payloadSize * n.chain.length) {call : FsCall} {out : FsResult} {k : Nat}
    (quiet : ∀ i, ¬ call.Stores out k i) : FileAfter call out k n n' := by
  obtain ⟨_, type, size⟩ := longer.inode
  refine ⟨type.trans file, size.ge, fun i stores => absurd stores (quiet i), fun i _ below => ?_⟩
  rcases longer.byte i with kept | ⟨past, _⟩
  · exact kept
  · omega

theorem effect_file (ok : FsOk raw s nodes) (call : FsCall) (out : FsResult)
    (effect : Effect raw s nodes call out nodes') (k : Nat) (n : Node) (found : findNode nodes k = some n)
    (file : n.inode.inodeType = 1) :
    ∃ n', findNode nodes' k = some n' ∧ FileAfter call out k n n' := by
  have old : s.nextIno ≠ k := by
    have below := (ok.shape.numbered n (findNode_some found).1).2
    rw [(findNode_some found).2] at below
    exact Nat.ne_of_gt below
  have same : ∀ call' out', (∀ i, ¬ FsCall.Stores call' out' k i) → FileAfter call' out' k n n :=
    fun _ _ quiet => ⟨file, Nat.le_refl _, fun i stores => absurd stores (quiet i), fun _ _ _ => rfl⟩
  -- create and unlink replace a directory, never the file
  have apart : ∀ p m, findNode nodes p = some m → m.inode.inodeType = 2 → k ≠ p := by
    rintro p m foundM dir rfl
    rw [found, Option.some.injEq] at foundM
    rw [← foundM, file] at dir
    contradiction
  have fits := ok.tree.bytes n (findNode_some found).1 (by rw [file]; decide)
  cases effect with
  | init => exact ⟨n, (findNode_cons (by exact old)).trans found, same _ _ fun _ => id⟩
  | created parentIno name line inodeType m m' ends foundM creates added =>
      refine ⟨n, ?_, same _ _ fun _ => id⟩
      rw [findNode_cons (by exact old)]
      exact findNode_beside found foundM added.inode.1 (apart parentIno m foundM creates.1)
  | unlinked parentIno name line m m' ends foundM removes removed =>
      exact ⟨n, findNode_beside found foundM removed.inode.1 (apart parentIno m foundM removes.1),
        same _ _ fun _ => id⟩
  | wrapped ino offset len src m m' foundM fileM wraps longer =>
      have quiet : ∀ i, ¬ (FsCall.write ino offset len (some src)).Stores (.code (-1)) k i :=
        fun i stores => absurd stores.1 (by decide)
      by_cases here : k = ino
      · subst here
        obtain rfl : n = m := Option.some.inj (found.symm.trans foundM)
        have number := longer.inode.1.trans (findNode_some found).2
        exact ⟨m', findNode_replaced found number, longer.file_after file fits quiet⟩
      · exact ⟨n, findNode_beside found foundM longer.inode.1 here, same _ _ quiet⟩
  | written ino offset len src m m' foundM fileM room small wrote =>
      by_cases here : k = ino
      · subst here
        obtain rfl : n = m := Option.some.inj (found.symm.trans foundM)
        have number := wrote.inode.1.trans (findNode_some found).2
        exact ⟨m', findNode_replaced found number, wrote.file_after room file fits k⟩
      · exact ⟨n, findNode_beside found foundM wrote.inode.1 here, same _ _ fun i stores => here stores.2.1⟩
  | notWritten => exact ⟨n, found, same _ _ fun _ stores => absurd stores.1 (by decide)⟩
  | _ => exact ⟨n, found, same _ _ fun _ => id⟩

theorem effect_stores (call : FsCall) (out : FsResult) (effect : Effect raw s nodes call out nodes')
    (k i : Nat) (stores : call.Stores out k i) : ∃ n, findNode nodes k = some n ∧ n.inode.inodeType = 1 := by
  cases effect with
  | written ino offset len src n n' found file room small wrote =>
      obtain ⟨_, rfl, _⟩ := stores
      exact ⟨n, found, file⟩
  | wrapped => exact absurd stores.1 (by decide)
  | notWritten => exact absurd stores.1 (by decide)
  | _ => exact stores.elim

/-- A write of a range that does not wrap, to a regular file. -/
def StoresRange (nodes : List Node) (ino offset len : Nat) (buf : Option (List UInt8)) : Prop :=
  buf ≠ none ∧ offset + len < 2 ^ 64 ∧ ∃ n, findNode nodes ino = some n ∧ n.inode.inodeType = 1

theorem effect_write {ino offset len : Nat} {buf : Option (List UInt8)} {out : FsResult}
    (effect : Effect raw s nodes (.write ino offset len buf) out nodes') :
    (StoresRange nodes ino offset len buf ∧ out = .code len) ∨
    (¬ StoresRange nodes ino offset len buf ∧ out = .code (-1)) := by
  cases effect with
  | written _ _ _ src n n' found file room small =>
      exact Or.inl ⟨⟨Option.some_ne_none src, small, n, found, file⟩, rfl⟩
  | wrapped _ _ _ src n n' found file wraps =>
      exact Or.inr ⟨fun stores => absurd stores.2.1 (Nat.not_lt.mpr wraps), rfl⟩
  | notWritten _ _ _ _ refused =>
      refine Or.inr ⟨?_, rfl⟩
      rintro ⟨some_, _, n, found, file⟩
      rcases refused with none_ | other
      · exact some_ none_
      · exact other n found file

end One

section Pair

variable {raw1 raw2 : Nat → Region} {written : Nat → Nat → Prop} {s1 s2 s1' s2' : Fs σ}
  {nodes1 nodes2 nodes1' nodes2' : List Node}

/-- Two nodes with the same extent and, as directories, the same listing. -/
structure Node.Alike (n1 n2 : Node) : Prop where
  type : n1.inode.inodeType = n2.inode.inodeType
  size : n1.inode.inodeSize = n2.inode.inodeSize
  blocks : n1.inode.inodeType = 1 → n1.chain.length = n2.chain.length
  entries : n1.inode.inodeType = 2 → n1.entries = n2.entries

/-- A number names no node in both stores, or alike nodes. -/
theorem Twin.pair (twin : Twin raw1 raw2 written s1 nodes1 s2 nodes2) (k : Nat) :
    (findNode nodes1 k = none ∧ findNode nodes2 k = none) ∨
    ∃ n1 n2, findNode nodes1 k = some n1 ∧ findNode nodes2 k = some n2 ∧ n1.Alike n2 := by
  have same := congrFun twin.extents k
  have listed := congrFun twin.dirs k
  rw [KehindeKernel.extents, KehindeKernel.extents] at same
  cases found1 : findNode nodes1 k with
  | none =>
      rw [found1, Option.map_none] at same
      exact Or.inl ⟨rfl, Option.map_eq_none_iff.mp same.symm⟩
  | some n1 =>
      rw [found1, Option.map_some] at same
      obtain ⟨n2, found2, extent⟩ := Option.map_eq_some_iff.mp same.symm
      have type : n2.inode.inodeType = n1.inode.inodeType := congrArg Extent.inodeType extent
      have blocks : (if n2.inode.inodeType = 1 then n2.chain.length else 0) =
          if n1.inode.inodeType = 1 then n1.chain.length else 0 := congrArg Extent.blocks extent
      refine Or.inr ⟨n1, n2, rfl, found2, type.symm, (congrArg Extent.inodeSize extent).symm, ?_, ?_⟩
      · intro file
        rw [type, if_pos file, if_pos file] at blocks
        exact blocks.symm
      · intro dir
        rw [dirsOf_dir found1 dir, dirsOf_dir found2 (type.trans dir)] at listed
        exact Option.some.inj listed

theorem Node.Alike.creates {n1 n2 : Node} (alike : n1.Alike n2) (line : List UInt8) :
    CreatesIn n1 line ↔ CreatesIn n2 line := by
  unfold CreatesIn
  rw [← alike.type]
  by_cases dir : n1.inode.inodeType = 2
  · rw [alike.entries dir]
  · simp only [dir, false_and]

theorem Twin.requests (twin : Twin raw1 raw2 written s1 nodes1 s2 nodes2) (call : FsCall) :
    call.requests nodes1 = call.requests nodes2 := by
  cases call with
  | create parentIno name inodeType =>
      rw [FsCall.requests, FsCall.requests]
      rcases twin.pair parentIno with ⟨none1, none2⟩ | ⟨n1, n2, found1, found2, alike⟩
      · rw [none1, none2]
      · simp only [found1, found2, alike.creates, alike.size]
  | write ino offset len buf =>
      cases buf with
      | none => rfl
      | some src =>
          rw [FsCall.requests, FsCall.requests]
          rcases twin.pair ino with ⟨none1, none2⟩ | ⟨n1, n2, found1, found2, alike⟩
          · rw [none1, none2]
          · simp only [found1, found2, ← alike.type]
            by_cases file : n1.inode.inodeType = 1
            · rw [if_pos file, if_pos file, alike.blocks file]
            · rw [if_neg file, if_neg file]
  | _ => rfl

theorem Twin.lookup (twin : Twin raw1 raw2 written s1 nodes1 s2 nodes2) (line : List UInt8) :
    lookupResult nodes1 line = lookupResult nodes2 line := by
  rw [lookupResult, lookupResult, twin.dirs]

theorem Twin.stores (twin : Twin raw1 raw2 written s1 nodes1 s2 nodes2) (ino offset len : Nat)
    (buf : Option (List UInt8)) : StoresRange nodes1 ino offset len buf ↔ StoresRange nodes2 ino offset len buf := by
  have files : (∃ n, findNode nodes1 ino = some n ∧ n.inode.inodeType = 1) ↔
      ∃ n, findNode nodes2 ino = some n ∧ n.inode.inodeType = 1 := by
    rcases twin.pair ino with ⟨none1, none2⟩ | ⟨n1, n2, found1, found2, alike⟩
    · rw [none1, none2]
    · simp only [found1, found2, Option.some.injEq, exists_eq_left', alike.type]
  rw [StoresRange, StoresRange, files]

theorem Twin.read (twin : Twin raw1 raw2 written s1 nodes1 s2 nodes2) (ino offset len capacity : Nat)
    (hides : Hides written s1 (.read ino offset len (some capacity))) :
    readResult (findNode nodes1 ino) offset len = readResult (findNode nodes2 ino) offset len := by
  rcases twin.pair ino with ⟨none1, none2⟩ | ⟨n1, n2, found1, found2, alike⟩
  · rw [none1, none2]
  · rw [found1, found2, readResult, readResult, ← alike.type, ← alike.size]
    by_cases file : n1.inode.inodeType = 1
    · obtain ⟨pointer, _, stored⟩ := findInode_hit twin.left.shape found1
      have shown := hides _ _ pointer stored file
      have bytes : ((List.range (min len (n1.inode.inodeSize - offset))).map fun i => n1.byte (offset + i)) =
          (List.range (min len (n1.inode.inodeSize - offset))).map fun i => n2.byte (offset + i) := by
        apply List.map_congr_left
        intro i member
        have below := List.mem_range.mp member
        exact twin.files.bytes ino (offset + i) n1 n2
          (shown (offset + i) (Nat.le_add_right offset i) (by omega) (by omega)) found1 found2
      rw [bytes, alike.blocks file]
    · rw [if_pos file, if_pos file]

theorem Twin.readdir (twin : Twin raw1 raw2 written s1 nodes1 s2 nodes2) (dirIno index : Nat) (out : Bool)
    (hides : Hides written s1 (.readdir dirIno index out)) :
    readdirResult (findNode nodes1 dirIno) index out = readdirResult (findNode nodes2 dirIno) index out := by
  rcases twin.pair dirIno with ⟨none1, none2⟩ | ⟨n1, n2, found1, found2, alike⟩
  · rw [none1, none2]
  · rw [found1, found2, readdirResult, readdirResult, ← alike.type, ← alike.size]
    by_cases refused : n1.inode.inodeType ≠ 2 ∨ out = false
    · rw [if_pos refused, if_pos refused]
    · obtain ⟨dir, wanted⟩ := not_or.mp refused
      obtain rfl : out = true := by simpa using wanted
      obtain ⟨pointer, _, stored⟩ := findInode_hit twin.left.shape found1
      have past : ¬ index < n1.inode.inodeSize :=
        Nat.not_lt.mpr (hides _ _ pointer stored (not_not.mp dir))
      rw [if_neg refused, if_neg past, if_neg refused, if_neg past]

theorem Twin.stat (twin : Twin raw1 raw2 written s1 nodes1 s2 nodes2) (ino : Nat) (sizeOut typeOut : Bool) :
    statResult (findNode nodes1 ino) sizeOut typeOut = statResult (findNode nodes2 ino) sizeOut typeOut := by
  rcases twin.pair ino with ⟨none1, none2⟩ | ⟨n1, n2, found1, found2, alike⟩
  · rw [none1, none2]
  · rw [found1, found2, statResult, statResult, alike.type, alike.size]

theorem answers_ino {out : FsResult} {number : Nat} (answers : Answers out (.ino number)) :
    out = .ino number := by
  cases out with
  | ino k => exact congrArg FsResult.ino answers
  | _ => exact answers.elim

theorem answers_code {out : FsResult} {value : Int} (answers : Answers out (.code value)) :
    out = .code value := by
  cases out with
  | code k => exact congrArg FsResult.code answers
  | _ => exact answers.elim

theorem Twin.result (twin : Twin raw1 raw2 written s1 nodes1 s2 nodes2) (call : FsCall)
    (out1 out2 : FsResult) (effect1 : Effect raw1 s1 nodes1 call out1 nodes1')
    (effect2 : Effect raw2 s2 nodes2 call out2 nodes2') (kept1 : FsOk raw1 s1' nodes1')
    (kept2 : FsOk raw2 s2' nodes2') (hides : Hides written s1 call) : out1 = out2 := by
  obtain ⟨answers1, _⟩ := effect_catalog twin.left kept1 call out1 effect1
  obtain ⟨answers2, _⟩ := effect_catalog twin.right kept2 call out2 effect2
  -- calls on names answer from the catalog, which the two sides share
  have catalog : catalogOf nodes1 s1.nextIno = catalogOf nodes2 s2.nextIno := by
    rw [catalogOf, catalogOf, twin.dirs, twin.next]
  rw [← catalog] at answers2
  cases call with
  | init =>
      cases effect1
      cases effect2
      rfl
  | lookup path =>
      cases effect1 with
      | lookup _ line ends =>
          cases effect2 with
          | lookup _ line2 ends2 =>
              obtain rfl : line = line2 := ends.text_eq.symm.trans ends2.text_eq
              rw [twin.lookup line]
  | create => exact (answers_ino answers1).trans (answers_ino answers2).symm
  | unlink => exact (answers_code answers1).trans (answers_code answers2).symm
  | write ino offset len buf =>
      -- both sides have the file or neither
      have same := twin.stores ino offset len buf
      rcases effect_write effect1 with ⟨stores1, rfl⟩ | ⟨refused1, rfl⟩
      · rcases effect_write effect2 with ⟨_, rfl⟩ | ⟨refused2, _⟩
        · rfl
        · exact absurd (same.mp stores1) refused2
      · rcases effect_write effect2 with ⟨stores2, _⟩ | ⟨_, rfl⟩
        · exact absurd (same.mpr stores2) refused1
        · rfl
  | read ino offset len buf =>
      cases effect1 with
      | read _ _ _ capacity =>
          cases effect2 with
          | read => rw [twin.read ino offset len capacity hides]
      | notRead =>
          cases effect2 with
          | notRead => rfl
  | readdir dirIno index out =>
      cases effect1
      cases effect2
      rw [twin.readdir dirIno index out hides]
  | stat ino sizeOut typeOut =>
      cases effect1
      cases effect2
      exact twin.stat ino sizeOut typeOut

theorem Twin.files_after (twin : Twin raw1 raw2 written s1 nodes1 s2 nodes2) (call : FsCall)
    (out : FsResult) (effect1 : Effect raw1 s1 nodes1 call out nodes1')
    (effect2 : Effect raw2 s2 nodes2 call out nodes2') :
    FilesAgree (fun k i => written k i ∨ call.Stores out k i) nodes1' nodes2' := by
  -- a byte that has to agree lies in a regular file of both stores
  have files : ∀ k i, written k i ∨ call.Stores out k i → ∃ n1 n2, findNode nodes1 k = some n1 ∧
      findNode nodes2 k = some n2 ∧ n1.Alike n2 ∧ n1.inode.inodeType = 1 ∧
      (¬ call.Stores out k i → i < n1.inode.inodeSize ∧ n1.byte i = n2.byte i) := by
    intro k i agreed
    rcases twin.pair k with ⟨none1, _⟩ | ⟨n1, n2, found1, found2, alike⟩
    · rcases agreed with old | new
      · obtain ⟨e, extent, _⟩ := twin.files.covered k i old
        rw [KehindeKernel.extents, none1] at extent
        contradiction
      · obtain ⟨n, found, _⟩ := effect_stores call out effect1 k i new
        rw [none1] at found
        contradiction
    · refine ⟨n1, n2, found1, found2, alike, ?_, ?_⟩
      · rcases agreed with old | new
        · obtain ⟨e, extent, file, _⟩ := twin.files.covered k i old
          rw [KehindeKernel.extents, found1] at extent
          obtain rfl : n1.extent = e := Option.some.inj extent
          exact file
        · obtain ⟨n, found, file⟩ := effect_stores call out effect1 k i new
          exact Option.some.inj (found1.symm.trans found) ▸ file
      · intro quiet
        have old := agreed.resolve_right quiet
        obtain ⟨e, extent, _, below⟩ := twin.files.covered k i old
        rw [KehindeKernel.extents, found1] at extent
        obtain rfl : n1.extent = e := Option.some.inj extent
        exact ⟨below, twin.files.bytes k i n1 n2 old found1 found2⟩
  constructor
  · intro k i agreed
    obtain ⟨n1, n2, found1, _, _, file, old⟩ := files k i agreed
    obtain ⟨n1', found1', after⟩ := effect_file twin.left call out effect1 k n1 found1 file
    refine ⟨n1'.extent, by rw [KehindeKernel.extents, found1']; rfl, after.file, ?_⟩
    by_cases stores : call.Stores out k i
    · exact (after.stored i stores).1
    · exact Nat.lt_of_lt_of_le (old stores).1 after.size
  · intro k i m1 m2 agreed foundM1 foundM2
    obtain ⟨n1, n2, found1, found2, alike, file, old⟩ := files k i agreed
    obtain ⟨n1', found1', after1⟩ := effect_file twin.left call out effect1 k n1 found1 file
    obtain ⟨n2', found2', after2⟩ := effect_file twin.right call out effect2 k n2 found2
      (alike.type.symm.trans file)
    obtain rfl : n1' = m1 := Option.some.inj (found1'.symm.trans foundM1)
    obtain rfl : n2' = m2 := Option.some.inj (found2'.symm.trans foundM2)
    by_cases stores : call.Stores out k i
    · exact (after1.stored i stores).2.trans (after2.stored i stores).2.symm
    · obtain ⟨below, same⟩ := old stores
      rw [after1.kept i stores below, same, after2.kept i stores (alike.size ▸ below)]

theorem Twin.effect (twin : Twin raw1 raw2 written s1 nodes1 s2 nodes2) (call : FsCall)
    (out1 out2 : FsResult) (effect1 : Effect raw1 s1 nodes1 call out1 nodes1')
    (effect2 : Effect raw2 s2 nodes2 call out2 nodes2') (kept1 : FsOk raw1 s1' nodes1')
    (kept2 : FsOk raw2 s2' nodes2') (heap : s1'.heap = s2'.heap) (hides : Hides written s1 call) :
    out1 = out2 ∧
      Twin raw1 raw2 (fun k i => written k i ∨ call.Stores out1 k i) s1' nodes1' s2' nodes2' := by
  have same := twin.result call out1 out2 effect1 effect2 kept1 kept2 hides
  subst same
  obtain ⟨_, catalog1⟩ := effect_catalog twin.left kept1 call out1 effect1
  obtain ⟨_, catalog2⟩ := effect_catalog twin.right kept2 call out1 effect2
  have catalog : catalogOf nodes1' s1'.nextIno = catalogOf nodes2' s2'.nextIno := by
    rw [catalog1, catalog2, catalogOf, catalogOf, twin.dirs, twin.next]
  refine ⟨rfl, kept1, kept2, heap, congrArg Catalog.nextIno catalog, congrArg Catalog.dirs catalog, ?_,
    twin.files_after call out1 effect1 effect2⟩
  rw [effect_extents twin.left call out1 effect1, effect_extents twin.right call out1 effect2, twin.extents,
    twin.next]

end Pair

variable [Backing σ]

/-- No call of the run shows a byte that no call before it has written. -/
def HidesFrom : (Nat → Nat → Prop) → Fs σ → List FsCall → Prop
  | _, _, [] => True
  | written, s, call :: rest => Hides written s call ∧ ∀ out next, fsStep s call = .ok (out, next) →
      HidesFrom (fun k i => written k i ∨ call.Stores out k i) next rest

def HidesRun (back : σ) (raw : Nat → Region) (calls : List FsCall) : Prop :=
  ∀ s, fsBoot back raw = .ok s → HidesFrom (fun _ _ => False) s calls

section Runs

variable {raw1 raw2 : Nat → Region} {written : Nat → Nat → Prop} {s1 s2 : Fs σ} {nodes1 nodes2 : List Node}

theorem Twin.step (twin : Twin raw1 raw2 written s1 nodes1 s2 nodes2) (call : FsCall) (wf : call.WellFormed)
    (links1 : NullLinks s1 call) (links2 : NullLinks s2 call) (hides : Hides written s1 call) :
    (∃ stop, fsStep s1 call = .error stop ∧ fsStep s2 call = .error stop) ∨
    ∃ out t1 t2 nodes1' nodes2', fsStep s1 call = .ok (out, t1) ∧ fsStep s2 call = .ok (out, t2) ∧
      Twin raw1 raw2 (fun k i => written k i ∨ call.Stores out k i) t1 nodes1' t2 nodes2' := by
  have follows1 := fsStep_follows twin.left call wf links1
  have follows2 := fsStep_follows twin.right call wf links2
  rw [← twin.heap, ← twin.requests call] at follows2
  rcases follows1.both follows2 with
    stopped | ⟨heap, ⟨out1, t1⟩, ⟨out2, t2⟩, done1, done2, ⟨heap1, nodes1', effect1, kept1⟩,
      ⟨heap2, nodes2', effect2, kept2⟩⟩
  · exact Or.inl stopped
  · obtain ⟨same, after⟩ := twin.effect call out1 out2 effect1 effect2 kept1 kept2
      (heap1.trans heap2.symm) hides
    subst same
    exact Or.inr ⟨out1, t1, t2, nodes1', nodes2', done1, done2, after⟩

theorem Twin.runs (twin : Twin raw1 raw2 written s1 nodes1 s2 nodes2) (calls : List FsCall)
    (wf : ∀ call ∈ calls, call.WellFormed) (links1 : Replay.Along fsStep NullLinks s1 calls)
    (links2 : Replay.Along fsStep NullLinks s2 calls) (hides : HidesFrom written s1 calls) :
    (Replay.attempt fsStep s1 calls).map Prod.fst = (Replay.attempt fsStep s2 calls).map Prod.fst := by
  induction calls generalizing written s1 s2 nodes1 nodes2 with
  | nil => rfl
  | cons call rest ih =>
      rw [Replay.attempt, Replay.attempt]
      rcases twin.step call (wf call List.mem_cons_self) links1.1 links2.1 hides.1 with
        ⟨stop, stop1, stop2⟩ | ⟨out, t1, t2, nodes1', nodes2', done1, done2, after⟩
      · rw [stop1, stop2]
      · have later := ih after (fun c member => wf c (List.mem_cons_of_mem call member))
          (links1.2 out t1 done1) (links2.2 out t2 done2) (hides.2 out t1 done1)
        rw [done1, done2, ok_bind, ok_bind]
        cases result1 : Replay.attempt fsStep t1 rest with
        | error stop =>
            cases result2 : Replay.attempt fsStep t2 rest with
            | error stop' =>
                rw [result1, result2] at later
                exact later
            | ok tail =>
                rw [result1, result2] at later
                contradiction
        | ok tail1 =>
            cases result2 : Replay.attempt fsStep t2 rest with
            | error stop =>
                rw [result1, result2] at later
                contradiction
            | ok tail2 =>
                rw [result1, result2] at later
                have same : tail1.1 = tail2.1 := Except.ok.inj later
                exact congrArg (fun outs => Except.ok (out :: outs)) same

end Runs

/-- Two runs of the same calls return the same results as long as appended blocks
have null links and no call shows a byte that nothing has written. -/
theorem runs_agree_unless_shown (back : σ) (raw1 raw2 : Nat → Region) (calls : List FsCall)
    (wf : ∀ call ∈ calls, call.WellFormed) (links1 : NullLinksRun back raw1 calls)
    (links2 : NullLinksRun back raw2 calls) (hides : HidesRun back raw1 calls) :
    (fsRun back raw1 calls).map Prod.fst = (fsRun back raw2 calls).map Prod.fst := by
  unfold fsRun
  rcases (fsBoot_follows back raw1).both (fsBoot_follows back raw2) with
    ⟨stop, stop1, stop2⟩ | ⟨heap, s1, s2, done1, done2, ⟨heap1, mounted1⟩, ⟨heap2, mounted2⟩⟩
  · rw [stop1, stop2]
  · rw [done1, done2, ok_bind, ok_bind]
    have next : s1.nextIno = s2.nextIno := by
      rw [mounted1.ok.shape.counted, mounted2.ok.shape.counted]
      rfl
    have twin : Twin raw1 raw2 (fun _ _ => False) s1 [newNode (fsEmpty (kheapInit back) raw1) 2]
        s2 [newNode (fsEmpty (kheapInit back) raw2) 2] :=
      ⟨mounted1.ok, mounted2.ok, heap1.trans heap2.symm, next, rfl, rfl, fun _ _ no => no.elim,
        fun _ _ _ _ no => no.elim⟩
    exact twin.runs calls wf (links1 s1 done1) (links2 s2 done2) (hides s1 done1)

/-- Left-over bytes with null links. -/
def staleMemory : Nat → Region := fun _ i => if i < 8 then 0 else 255

theorem staleMemory_null (a : Nat) : decode 8 (staleMemory a) = 0 := by
  have same : staleMemory a = fun i => if i < 8 then 0 else 255 := rfl
  rw [same]
  decide

def storeCalls : List FsCall := [.create 1 nameA 1, .write 2 0 2 (some [7, 8])]

theorem storeCalls_wellFormed : ∀ call ∈ storeCalls, call.WellFormed := by
  simp only [storeCalls, List.forall_mem_cons, List.not_mem_nil, false_imp_iff, implies_true, and_true]
  exact ⟨⟨[97], nameA_ends⟩, wellFormed_write 2 (Or.inl (by decide)) (by decide)⟩

/-- A write whose range wraps, and a read of what was written before. -/
def readCalls : List FsCall := [.write 2 (2 ^ 64 - 1) 2 (some [9, 9]), .read 2 0 2 (some 2)]

theorem readCalls_wellFormed : ∀ call ∈ storeCalls ++ readCalls, call.WellFormed := by
  intro call member
  rcases List.mem_append.mp member with stores | reads
  · exact storeCalls_wellFormed call stores
  · rcases List.mem_pair.mp reads with rfl | rfl
    · exact wellFormed_write 2 (Or.inr (by decide)) (by decide)
    · exact wellFormed_read 2 (Or.inl (by decide)) (by decide)

theorem runs_agree_unless_shown_stale :
    (fsRun Endless.mk (fun _ _ => 0) (storeCalls ++ readCalls)).map Prod.fst =
      (fsRun Endless.mk staleMemory (storeCalls ++ readCalls)).map Prod.fst := by
  refine runs_agree_unless_shown Endless.mk (fun _ _ => 0) staleMemory _ readCalls_wellFormed
    (nullLinksRun_zero Endless.mk _ (fun _ _ => rfl) _ readCalls_wellFormed)
    (nullLinksRun_null Endless.mk staleMemory staleMemory_null _ readCalls_wellFormed) ?_
  intro s booted
  refine ⟨trivial, fun out1 t1 made => ⟨trivial, fun out2 t2 wrote => ⟨trivial, fun _ _ _ => ⟨?_, fun _ _ _ => trivial⟩⟩⟩⟩
  have ran : (fsRun Endless.mk (fun _ _ => 0) storeCalls).map Prod.fst = .ok [.ino 2, .code 2] := by
    decide +kernel
  have outs : (fsRun Endless.mk (fun _ _ => 0) storeCalls).map Prod.fst = .ok [out1, out2] := by
    simp only [fsRun, booted, ok_bind, storeCalls, Replay.attempt, made, wrote]
    rfl
  rw [ran, Except.ok.injEq] at outs
  obtain ⟨_, rfl, _⟩ : FsResult.ino 2 = out1 ∧ FsResult.code 2 = out2 ∧ True := by simpa using outs
  intro p n _ _ _ i low high _
  exact Or.inl (Or.inr ⟨by decide, rfl, low, by omega⟩)

/-- The link word of a new block is read before anything was stored in it: the
second write to a file walks into what the memory happened to hold. -/
theorem write_follows_stale_link :
    ¬ ∀ (σ : Type) (_ : Backing σ) (back : σ) (raw1 raw2 : Nat → Region) (calls : List FsCall)
      (_ : ∀ call ∈ calls, call.WellFormed),
      (fsRun back raw1 calls).map Prod.fst = (fsRun back raw2 calls).map Prod.fst := by
  intro claimed
  have wf : ∀ call ∈ storeCalls ++ [.write 2 0 2 (some [7, 8])], call.WellFormed := by
    intro call member
    rcases List.mem_append.mp member with stores | again
    · exact storeCalls_wellFormed call stores
    · exact storeCalls_wellFormed call (List.mem_cons_of_mem _ again)
  have same := claimed Endless inferInstance Endless.mk (fun _ _ => 0) (fun _ _ => 255) _ wf
  have differ : (fsRun Endless.mk (fun _ _ => 0) (storeCalls ++ [.write 2 0 2 (some [7, 8])])).map Prod.fst ≠
      (fsRun Endless.mk (fun _ _ => 255) (storeCalls ++ [.write 2 0 2 (some [7, 8])])).map Prod.fst := by
    decide +kernel
  exact differ same

end KehindeKernel
