import KehindeKernel.DirectoryRuns

/-!
Files as byte lists. The disk is the catalog with the contents of its regular
files: a write replaces an interval, padded with zeros where it starts past the
end, and nothing else changes; one whose range wraps around the words fails. In
zero-filled memory the store refines the disk.
-/

namespace KehindeKernel

open Outcome Bytes

/-- `c` with `src` at `offset`, zero-padded up to it. -/
def splice (c : List UInt8) (offset : Nat) (src : List UInt8) : List UInt8 :=
  (List.range (max c.length (offset + src.length))).map fun i =>
    if offset ≤ i ∧ i < offset + src.length then src.getD (i - offset) 0 else c.getD i 0

structure Disk where
  catalog : Catalog
  files : Nat → Option (List UInt8)

inductive DiskAnswer where
  | catalog (answer : CatalogAnswer)
  | bytes (value : Int) (out : List UInt8)

namespace Disk

def create (d : Disk) (parent : Nat) (name : List UInt8) (inodeType : UInt8) : Nat × Disk :=
  let made := d.catalog.create parent name inodeType
  (made.1, {
    catalog := made.2
    files := if made.1 ≠ invalidIno ∧ inodeType = 1 then Function.update d.files made.1 (some [])
      else d.files })

def write (d : Disk) (ino offset : Nat) (src : List UInt8) : Int × Disk :=
  match d.files ino with
  | none => (-1, d)
  | some c => (src.length, { d with files := Function.update d.files ino (some (splice c offset src)) })

/-- A read that starts inside the file; what the others return is left open. -/
def read (d : Disk) (ino offset len : Nat) : DiskAnswer :=
  match d.files ino with
  | none => .bytes (-1) []
  | some c =>
      if offset < c.length then .bytes ((c.drop offset).take len).length ((c.drop offset).take len)
      else .catalog .quiet

def step (d : Disk) : FsCall → DiskAnswer × Disk
  | .create parent name inodeType =>
      let r := d.create parent (text name) inodeType
      (.catalog (.ino r.1), r.2)
  | .write ino offset len (some src) =>
      let r := if offset + len < 2 ^ 64 then d.write ino offset (src.take len) else (-1, d)
      (.catalog (.code r.1), r.2)
  | .write _ _ _ none => (.catalog (.code (-1)), d)
  | .read ino offset len (some _) => (d.read ino offset len, d)
  | call =>
      let r := d.catalog.step call
      (.catalog r.1, { d with catalog := r.2 })

/-- The disk after `fs_init`. -/
def mounted : Disk where
  catalog := Catalog.mounted
  files := fun _ => none

theorem create_refused (d : Disk) (parent : Nat) (name : List UInt8) (inodeType : UInt8)
    (refused : (d.catalog.create parent name inodeType).1 = invalidIno) :
    (d.create parent name inodeType).2.files = d.files := by
  simp [create, refused]

theorem step_write {d : Disk} {ino offset len : Nat} {c src : List UInt8} (held : d.files ino = some c)
    (room : len ≤ src.length) (small : offset + len < 2 ^ 64) :
    d.step (.write ino offset len (some src)) = (.catalog (.code len),
      { d with files := Function.update d.files ino (some (splice c offset (src.take len))) }) := by
  simp only [step, if_pos small, write, held, List.length_take_of_le room]

theorem step_wrapped (d : Disk) (ino : Nat) {offset len : Nat} (src : List UInt8)
    (wraps : 2 ^ 64 ≤ offset + len) :
    d.step (.write ino offset len (some src)) = (.catalog (.code (-1)), d) := by
  simp only [step, if_neg (Nat.not_lt.mpr wraps)]

theorem step_absent {d : Disk} {ino : Nat} (offset len : Nat) (src : List UInt8) (absent : d.files ino = none) :
    d.step (.write ino offset len (some src)) = (.catalog (.code (-1)), d) := by
  simp only [step, write, absent, ite_self]

end Disk

/-- A result of the code answers as the disk does. -/
def Agrees : FsResult → DiskAnswer → Prop
  | result, .catalog answer => Answers result answer
  | .bytes value out, .bytes expected data => value = expected ∧ out = data
  | _, .bytes _ _ => False

variable {σ : Type}

/-- What `fs_stat`, `fs_read` and `fs_readdir` show of the store is the disk. -/
structure Shows (s : Fs σ) (d : Disk) : Prop where
  sizes : ∀ ino c, d.files ino = some c → fsStat s ino true true = .ok (0, some c.length, some 1)
  bytes : ∀ ino c, d.files ino = some c → ∀ offset len capacity, offset < c.length →
    offset + len ≤ c.length → len ≤ capacity →
    fsRead s ino offset len (some capacity) = .ok (len, (c.drop offset).take len)
  others : ∀ ino, d.files ino = none → ∀ value size type,
    fsStat s ino true true = .ok (value, size, type) → type ≠ some 1
  listings : ∀ dir, Enumerates s dir (d.catalog.dirs dir)

/-- The regular files of a node list. -/
def filesOf (nodes : List Node) (ino : Nat) : Option (List UInt8) :=
  (findNode nodes ino).bind fun n => if n.inode.inodeType = 1 then some n.contents else none

def diskOf (nodes : List Node) (nextIno : Nat) : Disk where
  catalog := catalogOf nodes nextIno
  files := filesOf nodes

/-- Behind the end of a file its blocks read zero. -/
def Blank (nodes : List Node) : Prop :=
  ∀ n ∈ nodes, n.inode.inodeType ≠ 2 → ∀ i, n.inode.inodeSize ≤ i → n.byte i = 0

theorem contents_length (n : Node) : n.contents.length = n.inode.inodeSize := by
  simp [Node.contents]

theorem contents_getD (n : Node) (i : Nat) :
    n.contents.getD i 0 = if i < n.inode.inodeSize then n.byte i else 0 := by
  by_cases inside : i < n.inode.inodeSize
  · simp [Node.contents, List.getD_eq_getElem?_getD, inside]
  · rw [if_neg inside, List.getD_eq_getElem?_getD, List.getElem?_eq_none]
    · rfl
    · rw [contents_length]
      exact Nat.not_lt.mp inside

theorem contents_slice (n : Node) (offset len : Nat) : (n.contents.drop offset).take len =
    (List.range (min len (n.inode.inodeSize - offset))).map fun i => n.byte (offset + i) := by
  apply List.ext_getElem?
  intro i
  rw [List.getElem?_take, List.getElem?_drop, Node.contents, List.getElem?_map, List.getElem?_map]
  by_cases inside : i < min len (n.inode.inodeSize - offset)
  · rw [if_pos (by omega), List.getElem?_range (by omega), List.getElem?_range inside]
    rfl
  · rw [List.getElem?_eq_none (l := List.range (min len _)) (by rw [List.length_range]; omega)]
    by_cases below : i < len
    · rw [if_pos below, List.getElem?_eq_none (by rw [List.length_range]; omega)]
      rfl
    · rw [if_neg below]
      rfl

theorem filesOf_file {nodes : List Node} {ino : Nat} {n : Node} (found : findNode nodes ino = some n)
    (file : n.inode.inodeType = 1) : filesOf nodes ino = some n.contents := by
  rw [filesOf, found, Option.bind_some, if_pos file]

theorem filesOf_eq_some {nodes : List Node} {ino : Nat} {c : List UInt8}
    (held : filesOf nodes ino = some c) :
    ∃ n, findNode nodes ino = some n ∧ n.inode.inodeType = 1 ∧ n.contents = c := by
  obtain ⟨n, found, shown⟩ := Option.bind_eq_some_iff.mp held
  by_cases file : n.inode.inodeType = 1
  · rw [if_pos file] at shown
    exact ⟨n, found, file, Option.some.inj shown⟩
  · simp [file] at shown

theorem filesOf_none {nodes : List Node} {ino : Nat}
    (other : ∀ n, findNode nodes ino = some n → n.inode.inodeType ≠ 1) : filesOf nodes ino = none := by
  cases held : filesOf nodes ino with
  | none => rfl
  | some c =>
      obtain ⟨n, found, file, _⟩ := filesOf_eq_some held
      exact absurd file (other n found)

theorem filesOf_cons (s : Fs σ) (inodeType : UInt8) (nodes : List Node) :
    filesOf (newNode s inodeType :: nodes) =
      Function.update (filesOf nodes) s.nextIno (if inodeType = 1 then some [] else none) := by
  funext ino
  by_cases new : s.nextIno = ino
  · subst new
    simp [filesOf, findNode, newNode, Node.contents]
  · rw [filesOf, findNode_cons (by exact new), Function.update_of_ne (Ne.symm new)]
    rfl

theorem filesOf_replace {nodes : List Node} {p : Nat} {n n' : Node} (found : findNode nodes p = some n)
    (number : n'.inode.ino = p) : filesOf (replaceNode nodes p n') = Function.update (filesOf nodes) p
      (if n'.inode.inodeType = 1 then some n'.contents else none) := by
  funext ino
  rw [filesOf, findNode_replace nodes p n' number]
  by_cases hit : ino = p
  · subst hit
    rw [if_pos rfl, found, Function.update_self]
    rfl
  · rw [if_neg hit, Function.update_of_ne hit, filesOf]

/-- A write over zero-filled memory is a splice of the contents. -/
theorem wrote_splice {raw : Nat → Region} (zeros : ∀ a i, raw a i = 0) {n n' : Node} {offset : Nat}
    {src : List UInt8} (blank : ∀ i, n.inode.inodeSize ≤ i → n.byte i = 0)
    (room : n.inode.inodeSize ≤ payloadSize * n.chain.length) (wrote : Wrote raw n n' offset src) :
    n'.contents = splice n.contents offset src ∧ ∀ i, n'.inode.inodeSize ≤ i → n'.byte i = 0 := by
  have outside : ∀ i, i < offset ∨ offset + src.length ≤ i → n'.byte i = n.contents.getD i 0 := by
    intro i away
    rw [contents_getD]
    rcases wrote.outside i away with same | ⟨past, b, filled⟩
    · by_cases inside : i < n.inode.inodeSize
      · rw [if_pos inside, same]
      · rw [if_neg inside, same, blank i (Nat.not_lt.mp inside)]
    · rw [if_neg (by omega), filled]
      exact zeros b _
  constructor
  · rw [Node.contents, wrote.inode.2.2, splice, contents_length]
    apply List.map_congr_left
    intro i _
    by_cases here : offset ≤ i ∧ i < offset + src.length
    · have place : offset + (i - offset) = i := by omega
      rw [if_pos here, ← wrote.inside (i - offset) (by omega), place]
    · rw [if_neg here]
      exact outside i (by omega)
  · intro i past
    rw [wrote.inode.2.2] at past
    rw [outside i (by omega), contents_getD, if_neg (by omega)]

/-- Zero-filled blocks behind the end of a file keep what lies there zero. -/
theorem longer_blank {raw : Nat → Region} (zeros : ∀ a i, raw a i = 0) {n n' : Node}
    (blank : ∀ i, n.inode.inodeSize ≤ i → n.byte i = 0) (longer : Longer raw n n') (i : Nat)
    (past : n'.inode.inodeSize ≤ i) : n'.byte i = 0 := by
  rw [longer.inode.2.2] at past
  rcases longer.byte i with same | ⟨_, b, filled⟩
  · rw [same, blank i past]
  · rw [filled]
    exact zeros b _

/-- A read that starts inside a file returns a slice of its contents. -/
theorem readResult_file {nodes : List Node} (tree : Tree nodes) {ino : Nat} {n : Node}
    (found : findNode nodes ino = some n) (file : n.inode.inodeType = 1) (offset len : Nat)
    (inside : offset < n.contents.length) : readResult (findNode nodes ino) offset len =
      ((((n.contents.drop offset).take len).length : Int), (n.contents.drop offset).take len) := by
  have notDir : n.inode.inodeType ≠ 2 := by rw [file]; decide
  have room := tree.bytes n (findNode_some found).1 notDir
  rw [contents_length] at inside
  have block : ¬ n.chain.length < offset / payloadSize := by
    simp only [payloadSize] at *
    omega
  rw [found, contents_slice]
  simp [readResult, file, block, Nat.not_le.mpr inside]

section Refinement

variable {raw : Nat → Region} {s s' : Fs σ} {nodes nodes' : List Node}

theorem Blank.cons (blank : Blank nodes) (s : Fs σ) (inodeType : UInt8) :
    Blank (newNode s inodeType :: nodes) := by
  intro m member file i past
  rcases List.mem_cons.mp member with rfl | old
  · exact byte_past _ i (Nat.zero_le i)
  · exact blank m old file i past

theorem Blank.replace (blank : Blank nodes) (p : Nat) (n' : Node)
    (here : n'.inode.inodeType ≠ 2 → ∀ i, n'.inode.inodeSize ≤ i → n'.byte i = 0) :
    Blank (replaceNode nodes p n') := by
  intro m member file
  rcases mem_replaceNode member with rfl | ⟨old, _⟩
  · exact here file
  · exact blank m old file

/-- A call that leaves files alone leaves the table of files alone. -/
theorem filesOf_dir {p : Nat} {n n' : Node} (found : findNode nodes p = some n)
    (number : n'.inode.ino = p) (dir : n.inode.inodeType = 2) (dir' : n'.inode.inodeType = 2) :
    filesOf (replaceNode nodes p n') = filesOf nodes := by
  have file : ∀ m : Node, m.inode.inodeType = 2 → ¬ m.inode.inodeType = 1 := by
    intro m same
    rw [same]
    decide
  have old : filesOf nodes p = none := by
    rw [filesOf, found, Option.bind_some, if_neg (file n dir)]
  rw [filesOf_replace found number, if_neg (file n' dir'), ← old, Function.update_eq_self]

theorem disk_read (tree : Tree nodes) (next ino offset len capacity : Nat) :
    Agrees (.bytes (readResult (findNode nodes ino) offset len).1
      (readResult (findNode nodes ino) offset len).2)
      ((diskOf nodes next).step (.read ino offset len (some capacity))).1 := by
  simp only [Disk.step, Disk.read]
  cases held : (diskOf nodes next).files ino with
  | none =>
      have nothing : readResult (findNode nodes ino) offset len = (-1, []) := by
        cases found : findNode nodes ino with
        | none => rfl
        | some n =>
            have notFile : n.inode.inodeType ≠ 1 := fun file =>
              Option.some_ne_none _ ((filesOf_file found file).symm.trans held)
            simp [readResult, notFile]
      rw [nothing]
      exact ⟨rfl, rfl⟩
  | some c =>
      obtain ⟨n, found, file, rfl⟩ := filesOf_eq_some held
      dsimp only
      by_cases inside : offset < n.contents.length
      · rw [if_pos inside, readResult_file tree found file offset len inside]
        exact ⟨rfl, rfl⟩
      · -- the disk leaves a read behind the end open
        rw [if_neg inside]
        trivial

/-- A new file is empty on the disk; a new directory has no bytes there. -/
theorem disk_create (ok : FsOk raw s nodes) (parentIno : Nat) (name : List UInt8) (inodeType : UInt8)
    (made : ((catalogOf nodes s.nextIno).create parentIno name inodeType).1 = s.nextIno) :
    ((diskOf nodes s.nextIno).create parentIno name inodeType).2.files =
      filesOf (newNode s inodeType :: nodes) := by
  have positive : s.nextIno ≠ invalidIno := by
    rw [ok.shape.counted, invalidIno]
    omega
  rw [filesOf_cons]
  simp only [Disk.create, diskOf, made, ne_eq, positive, not_false_eq_true, true_and]
  by_cases file : inodeType = 1
  · simp only [if_pos file]
  · have absent : filesOf nodes s.nextIno = none := filesOf_none fun m known => by
      obtain ⟨member, same⟩ := findNode_some known
      have below := (ok.shape.numbered m member).2
      omega
    simp only [if_neg file]
    rw [← absent, Function.update_eq_self]

/-- Every effect of a call is the disk's step, in zero-filled memory. -/
theorem effect_disk (zeros : ∀ a i, raw a i = 0) (ok : FsOk raw s nodes) (blank : Blank nodes)
    (kept : FsOk raw s' nodes') (call : FsCall) (ordinary : call ≠ .init) (out : FsResult)
    (effect : Effect raw s nodes call out nodes') :
    Agrees out ((diskOf nodes s.nextIno).step call).1 ∧
      diskOf nodes' s'.nextIno = ((diskOf nodes s.nextIno).step call).2 ∧ Blank nodes' := by
  obtain ⟨answers, catalog⟩ := effect_catalog ok kept call out effect
  have quietly : filesOf nodes' = filesOf nodes → diskOf nodes' s'.nextIno =
      { diskOf nodes s.nextIno with catalog := ((catalogOf nodes s.nextIno).step call).2 } := by
    intro same
    rw [diskOf, catalog, same]
    rfl
  cases effect with
  | init => contradiction
  | lookup => exact ⟨answers, quietly rfl, blank⟩
  | created parentIno name line inodeType n n' ends found creates added =>
      obtain ⟨dir, _⟩ := creates
      have number := added.inode.1.trans (findNode_some found).2
      have dir' := added.inode.2.1.trans dir
      refine ⟨answers, ?_, (blank.replace parentIno n' fun file => absurd dir' file).cons s inodeType⟩
      have files := disk_create ok parentIno (text name) inodeType answers.symm
      rw [diskOf, catalog, filesOf_cons, filesOf_dir found number dir dir', ← filesOf_cons s inodeType nodes, ← files]
      rfl
  | notCreated parentIno name line inodeType ends refused =>
      refine ⟨answers, ?_, blank⟩
      have files := Disk.create_refused (diskOf nodes s.nextIno) parentIno (text name) inodeType answers.symm
      rw [diskOf, catalog]
      exact congrArg (Disk.mk _) files.symm
  | unlinked parentIno name line n n' ends found removes removed =>
      have dir := removes.1
      have number := removed.inode.1.trans (findNode_some found).2
      have dir' := removed.inode.2.1.trans dir
      exact ⟨answers, quietly (filesOf_dir found number dir dir'),
        blank.replace parentIno n' fun file => absurd dir' file⟩
  | notUnlinked => exact ⟨answers, quietly rfl, blank⟩
  | written ino offset len src n n' found file room small wrote =>
      obtain ⟨member, number⟩ := findNode_some found
      have notDir : n.inode.inodeType ≠ 2 := by rw [file]; decide
      -- the bytes between the old end and the offset read as zeros: blocks come zeroed
      obtain ⟨spliced, tail⟩ := wrote_splice zeros (blank n member notDir)
        (ok.tree.bytes n member notDir) wrote
      have file' : n'.inode.inodeType = 1 := wrote.inode.2.1.trans file
      have held : (diskOf nodes s.nextIno).files ino = some n.contents := filesOf_file found file
      rw [Disk.step_write held room small]
      refine ⟨rfl, ?_, blank.replace ino n' fun _ => tail⟩
      rw [diskOf, catalog, filesOf_replace found (wrote.inode.1.trans number), if_pos file', spliced]
      rfl
  | wrapped ino offset len src n n' found file wraps longer =>
      obtain ⟨member, number⟩ := findNode_some found
      have notDir : n.inode.inodeType ≠ 2 := by rw [file]; decide
      have same := longer.contents (ok.tree.bytes n member notDir)
      have file' : n'.inode.inodeType = 1 := longer.inode.2.1.trans file
      have held : filesOf nodes ino = some n.contents := filesOf_file found file
      rw [Disk.step_wrapped _ ino src wraps]
      refine ⟨rfl, ?_, blank.replace ino n' fun _ => longer_blank zeros (blank n member notDir) longer⟩
      rw [diskOf, catalog, filesOf_replace found (longer.inode.1.trans number), if_pos file', same, ← held,
        Function.update_eq_self]
      rfl
  | notWritten ino offset len buf refused =>
      cases buf with
      | none => exact ⟨rfl, quietly rfl, blank⟩
      | some src =>
          have absent : (diskOf nodes s.nextIno).files ino = none := by
            rcases refused with null | refused
            · contradiction
            · exact filesOf_none refused
          rw [Disk.step_absent offset len src absent]
          exact ⟨rfl, quietly rfl, blank⟩
  | read ino offset len capacity =>
      exact ⟨disk_read ok.tree s.nextIno ino offset len capacity, quietly rfl, blank⟩
  | notRead ino offset len => exact ⟨trivial, quietly rfl, blank⟩
  | readdir => exact ⟨answers, quietly rfl, blank⟩
  | stat => exact ⟨answers, quietly rfl, blank⟩

/-- The three calls that look at the store show the disk. -/
theorem fsOk_shows (ok : FsOk raw s nodes) (nextIno : Nat) : Shows s (diskOf nodes nextIno) := by
  constructor
  · intro ino c held
    obtain ⟨n, found, file, rfl⟩ := filesOf_eq_some held
    rw [fsStat_spec ok.shape, found, contents_length]
    simp [file]
  · intro ino c held offset len capacity inside whole room
    obtain ⟨n, found, file, rfl⟩ := filesOf_eq_some held
    have notDir : n.inode.inodeType ≠ 2 := by rw [file]; decide
    have small := ok.shape.file_small ok.tree n (findNode_some found).1 notDir
    have bound := contents_length n
    have length : ((n.contents.drop offset).take len).length = len := by
      rw [List.length_take, List.length_drop]
      omega
    rw [fsRead_spec ok.shape ok.tree ino offset len capacity (Or.inl (by omega)) room,
      readResult_file ok.tree found file offset len inside, length]
  · intro ino absent value size type shown same
    rw [fsStat_spec ok.shape] at shown
    cases found : findNode nodes ino with
    | none =>
        simp only [found, Except.ok.injEq, Prod.mk.injEq] at shown
        exact Option.some_ne_none _ (same.symm.trans shown.2.2.symm)
    | some n =>
        have notFile : n.inode.inodeType ≠ 1 := fun file =>
          Option.some_ne_none _ ((filesOf_file found file).symm.trans absent)
        simp only [found, Except.ok.injEq, Prod.mk.injEq, ↓reduceIte] at shown
        obtain ⟨_, _, shownType⟩ := shown
        exact notFile (Option.some.inj (shownType.trans same))
  · exact fsOk_enumerates ok

end Refinement

section Runs

variable {raw : Nat → Region} [Backing σ]

/-- A store over zero-filled memory and the disk it holds. -/
def Holds (raw : Nat → Region) (s : Fs σ) (d : Disk) : Prop :=
  ∃ nodes, FsOk raw s nodes ∧ Blank nodes ∧ d = diskOf nodes s.nextIno

theorem fsStep_disk (zeros : ∀ a i, raw a i = 0) (call : FsCall) (s : Fs σ) (d : Disk)
    (held : Holds raw s d) (proper : call.WellFormed ∧ call ≠ .init) :
    Guarded (fun r => Agrees r.1 (d.step call).1 ∧ Holds raw r.2 (d.step call).2) (fsStep s call) := by
  obtain ⟨nodes, ok, blank, rfl⟩ := held
  have links : NullLinks s call :=
    nullLinks_null s (by rw [ok.shape.memory]; exact zero_null zeros) call
  apply (fsStep_effect ok call proper.1 links).mono
  rintro ⟨out, t⟩ ⟨nodes', effect, kept⟩
  obtain ⟨agrees, same, blank'⟩ := effect_disk zeros ok blank kept call proper.2 out effect
  exact ⟨agrees, nodes', kept, blank', same.symm⟩

/-- Files refine byte lists over whole runs in zero-filled memory: every call
answers as the disk does, and the store shows the disk at the end. -/
theorem files_refine_bytes (back : σ) (raw : Nat → Region) (zeros : ∀ a i, raw a i = 0)
    (calls : List FsCall) (proper : ∀ call ∈ calls, call.WellFormed ∧ call ≠ .init) :
    Guarded (fun r => List.Forall₂ Agrees r.1 (Replay.run Disk.step Disk.mounted calls).1 ∧
        Shows r.2 (Replay.run Disk.step Disk.mounted calls).2)
      (fsRun back raw calls) := by
  unfold fsRun
  apply (fsBoot_mounted back raw).bind
  rintro s ⟨nodes, mounted, rfl⟩
  have start : Holds raw s Disk.mounted := by
    refine ⟨_, mounted.ok, ?_, ?_⟩
    · intro m member _ i _
      rw [List.mem_singleton.mp member]
      exact byte_past _ i (Nat.zero_le i)
    · rw [diskOf, boot_catalog (fsEmpty (kheapInit back) raw) s mounted.ok rfl, Disk.mounted]
      congr 1
      funext ino
      rw [filesOf_cons]
      simp [Function.update_apply, filesOf, findNode]
  apply (Replay.attempt_simulation fsStep Disk.step (Holds raw) Agrees
    (fun _ call => call.WellFormed ∧ call ≠ .init)
    (fun t d call held proper => fsStep_disk zeros call t d held proper) calls s Disk.mounted start
    (Replay.along_of_forall fsStep _ calls s proper)).mono
  rintro ⟨outs, t⟩ ⟨agree, nodes', ok, _, final⟩
  refine ⟨agree, ?_⟩
  rw [final]
  exact fsOk_shows ok t.nextIno

end Runs

/-- A file written past its end over a block boundary, and read back from a gap. -/
def sparseCalls : List FsCall :=
  [.create 1 nameA 1, .write 2 4087 2 (some [5, 6]), .read 2 4085 4 (some 4)]

/-- The same behind a write whose range wraps. -/
def wrappedCalls : List FsCall :=
  [.create 1 nameA 1, .write 2 (2 ^ 64 - 1) 2 (some [5, 6]), .write 2 4087 2 (some [5, 6]), .read 2 4085 4 (some 4)]

theorem sparseCalls_valid : ∀ call ∈ sparseCalls, call.Valid ∧ call ≠ .init := by
  simp only [sparseCalls, List.forall_mem_cons, List.not_mem_nil, false_imp_iff, implies_true, and_true]
  have write : (FsCall.write 2 4087 2 (some [5, 6])).WellFormed :=
    wellFormed_write 2 (Or.inl (by decide)) (by decide)
  have read : (FsCall.read 2 4085 4 (some 4)).WellFormed :=
    wellFormed_read 2 (Or.inl (by decide)) (by decide)
  exact ⟨⟨⟨⟨[97], nameA_ends⟩, trivial⟩, FsCall.noConfusion⟩,
    ⟨⟨write, by unfold FsCall.InRange; decide⟩, FsCall.noConfusion⟩,
    ⟨⟨read, by unfold FsCall.InRange; decide⟩, FsCall.noConfusion⟩⟩

theorem wrappedCalls_proper : ∀ call ∈ wrappedCalls, call.WellFormed ∧ call ≠ .init := by
  have rest : ∀ call ∈ sparseCalls, call.WellFormed ∧ call ≠ .init :=
    fun call member => ⟨(sparseCalls_valid call member).1.wellFormed, (sparseCalls_valid call member).2⟩
  simp only [wrappedCalls, sparseCalls, List.forall_mem_cons] at rest ⊢
  obtain ⟨create, write, read⟩ := rest
  exact ⟨create, ⟨wellFormed_write 2 (Or.inr (by decide)) (by decide), FsCall.noConfusion⟩, write, read⟩

theorem files_refine_bytes_sparse : ∃ r, fsRun Endless.mk (fun _ _ => 0) wrappedCalls = .ok r ∧
    List.Forall₂ Agrees r.1 (Replay.run Disk.step Disk.mounted wrappedCalls).1 ∧
    Shows r.2 (Replay.run Disk.step Disk.mounted wrappedCalls).2 := by
  have guarded := files_refine_bytes Endless.mk (fun _ _ => 0) (fun _ _ => rfl) wrappedCalls wrappedCalls_proper
  exact guarded.returned (by decide +kernel)

end KehindeKernel
