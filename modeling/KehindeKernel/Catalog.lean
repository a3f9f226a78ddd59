import KehindeKernel.FsCalls

/-!
What the directory calls are for: a catalog of directories, each the list of its
entries in `fs_readdir` order. Creation appends an entry under a number never used
before; removal moves the last entry into the place of the removed one. The
directories of the store are refined to this catalog over whole runs.
-/

namespace KehindeKernel

open Outcome Bytes SwapRemove

structure Catalog where
  dirs : Nat → Option (List Entry)
  nextIno : Nat

inductive CatalogAnswer where
  | quiet
  | ino (number : Nat)
  | code (value : Int)
  | entry (value : Int) (out : Option Entry)

/-- A directory with listing `l` takes a new entry named `name`. -/
def Accepts (l : List Entry) (name : List UInt8) : Prop :=
  1 ≤ name.length ∧ name.length ≤ 254 ∧ name ∉ l.map Prod.fst

instance (l : List Entry) (name : List UInt8) : Decidable (Accepts l name) :=
  inferInstanceAs (Decidable (_ ∧ _ ∧ _))

namespace Catalog

/-- The catalog with an object of the given type under the next number. -/
def register (c : Catalog) (inodeType : UInt8) : Catalog where
  dirs := Function.update c.dirs c.nextIno (if inodeType = 2 then some [] else none)
  nextIno := c.nextIno + 1

def relist (c : Catalog) (d : Nat) (l : List Entry) : Catalog :=
  { c with dirs := Function.update c.dirs d (some l) }

def create (c : Catalog) (parent : Nat) (name : List UInt8) (inodeType : UInt8) : Nat × Catalog :=
  match c.dirs parent with
  | none => (invalidIno, c)
  | some l =>
      if Accepts l name then
        (c.nextIno, (c.relist parent (l ++ [(name, c.nextIno)])).register inodeType)
      else (invalidIno, c)

/-- A directory with entries, which `unlink` refuses to remove. -/
def Occupied (c : Catalog) (ino : Nat) : Prop := (c.dirs ino).getD [] ≠ []

instance (c : Catalog) (ino : Nat) : Decidable (c.Occupied ino) :=
  inferInstanceAs (Decidable (_ ≠ _))

def unlink (c : Catalog) (parent : Nat) (name : List UInt8) : Int × Catalog :=
  match c.dirs parent with
  | none => (-1, c)
  | some l =>
      let j := l.findIdx fun e => e.1 == name
      match l[j]? with
      | none => (-1, c)
      | some e => if c.Occupied e.2 then (-1, c) else (0, c.relist parent (swapRemove l j))

def readdir (c : Catalog) (d index : Nat) (out : Bool) : Int × Option Entry :=
  match c.dirs d with
  | none => (-1, none)
  | some l =>
      if out = false then (-1, none)
      else match l[index]? with
      | none => (0, none)
      | some e => (1, some e)

/-- File contents are none of the catalog's business. -/
def step (c : Catalog) : FsCall → CatalogAnswer × Catalog
  | .init => (.quiet, c.register 2)
  | .create parent name inodeType =>
      let r := c.create parent (text name) inodeType
      (.ino r.1, r.2)
  | .unlink parent name =>
      let r := c.unlink parent (text name)
      (.code r.1, r.2)
  | .readdir d index out =>
      let r := c.readdir d index out
      (.entry r.1 r.2, c)
  | _ => (.quiet, c)

/-- The catalog after `fs_init`: an empty root. -/
def mounted : Catalog where
  dirs := Function.update (fun _ => none) rootIno (some [])
  nextIno := 2

end Catalog

/-- A result of the code answers as the catalog does. -/
def Answers : FsResult → CatalogAnswer → Prop
  | _, .quiet => True
  | .ino number, .ino expected => number = expected
  | .code value, .code expected => value = expected
  | .entry value out, .entry expected e => value = expected ∧ out.map entryOf = e
  | _, _ => False

def catalogOf (nodes : List Node) (nextIno : Nat) : Catalog where
  dirs := dirsOf nodes
  nextIno := nextIno

theorem findIdx_name {l : List Entry} (distinct : (l.map Prod.fst).Nodup) (j : Nat)
    (name : List UInt8) (ino : Nat) (listed : l[j]? = some (name, ino)) :
    l.findIdx (fun e => e.1 == name) = j := by
  induction l generalizing j with
  | nil => simp at listed
  | cons e rest ih =>
      obtain ⟨fresh, later⟩ := List.nodup_cons.mp distinct
      rw [List.findIdx_cons]
      cases j with
      | zero =>
          have first : e = (name, ino) := by simpa using listed
          simp [first]
      | succ j =>
          have listedRest : rest[j]? = some (name, ino) := by simpa using listed
          have different : e.1 ≠ name := by
            rintro rfl
            exact fresh (List.mem_map.mpr ⟨_, List.mem_of_getElem? listedRest, rfl⟩)
          rw [beq_false_of_ne different, ih later j listedRest]
          rfl

theorem findIdx_none {l : List Entry} {name : List UInt8} (absent : name ∉ l.map Prod.fst) :
    l[l.findIdx fun e => e.1 == name]? = none := by
  have last : l.findIdx (fun e => e.1 == name) = l.length := by
    rw [List.findIdx_eq_length]
    intro e member
    have different : e.1 ≠ name := by
      rintro rfl
      exact absent (List.mem_map_of_mem member)
    simpa using different
  rw [last, List.getElem?_eq_none (Nat.le_refl _)]

theorem dirsOf_cons {σ : Type} (s : Fs σ) (inodeType : UInt8) (nodes : List Node) :
    dirsOf (newNode s inodeType :: nodes) =
      Function.update (dirsOf nodes) s.nextIno (if inodeType = 2 then some [] else none) := by
  funext d
  rw [dirsOf, findNode, List.find?_cons]
  by_cases new : s.nextIno = d
  · subst new
    simp [newNode, Node.entries]
  · have old : ((newNode s inodeType).inode.ino == d) = false := beq_false_of_ne new
    rw [old, Function.update_of_ne (Ne.symm new)]
    rfl

theorem dirsOf_replace {nodes : List Node} {p : Nat} {n n' : Node} (found : findNode nodes p = some n)
    (number : n'.inode.ino = p) : dirsOf (replaceNode nodes p n') = Function.update (dirsOf nodes) p
      (if n'.inode.inodeType = 2 then some n'.entries else none) := by
  funext d
  rw [dirsOf, findNode_replace nodes p n' number]
  by_cases hit : d = p
  · subst hit
    rw [if_pos rfl, found, Function.update_self]
    rfl
  · rw [if_neg hit, Function.update_of_ne hit, dirsOf]

/-- Replacing a file leaves every directory as it is. -/
theorem dirsOf_written {nodes : List Node} {ino : Nat} {n n' : Node} (found : findNode nodes ino = some n)
    (file : n.inode.inodeType = 1) (number : n'.inode.ino = ino) (type : n'.inode.inodeType = n.inode.inodeType) :
    dirsOf (replaceNode nodes ino n') = dirsOf nodes := by
  have notDir : ¬ n'.inode.inodeType = 2 := by rw [type, file]; decide
  have old : dirsOf nodes ino = none := by
    rw [dirsOf, found, Option.bind_some, file]
    rfl
  rw [dirsOf_replace found number, if_neg notDir, ← old, Function.update_eq_self]

/-- A directory that lists something is occupied, and nothing else is. -/
theorem occupied_iff {nodes : List Node} (nextIno ino : Nat) : (catalogOf nodes nextIno).Occupied ino ↔
    ∃ m, findNode nodes ino = some m ∧ m.inode.inodeType = 2 ∧ m.inode.inodeSize ≠ 0 := by
  have size : ∀ m : Node, m.entries ≠ [] ↔ m.inode.inodeSize ≠ 0 := by
    intro m
    rw [← entries_length m, ne_eq, ne_eq, List.length_eq_zero_iff]
  rw [Catalog.Occupied, catalogOf]
  dsimp only
  cases found : findNode nodes ino with
  | none => simp [dirsOf, found]
  | some m =>
      by_cases dir : m.inode.inodeType = 2
      · rw [dirsOf_dir found dir, Option.getD_some, size]
        simp [dir]
      · simp [dirsOf, found, dir]

theorem dirsOf_grows {nodes : List Node} (tree : Tree nodes) (d : Nat) (l : List Entry)
    (listed : dirsOf nodes d = some l) (e : Entry) (member : e ∈ l) : d < e.2 := by
  obtain ⟨n, found, dir, rfl⟩ := dirsOf_eq_some listed
  obtain ⟨inNodes, number⟩ := findNode_some found
  exact number ▸ (tree.targets n inNodes dir e member).1

theorem dirsOf_named {nodes : List Node} (tree : Tree nodes) (d : Nat) (l : List Entry)
    (listed : dirsOf nodes d = some l) : [] ∉ l.map Prod.fst := by
  obtain ⟨n, found, dir, rfl⟩ := dirsOf_eq_some listed
  rw [mem_names]
  rintro ⟨j, inside, empty⟩
  exact ((tree.slots n (findNode_some found).1 dir).named j inside).2.1 empty

section Refinement

variable {σ : Type} {raw : Nat → Region} {s s' : Fs σ} {nodes nodes' : List Node}

theorem catalog_creates (next : Nat) {parentIno : Nat} {name line : List UInt8} {n : Node}
    (found : findNode nodes parentIno = some n) (ends : Terminated name line) (creates : CreatesIn n line)
    (inodeType : UInt8) :
    (catalogOf nodes next).create parentIno (text name) inodeType =
      (next, ((catalogOf nodes next).relist parentIno
        (n.entries ++ [(text name, next)])).register inodeType) := by
  obtain ⟨dir, nonempty, short, fresh⟩ := creates
  have accepts : Accepts n.entries (text name) := by
    rw [ends.text_eq]
    exact ⟨nonempty, short, fresh⟩
  rw [Catalog.create, show (catalogOf nodes next).dirs parentIno = some n.entries from
    dirsOf_dir found dir]
  exact if_pos accepts

theorem catalog_creates_not (next : Nat) {parentIno : Nat} {name line : List UInt8}
    (ends : Terminated name line)
    (refused : ∀ n, findNode nodes parentIno = some n → ¬ CreatesIn n line) (inodeType : UInt8) :
    (catalogOf nodes next).create parentIno (text name) inodeType = (invalidIno, catalogOf nodes next) := by
  rw [Catalog.create, show (catalogOf nodes next).dirs parentIno = dirsOf nodes parentIno from rfl]
  cases listed : dirsOf nodes parentIno with
  | none => rfl
  | some l =>
      obtain ⟨n, found, dir, rfl⟩ := dirsOf_eq_some listed
      apply if_neg
      rintro ⟨nonempty, short, fresh⟩
      rw [ends.text_eq] at nonempty short fresh
      exact refused n found ⟨dir, nonempty, short, fresh⟩

theorem catalog_unlinks (tree : Tree nodes) (next : Nat) {parentIno : Nat} {name line : List UInt8}
    {n : Node} (found : findNode nodes parentIno = some n) (ends : Terminated name line)
    (removes : RemovesFrom nodes n line) (j named : Nat) (atJ : n.entries[j]? = some (line, named)) :
    (catalogOf nodes next).unlink parentIno (text name) =
      (0, (catalogOf nodes next).relist parentIno (swapRemove n.entries j)) := by
  obtain ⟨dir, ino, listed, empty⟩ := removes
  have names := tree.names n (findNode_some found).1 dir
  have position := findIdx_name names j line named atJ
  -- names are distinct, so the scan stops at the entry that was removed
  have same : named = ino :=
    (Prod.mk.inj (List.inj_on_of_nodup_map names (List.mem_of_getElem? atJ) listed rfl)).2
  have vacant : ¬ (catalogOf nodes next).Occupied named := by
    rw [occupied_iff]
    rintro ⟨m, target, dirM, sizeM⟩
    exact empty m (same ▸ target) ⟨dirM, sizeM⟩
  rw [Catalog.unlink, show (catalogOf nodes next).dirs parentIno = some n.entries from
    dirsOf_dir found dir, ends.text_eq]
  simp only [position, atJ, if_neg vacant]

theorem catalog_unlinks_not (tree : Tree nodes) (next : Nat) {parentIno : Nat} {name line : List UInt8}
    (ends : Terminated name line)
    (refused : ∀ n, findNode nodes parentIno = some n → ¬ RemovesFrom nodes n line) :
    (catalogOf nodes next).unlink parentIno (text name) = (-1, catalogOf nodes next) := by
  rw [Catalog.unlink, show (catalogOf nodes next).dirs parentIno = dirsOf nodes parentIno from rfl,
    ends.text_eq]
  cases listed : dirsOf nodes parentIno with
  | none => rfl
  | some l =>
      obtain ⟨n, found, dir, rfl⟩ := dirsOf_eq_some listed
      dsimp only
      by_cases present : line ∈ n.entries.map Prod.fst
      · obtain ⟨⟨named, ino⟩, inE, same⟩ := List.mem_map.mp present
        obtain rfl : named = line := same
        obtain ⟨j, atJ⟩ := List.mem_iff_getElem?.mp inE
        have names := tree.names n (findNode_some found).1 dir
        have occupied : (catalogOf nodes next).Occupied ino := by
          rw [occupied_iff]
          by_contra vacant
          apply refused n found
          exact ⟨dir, ino, inE, fun m target full => vacant ⟨m, target, full⟩⟩
        simp only [findIdx_name names j named ino atJ, atJ, if_pos occupied]
      · rw [findIdx_none present]

theorem catalog_readdir (nodes : List Node) (next dirIno index : Nat) (out : Bool) :
    Answers (.entry (readdirResult (findNode nodes dirIno) index out).1
      (readdirResult (findNode nodes dirIno) index out).2)
      ((catalogOf nodes next).step (.readdir dirIno index out)).1 := by
  simp only [Catalog.step, Catalog.readdir, Answers, readdirResult, catalogOf, dirsOf]
  cases found : findNode nodes dirIno with
  | none => exact ⟨rfl, rfl⟩
  | some n =>
      by_cases dir : n.inode.inodeType = 2
      · cases out with
        | false => simp [dir]
        | true =>
            by_cases inside : index < n.inode.inodeSize
            · simp [dir, inside, entries_get n index inside]
            · have past : n.entries[index]? = none := by
                rw [List.getElem?_eq_none]
                rw [entries_length]
                exact Nat.not_lt.mp inside
              simp [dir, inside, past]
      · simp [dir]

/-- Every effect of a call is the catalog's step. -/
theorem effect_catalog (ok : FsOk raw s nodes) (kept : FsOk raw s' nodes') (call : FsCall)
    (out : FsResult) (effect : Effect raw s nodes call out nodes') :
    Answers out ((catalogOf nodes s.nextIno).step call).1 ∧
      catalogOf nodes' s'.nextIno = ((catalogOf nodes s.nextIno).step call).2 := by
  have counted := kept.shape.counted
  have countedOld := ok.shape.counted
  cases effect with
  | init =>
      refine ⟨trivial, ?_⟩
      rw [counted, List.length_cons, ← countedOld, catalogOf, dirsOf_cons]
      rfl
  | lookup => exact ⟨trivial, by rw [counted, ← countedOld]; rfl⟩
  | created parentIno name line inodeType n n' ends found creates added =>
      have number := (findNode_some found).2
      have dir := creates.1
      simp only [Catalog.step, catalog_creates s.nextIno found ends creates inodeType]
      refine ⟨rfl, ?_⟩
      rw [counted, List.length_cons, replaceNode, List.length_map, ← countedOld, ← replaceNode, catalogOf,
        dirsOf_cons, dirsOf_replace found (added.inode.1.trans number), if_pos (added.inode.2.1.trans dir),
        added.entries, ends.text_eq]
      rfl
  | notCreated parentIno name line inodeType ends refused =>
      simp only [Catalog.step, catalog_creates_not s.nextIno ends refused inodeType]
      exact ⟨rfl, by rw [counted, ← countedOld]⟩
  | unlinked parentIno name line n n' ends found removes removed =>
      have number := (findNode_some found).2
      have dir := removes.1
      -- the slot of the name takes the last entry, in both
      obtain ⟨j, named, atJ, entries⟩ := removed.entries
      simp only [Catalog.step, catalog_unlinks ok.tree s.nextIno found ends removes j named atJ]
      refine ⟨rfl, ?_⟩
      rw [counted, replaceNode, List.length_map, ← countedOld, ← replaceNode, catalogOf,
        dirsOf_replace found (removed.inode.1.trans number), if_pos (removed.inode.2.1.trans dir), entries]
      rfl
  | notUnlinked parentIno name line ends refused =>
      simp only [Catalog.step, catalog_unlinks_not ok.tree s.nextIno ends refused]
      exact ⟨rfl, by rw [counted, ← countedOld]⟩
  | written ino offset len src n n' found file room small wrote =>
      have number := wrote.inode.1.trans (findNode_some found).2
      refine ⟨trivial, ?_⟩
      rw [counted, replaceNode, List.length_map, ← countedOld, ← replaceNode, catalogOf,
        dirsOf_written found file number wrote.inode.2.1]
      rfl
  | wrapped ino offset len src n n' found file wraps longer =>
      have number := longer.inode.1.trans (findNode_some found).2
      refine ⟨trivial, ?_⟩
      rw [counted, replaceNode, List.length_map, ← countedOld, ← replaceNode, catalogOf,
        dirsOf_written found file number longer.inode.2.1]
      rfl
  | notWritten => exact ⟨trivial, by rw [counted, ← countedOld]; rfl⟩
  | read => exact ⟨trivial, by rw [counted, ← countedOld]; rfl⟩
  | notRead => exact ⟨trivial, by rw [counted, ← countedOld]; rfl⟩
  | readdir dirIno index out =>
      exact ⟨catalog_readdir nodes s.nextIno dirIno index out, by rw [counted, ← countedOld]; rfl⟩
  | stat => exact ⟨by simp [Catalog.step, Answers], by rw [counted, ← countedOld]; rfl⟩

/-- The directory a call works on. -/
def FsCall.site : FsCall → Option Nat
  | .create parentIno _ _ => some parentIno
  | .unlink parentIno _ => some parentIno
  | _ => none

/-- A call leaves every directory but its own as it is. -/
theorem effect_frame (call : FsCall) (out : FsResult) (effect : Effect raw s nodes call out nodes')
    (k : Nat) (old : k < s.nextIno) (apart : call.site ≠ some k) : dirsOf nodes' k = dirsOf nodes k := by
  cases effect with
  | init => rw [dirsOf_cons, Function.update_of_ne (Nat.ne_of_lt old)]
  | created parentIno name line inodeType n n' ends found creates added =>
      have different : k ≠ parentIno := fun same => apart (congrArg some same.symm)
      rw [dirsOf_cons, Function.update_of_ne (Nat.ne_of_lt old),
        dirsOf_replace found (added.inode.1.trans (findNode_some found).2), Function.update_of_ne different]
  | unlinked parentIno name line n n' ends found removes removed =>
      have different : k ≠ parentIno := fun same => apart (congrArg some same.symm)
      rw [dirsOf_replace found (removed.inode.1.trans (findNode_some found).2),
        Function.update_of_ne different]
  | written ino offset len src n n' found file room small wrote =>
      rw [dirsOf_written found file (wrote.inode.1.trans (findNode_some found).2) wrote.inode.2.1]
  | wrapped ino offset len src n n' found file wraps longer =>
      rw [dirsOf_written found file (longer.inode.1.trans (findNode_some found).2) longer.inode.2.1]
  | _ => rfl

end Refinement

end KehindeKernel
