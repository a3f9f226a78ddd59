import KehindeKernel.ShellRuns

/-!
The two namings of the shell. `mkdir`, `touch` and `rm` take their argument as one
entry name of `cwd_ino`; the other commands parse it behind `cwd_path`. They agree
on the names that are one component and lie within the 16 that `fs_lookup` follows.
-/

namespace KehindeKernel

open Outcome Bytes DirectoryTree

variable {σ : Type}

/-- One component, and no more than 16 with those of the working directory. -/
def Plain (t : Shell σ) (name : List UInt8) : Prop :=
  slash ∉ name ∧ (components (fullPath t name)).length ≤ 16

/-- `fs_readdir` lists `name` under `number`. -/
def Lists (s : Fs σ) (d : Nat) (name : List UInt8) (number : Nat) : Prop :=
  ∃ index entry, fsReaddir s d index true = .ok (1, some entry) ∧ entryOf entry = (name, number)

/-- The removal of `name` from the working directory, which left `fs`, is what
`resolve_path` shows: it was the inode removed and is none. -/
def RemovalResolves (t : Shell σ) (fs : Fs σ) (name : List UInt8) : Prop :=
  ∃ number, Lists t.fs t.cwdIno name number ∧ resolvePath t name = .ok number ∧
    resolvePath { t with fs := fs } name = .ok invalidIno

theorem splitOn_plain (name part : List UInt8) (member : part ∈ name.splitOn slash) : slash ∉ part := by
  induction size : name.length using Nat.strong_induction_on generalizing name with
  | _ size ih =>
      rcases split_first name with ⟨plain, one⟩ | ⟨seg, later, plain, cut, more⟩
      · rw [one, List.mem_singleton] at member
        exact member ▸ plain
      · rw [more, List.mem_cons] at member
        rcases member with rfl | inside
        · exact plain
        · apply ih later.length _ later inside rfl
          rw [← size, cut, List.length_append, List.length_cons]
          omega

section Names

variable {raw : Nat → Region} {t : Shell σ} {nodes : List Node}

theorem dirsOf_once (tree : Tree nodes) (a b : Nat) (l m : List Entry) (e f : Entry)
    (listedA : dirsOf nodes a = some l) (listedB : dirsOf nodes b = some m) (inL : e ∈ l) (inM : f ∈ m)
    (same : e.2 = f.2) : e.1 = f.1 := by
  obtain ⟨n, foundA, dirA, rfl⟩ := dirsOf_eq_some listedA
  obtain ⟨k, foundB, dirB, rfl⟩ := dirsOf_eq_some listedB
  obtain ⟨inN, numberA⟩ := findNode_some foundA
  obtain ⟨inK, numberB⟩ := findNode_some foundB
  have parent := tree.parent n inN dirA k inK dirB e inL f inM same
  rw [numberA, numberB] at parent
  subst parent
  obtain rfl : n = k := Option.some.inj (foundA.symm.trans foundB)
  exact congrArg Prod.fst (List.inj_on_of_nodup_map (tree.ids n inN dirA) inL inM same)

/-- The components of a relative argument come behind those of the working
directory, which lead there. -/
theorem ShellOk.base (ok : ShellOk raw t nodes) : ∃ base : List (List UInt8),
    walk (dirsOf nodes) rootIno (base.take 16) = some t.cwdIno ∧
    ∀ name, name ≠ [] → name.head? ≠ some slash →
      components (fullPath t name) = base ++ name.splitOn slash ∧ fullPath t name ≠ [slash] := by
  obtain ⟨rest, path⟩ : ∃ rest, t.cwdPath = slash :: rest := by
    obtain ⟨c, rest, split⟩ := List.exists_cons_of_ne_nil ok.cwd_ne_nil
    have first := ok.absolute
    rw [split, List.head?_cons, Option.some.injEq] at first
    exact ⟨rest, first ▸ split⟩
  have positive : t.cwdIno ≠ invalidIno := by
    obtain ⟨l, listed⟩ := Option.isSome_iff_exists.mp ok.dir
    obtain ⟨n, found, _⟩ := dirsOf_eq_some listed
    obtain ⟨member, number⟩ := findNode_some found
    have above := (ok.mounted.ok.shape.numbered n member).1
    rw [number] at above
    exact Nat.ne_of_gt above
  -- the root is stored as a bare slash, and joins without another one
  by_cases bare : rest = []
  · subst bare
    refine ⟨[], ?_, ?_⟩
    · have here := ok.here
      rw [path, lookupResult, if_neg (List.cons_ne_nil _ _), if_pos rfl] at here
      rw [List.take_nil, walk_nil, here]
    · intro name some_ relative
      have joined : fullPath t name = slash :: name := by
        simp [fullPath, relative, path]
      rw [joined]
      exact ⟨rfl, by simpa using some_⟩
  · have walked : walk (dirsOf nodes) rootIno ((rest.splitOn slash).take 16) = some t.cwdIno := by
      have here := ok.here
      rw [path, lookupResult, if_neg (List.cons_ne_nil _ _), if_neg (by simpa using bare)] at here
      cases reached : walk (dirsOf nodes) rootIno ((components (slash :: rest)).take 16) with
      | none =>
          rw [reached] at here
          exact absurd here.symm positive
      | some last =>
          rw [reached] at here
          exact reached.trans (congrArg some here)
    by_cases open_ : rest.getLast? = some slash
    · -- a path that ends in a slash has an empty last component, which only the cut hides
      obtain ⟨front, rfl⟩ := List.getLast?_eq_some_iff.mp open_
      refine ⟨front.splitOn slash, ?_, ?_⟩
      · rw [List.splitOn_append_cons_self, List.splitOn_nil] at walked
        by_cases long : 16 ≤ (front.splitOn slash).length
        · rw [List.take_append_of_le_length long] at walked
          exact walked
        · rw [List.take_of_length_le (by simp; omega)] at walked
          obtain ⟨here, _, step⟩ := walk_last _ _ _ _ _ walked
          obtain ⟨l, listed, member⟩ := child_eq_some _ _ _ _ step
          exact absurd (List.mem_map_of_mem member) (dirsOf_named ok.mounted.ok.tree here l listed)
      · intro name some_ relative
        have joined : fullPath t name = slash :: (front ++ slash :: name) := by
          have last : (slash :: (front ++ [slash])).getLast? = some slash := by
            rw [← List.cons_append, List.getLast?_concat]
          simp [fullPath, relative, path, last]
        rw [joined, components, List.tail_cons, List.splitOn_append_cons_self]
        exact ⟨rfl, by simp⟩
    · refine ⟨rest.splitOn slash, walked, ?_⟩
      intro name some_ relative
      have joined : fullPath t name = slash :: (rest ++ slash :: name) := by
        obtain ⟨c, front, split⟩ := List.exists_cons_of_ne_nil bare
        have last : (slash :: rest).getLast? = rest.getLast? := by
          rw [split, List.getLast?_cons_cons]
        simp [fullPath, relative, path, last, open_]
      rw [joined, components, List.tail_cons, List.splitOn_append_cons_self]
      exact ⟨rfl, by simp⟩

theorem ShellOk.resolves_iff (ok : ShellOk raw t nodes) (l : List Entry)
    (listed : dirsOf nodes t.cwdIno = some l) (name : List UInt8) (number : Nat) (member : (name, number) ∈ l)
    (clean : 0 ∉ name) (relative : name.head? ≠ some slash) :
    resolvePath t name = .ok number ↔ Plain t name := by
  have tree := ok.mounted.ok.tree
  obtain ⟨base, reached, behind⟩ := ok.base
  have some_ : name ≠ [] := by
    rintro rfl
    exact dirsOf_named tree t.cwdIno l listed (List.mem_map_of_mem member)
  obtain ⟨comps, notRoot⟩ := behind name some_ relative
  have absolute : fullPath t name ≠ [] := by
    intro none
    have first := fullPath_absolute ok name
    rw [none] at first
    contradiction
  have number_ := dirsOf_grows tree t.cwdIno l listed _ member
  rw [resolvePath_ok ok name clean, Except.ok.injEq, lookupResult, if_neg absolute, if_neg notRoot, Plain,
    comps]
  constructor
  · intro resolved
    have done : walk (dirsOf nodes) rootIno ((base ++ name.splitOn slash).take 16) = some number := by
      cases final : walk (dirsOf nodes) rootIno ((base ++ name.splitOn slash).take 16) with
      | none =>
          rw [final, Option.getD_none] at resolved
          rw [← resolved] at number_
          exact absurd number_ (Nat.not_lt_zero _)
      | some last =>
          rw [final] at resolved
          exact congrArg some resolved
    -- entries have one parent, so the walk to the number ends with the name
    obtain ⟨short, part⟩ := walk_to_entry (dirsOf nodes) (dirsOf_grows tree) (dirsOf_once tree) 16 rootIno
      t.cwdIno number base _ name l reached listed member (List.splitOn_ne_nil slash name) done
    have plain := splitOn_plain name name part
    rw [List.splitOn_eq_singleton plain, List.length_append, List.length_singleton]
    exact ⟨plain, short⟩
  · rintro ⟨plain, short⟩
    obtain ⟨n, found, dir, same⟩ := dirsOf_eq_some listed
    have names := tree.names n (findNode_some found).1 dir
    rw [same] at names
    have step := child_of_mem (dirsOf nodes) t.cwdIno l listed names name number member
    rw [List.splitOn_eq_singleton plain] at short ⊢
    rw [List.length_append, List.length_singleton] at short
    rw [List.take_of_length_le (by omega)] at reached
    rw [List.take_of_length_le (by rw [List.length_append, List.length_singleton]; exact short),
      walk_append, reached, Option.bind_some, walk_cons, step]
    rfl

theorem ShellOk.resolves_none (ok : ShellOk raw t nodes) (l : List Entry)
    (listed : dirsOf nodes t.cwdIno = some l) (name : List UInt8) (absent : name ∉ l.map Prod.fst)
    (some_ : name ≠ []) (clean : 0 ∉ name) (relative : name.head? ≠ some slash) (plain : Plain t name) :
    resolvePath t name = .ok invalidIno := by
  obtain ⟨base, reached, behind⟩ := ok.base
  obtain ⟨comps, notRoot⟩ := behind name some_ relative
  have absolute : fullPath t name ≠ [] := by
    intro none
    have first := fullPath_absolute ok name
    rw [none] at first
    contradiction
  have missing : child (dirsOf nodes) t.cwdIno name = none := by
    rw [child_eq_none]
    intro m same
    rw [listed, Option.some.injEq] at same
    exact same ▸ absent
  obtain ⟨single, short⟩ := plain
  rw [comps, List.splitOn_eq_singleton single] at short
  have whole := short
  rw [List.length_append, List.length_singleton] at short
  rw [List.take_of_length_le (by omega)] at reached
  rw [resolvePath_ok ok name clean, lookupResult, if_neg absolute, if_neg notRoot, comps,
    List.splitOn_eq_singleton single, List.take_of_length_le whole, walk_append, reached, Option.bind_some,
    walk_cons, missing]
  rfl

theorem ShellOk.lists_iff (ok : ShellOk raw t nodes) (n : Node) (found : findNode nodes t.cwdIno = some n)
    (dir : n.inode.inodeType = 2) (name : List UInt8) (number : Nat) :
    Lists t.fs t.cwdIno name number ↔ (name, number) ∈ n.entries := by
  have read : ∀ index, fsReaddir t.fs t.cwdIno index true = .ok (if index < n.inode.inodeSize
      then (1, some (slotOf n.chain index)) else (0, none)) := by
    intro index
    rw [fsReaddir_spec ok.mounted.ok, found, readdirResult]
    simp only [dir, ne_eq, not_true_eq_false, Bool.true_eq_false, or_self, ↓reduceIte]
  constructor
  · rintro ⟨index, entry, listed, same⟩
    rw [read, Except.ok.injEq] at listed
    by_cases inside : index < n.inode.inodeSize
    · rw [if_pos inside] at listed
      obtain rfl : slotOf n.chain index = entry := Option.some.inj (congrArg Prod.snd listed)
      exact same ▸ List.mem_of_getElem? (entries_get n index inside)
    · rw [if_neg inside] at listed
      have zero : (0 : Int) = 1 := congrArg Prod.fst listed
      exact absurd zero (by decide)
  · intro member
    obtain ⟨index, below, same⟩ := List.mem_map.mp member
    have inside := List.mem_range.mp below
    exact ⟨index, slotOf n.chain index, by rw [read, if_pos inside], same⟩

theorem removal_resolves_iff (ok : ShellOk raw t nodes) (name : List UInt8) (clean : 0 ∉ name)
    (relative : name.head? ≠ some slash) (value : Int) (success : value = 0) (fs : Fs σ)
    (removed : fsUnlink t.fs t.cwdIno (name ++ [0]) = .ok (value, fs)) :
    RemovalResolves t fs name ↔ Plain t name := by
  obtain ⟨nodes', effect, kept⟩ :=
    (fsUnlink_effect ok.mounted.ok t.cwdIno (terminated_cstring name clean)).of_eq removed
  have ok' := ok.effect fs _ _ effect kept fun k site => (Option.some.inj site).symm
  cases effect with
  | notUnlinked => contradiction
  | unlinked _ _ line n n' ends found removes gone =>
      obtain rfl : line = name := ends.text_eq.symm.trans (terminated_cstring name clean).text_eq
      obtain ⟨dir, number, member, _⟩ := removes
      have listed := dirsOf_dir found dir
      have names := ok.mounted.ok.tree.names n (findNode_some found).1 dir
      constructor
      · rintro ⟨k, lists, resolved, _⟩
        have inN := (ok.lists_iff n found dir line k).mp lists
        exact (ok.resolves_iff _ listed line k inN clean relative).mp resolved
      · intro plain
        have same := gone.inode.1.trans (findNode_some found).2
        have listed' : dirsOf (replaceNode nodes t.cwdIno n') t.cwdIno = some n'.entries :=
          dirsOf_dir (findNode_replaced found same) (gone.inode.2.1.trans dir)
        have absent : line ∉ n'.entries.map Prod.fst := by
          obtain ⟨j, ino, atJ, entries⟩ := gone.entries
          obtain ⟨inside, here⟩ := List.getElem?_eq_some_iff.mp atJ
          have lost := SwapRemove.swapRemove_absent Prod.fst n.entries j inside names
          rw [here] at lost
          exact entries ▸ lost
        have some_ : line ≠ [] := by
          rintro rfl
          exact dirsOf_named ok.mounted.ok.tree t.cwdIno _ listed (List.mem_map_of_mem member)
        exact ⟨number, (ok.lists_iff n found dir line number).mpr member,
          (ok.resolves_iff _ listed line number member clean relative).mpr plain,
          ok'.resolves_none _ listed' line absent some_ clean relative plain⟩

theorem creation_resolves_iff [Backing σ] (ok : ShellOk raw t nodes) (name : List UInt8) (clean : 0 ∉ name)
    (relative : name.head? ≠ some slash) (inodeType : UInt8)
    (links : NullLinks t.fs (.create t.cwdIno (name ++ [0]) inodeType)) (number : Nat) (fs : Fs σ)
    (created : fsCreate t.fs t.cwdIno (name ++ [0]) inodeType = .ok (number, fs))
    (success : number ≠ invalidIno) :
    resolvePath { t with fs := fs } name = .ok number ↔ Plain t name := by
  obtain ⟨nodes', effect, kept⟩ :=
    (fsCreate_effect ok.mounted.ok (terminated_cstring name clean) links).of_eq created
  have ok' := ok.effect fs _ _ effect kept fun k site => (Option.some.inj site).symm
  cases effect with
  | notCreated => contradiction
  | created _ _ line _ n n' ends found creates added =>
      obtain rfl : line = name := ends.text_eq.symm.trans (terminated_cstring name clean).text_eq
      have same := added.inode.1.trans (findNode_some found).2
      have old : t.fs.nextIno ≠ t.cwdIno := by
        have below := (ok.mounted.ok.shape.numbered n (findNode_some found).1).2
        rw [(findNode_some found).2] at below
        exact Nat.ne_of_gt below
      have listed : dirsOf (newNode t.fs inodeType :: replaceNode nodes t.cwdIno n') t.cwdIno =
          some n'.entries :=
        dirsOf_dir ((findNode_cons (by exact old)).trans (findNode_replaced found same))
          (added.inode.2.1.trans creates.1)
      have member : (line, t.fs.nextIno) ∈ n'.entries := by
        rw [added.entries]
        exact List.mem_append_right _ List.mem_cons_self
      exact ok'.resolves_iff _ listed line _ member clean relative

end Names

variable [Backing σ]

/-- In every session that appends blocks with null links, an argument that `mkdir`,
`touch` or `rm` works on resolves to the object they work on exactly if it is plain. -/
theorem names_resolve_iff_plain (banner : List UInt8) (back : σ) (raw : Nat → Region)
    (session : List Typed) (short : ∀ typed ∈ session, typed.line.length < maxLine)
    (links : SessionLinks banner back raw session) :
    Guarded (fun r => ∀ name, 0 ∉ name → name.head? ≠ some slash →
        (∀ inodeType number fs, NullLinks r.2.fs (.create r.2.cwdIno (name ++ [0]) inodeType) →
          fsCreate r.2.fs r.2.cwdIno (name ++ [0]) inodeType = .ok (number, fs) → number ≠ invalidIno →
          (resolvePath { r.2 with fs := fs } name = .ok number ↔ Plain r.2 name)) ∧
        ∀ fs, fsUnlink r.2.fs r.2.cwdIno (name ++ [0]) = .ok (0, fs) →
          (RemovalResolves r.2 fs name ↔ Plain r.2 name))
      (shellRun banner back raw session) := by
  apply (shellRun_ok banner back raw session short links).mono
  rintro ⟨_, t⟩ ⟨nodes, ok⟩ name clean relative
  refine ⟨?_, fun fs removed => removal_resolves_iff ok name clean relative 0 rfl fs removed⟩
  intro inodeType number fs link created success
  exact creation_resolves_iff ok name clean relative inodeType link number fs created success

def nestedSession : List Typed :=
  [⟨ascii "mkdir a", 0⟩, ⟨ascii "cd a", 1⟩, ⟨ascii "touch b", 2⟩]

theorem names_resolve_iff_plain_nested :
    ∃ r, shellRun [] Endless.mk (fun _ _ => 0) nestedSession = .ok r ∧
      ∀ name, 0 ∉ name → name.head? ≠ some slash →
        (∀ inodeType number fs, NullLinks r.2.fs (.create r.2.cwdIno (name ++ [0]) inodeType) →
          fsCreate r.2.fs r.2.cwdIno (name ++ [0]) inodeType = .ok (number, fs) → number ≠ invalidIno →
          (resolvePath { r.2 with fs := fs } name = .ok number ↔ Plain r.2 name)) ∧
        ∀ fs, fsUnlink r.2.fs r.2.cwdIno (name ++ [0]) = .ok (0, fs) →
          (RemovalResolves r.2 fs name ↔ Plain r.2 name) := by
  have short : ∀ typed ∈ nestedSession, typed.line.length < maxLine := by decide +kernel
  have guarded := names_resolve_iff_plain [] Endless.mk (fun _ _ => 0) nestedSession short
    (sessionLinks_zero [] Endless.mk _ (fun _ _ => rfl) nestedSession short)
  exact guarded.returned (by decide +kernel)

/-- `touch a/b` makes a file named `a/b`, which the path `/a/b` does not lead to. -/
theorem touch_makes_unreachable_file :
    ¬ ∀ (σ : Type) (_ : Backing σ) (banner : List UInt8) (back : σ) (raw : Nat → Region)
      (session : List Typed) (_ : ∀ typed ∈ session, typed.line.length < maxLine)
      (_ : SessionLinks banner back raw session),
      Guarded (fun r => ∀ name, 0 ∉ name → name.head? ≠ some slash →
        (∀ inodeType number fs, NullLinks r.2.fs (.create r.2.cwdIno (name ++ [0]) inodeType) →
          fsCreate r.2.fs r.2.cwdIno (name ++ [0]) inodeType = .ok (number, fs) → number ≠ invalidIno →
          resolvePath { r.2 with fs := fs } name = .ok number) ∧
        ∀ fs, fsUnlink r.2.fs r.2.cwdIno (name ++ [0]) = .ok (0, fs) → RemovalResolves r.2 fs name)
      (shellRun banner back raw session) := by
  intro claimed
  have short : ∀ typed ∈ ([] : List Typed), typed.line.length < maxLine := by simp
  have guarded := claimed Endless inferInstance [] Endless.mk (fun _ _ => 0) [] short
    (sessionLinks_zero [] Endless.mk _ (fun _ _ => rfl) [] short)
  have seen : (shellRun [] Endless.mk (fun _ _ => 0) [] >>= fun r =>
      fsCreate r.2.fs r.2.cwdIno (ascii "a/b" ++ [0]) 1 >>= fun made =>
      resolvePath { r.2 with fs := made.2 } (ascii "a/b") >>= fun number => .ok (made.1, number)) =
      (.ok (2, 0) : Run (Nat × Nat)) := by decide +kernel
  have kept := shellRun_ok [] Endless.mk (fun _ _ => 0) [] short
    (sessionLinks_zero [] Endless.mk _ (fun _ _ => rfl) [] short)
  cases result : shellRun [] Endless.mk (fun _ _ => 0) [] with
  | error stop =>
      rw [result] at seen
      contradiction
  | ok r =>
      rw [result] at seen guarded kept
      obtain ⟨nodes, ok⟩ := kept.of_eq rfl
      have links := nullLinks_null r.2.fs
        (by rw [ok.mounted.ok.shape.memory]; exact zero_null fun _ _ => rfl)
        (.create r.2.cwdIno (ascii "a/b" ++ [0]) 1)
      obtain ⟨⟨made, fs⟩, created, number, resolved, same⟩ := by
        simpa only [ok_bind, bind_ok_iff] using seen
      obtain ⟨rfl, rfl⟩ := Prod.mk.inj (Except.ok.inj same)
      have claimedNumber := (guarded.of_eq rfl (ascii "a/b") (by decide +kernel) (by decide +kernel)).1 1 2 fs
        links created (by decide)
      rw [claimedNumber, Except.ok.injEq] at resolved
      contradiction

end KehindeKernel
