import KehindeKernel.DirectoryRuns

/-!
`fs_lookup` against the walk its header promises. The walk follows every component
of the path; the code stops after the 16 its array has room for.
-/

namespace KehindeKernel

open Outcome Bytes DirectoryTree

def WalkFails (dirs : Nat → Option (List Entry)) (comps : List (List UInt8)) : Prop :=
  ∃ front name back here, comps = front ++ name :: back ∧ walk dirs rootIno front = some here ∧
    (name = [] ∨ dirs here = none ∨ ∃ l, dirs here = some l ∧ name ∉ l.map Prod.fst)

variable {σ : Type}

structure LookupIsWalk (s : Fs σ) (dirs : Nat → Option (List Entry)) (path line : List UInt8) : Prop where
  result : fsLookup s path = .ok (if line = [slash] then rootIno
    else (walk dirs rootIno (components line)).getD invalidIno)
  invalid : fsLookup s path = .ok invalidIno ↔ line ≠ [slash] ∧ WalkFails dirs (components line)

/-- The array of `fs_lookup` holds all components, or those it holds fail already. -/
def FitsLookup (dirs : Nat → Option (List Entry)) (line : List UInt8) : Prop :=
  (components line).length ≤ 16 ∨ walk dirs rootIno ((components line).take 16) = none

section Walks

variable {raw : Nat → Region} {s : Fs σ} {nodes : List Node}

theorem walk_valid (tree : Tree nodes) (comps : List (List UInt8)) :
    (walk (dirsOf nodes) rootIno comps).getD invalidIno = invalidIno ↔
      walk (dirsOf nodes) rootIno comps = none := by
  cases reached : walk (dirsOf nodes) rootIno comps with
  | none => simp
  | some last =>
      have above := walk_increases (dirsOf nodes) (dirsOf_grows tree) rootIno comps last reached
      have nonzero : last ≠ invalidIno := by
        simp only [rootIno, invalidIno] at *
        omega
      simp [nonzero]

theorem walkFails_iff (tree : Tree nodes) (comps : List (List UInt8)) :
    WalkFails (dirsOf nodes) comps ↔ walk (dirsOf nodes) rootIno comps = none := by
  rw [walk_eq_none]
  constructor
  · rintro ⟨front, name, back, here, split, reached, reason⟩
    refine ⟨front, name, back, here, split, reached, ?_⟩
    rw [child_eq_none]
    intro l listed
    rcases reason with rfl | absent | ⟨l', listed', missing⟩
    · exact dirsOf_named tree here l listed
    · exact absurd (listed.symm.trans absent) (Option.some_ne_none l)
    · rw [listed, Option.some.injEq] at listed'
      exact listed' ▸ missing
  · rintro ⟨front, name, back, here, split, reached, lost⟩
    refine ⟨front, name, back, here, split, reached, ?_⟩
    rw [child_eq_none] at lost
    cases listed : dirsOf nodes here with
    | none => exact Or.inr (Or.inl rfl)
    | some l => exact Or.inr (Or.inr ⟨l, rfl, lost l listed⟩)

/-- More components than the array holds, and those it holds resolve: the code
stops at the 16th, the walk goes on. -/
theorem cut_differs (tree : Tree nodes) (comps : List (List UInt8)) (long : 16 < comps.length)
    (last : Nat) (reached : walk (dirsOf nodes) rootIno (comps.take 16) = some last) :
    (walk (dirsOf nodes) rootIno comps).getD invalidIno ≠ last := by
  have grows := dirsOf_grows tree
  have whole := walk_append (dirsOf nodes) rootIno (comps.take 16) (comps.drop 16)
  rw [List.take_append_drop, reached, Option.bind_some] at whole
  have above := walk_increases (dirsOf nodes) grows rootIno _ last reached
  rw [whole]
  cases further : walk (dirsOf nodes) last (comps.drop 16) with
  | none =>
      simp only [Option.getD_none, rootIno, invalidIno] at *
      omega
  | some final =>
      have higher := walk_increases (dirsOf nodes) grows last _ final further
      rw [List.length_drop] at higher
      simp only [Option.getD_some]
      omega

theorem lookupIsWalk_iff (ok : FsOk raw s nodes) (path line : List UInt8) (ends : Terminated path line)
    (absolute : line.head? = some slash) :
    LookupIsWalk s (dirsOf nodes) path line ↔ line = [slash] ∨ FitsLookup (dirsOf nodes) line := by
  have some_ : line ≠ [] := by
    rintro rfl
    contradiction
  have returned := fsLookup_spec ok.shape ok.tree path line ends
  rw [lookupResult, if_neg some_] at returned
  by_cases bare : line = [slash]
  · rw [if_pos bare] at returned
    refine ⟨fun _ => Or.inl bare, fun _ => ⟨by rw [returned, if_pos bare], ?_⟩⟩
    rw [returned, Except.ok.injEq]
    exact ⟨fun zero => absurd zero (by decide), fun fails => absurd bare fails.1⟩
  · rw [if_neg bare] at returned
    constructor
    · intro holds
      right
      have same := holds.result
      rw [returned, if_neg bare, Except.ok.injEq] at same
      by_cases short : (components line).length ≤ 16
      · exact Or.inl short
      · right
        cases reached : walk (dirsOf nodes) rootIno ((components line).take 16) with
        | none => rfl
        | some last =>
            rw [reached, Option.getD_some] at same
            exact absurd same.symm (cut_differs ok.tree _ (Nat.not_le.mp short) last reached)
    · intro fits
      have fits : FitsLookup (dirsOf nodes) line := fits.resolve_left bare
      have same : walk (dirsOf nodes) rootIno ((components line).take 16) =
          walk (dirsOf nodes) rootIno (components line) := by
        rcases fits with short | lost
        · rw [List.take_of_length_le short]
        · have whole := walk_append (dirsOf nodes) rootIno ((components line).take 16)
            ((components line).drop 16)
          rw [List.take_append_drop, lost, Option.bind_none] at whole
          rw [lost, whole]
      rw [same] at returned
      refine ⟨by rw [returned, if_neg bare], ?_⟩
      rw [returned, Except.ok.injEq, walk_valid ok.tree, walkFails_iff ok.tree]
      exact ⟨fun lost => ⟨bare, lost⟩, fun lost => lost.2⟩

end Walks

variable [Backing σ]

/-- In every state a run reaches, the lookup of an absolute path is the tree walk
exactly when the path fits the array of `fs_lookup` or fails before its end. -/
theorem lookup_is_walk_iff_fits (back : σ) (raw : Nat → Region) (calls : List FsCall)
    (wf : ∀ call ∈ calls, call.WellFormed) (links : NullLinksRun back raw calls) :
    Guarded (fun r =>
        (∀ d, Enumerates r.2 d ((Replay.run Catalog.step Catalog.mounted calls).2.dirs d)) ∧
        ∀ path line, Terminated path line → line.head? = some slash →
          (LookupIsWalk r.2 (Replay.run Catalog.step Catalog.mounted calls).2.dirs path line ↔
            line = [slash] ∨ FitsLookup (Replay.run Catalog.step Catalog.mounted calls).2.dirs line))
      (fsRun back raw calls) := by
  apply (fsRun_catalog back raw calls wf links).mono
  rintro ⟨outs, t⟩ ⟨_, nodes, mounted, final⟩
  rw [final]
  exact ⟨fsOk_enumerates mounted.ok, fun path line => lookupIsWalk_iff mounted.ok path line⟩

def nestCalls : List FsCall := (List.range 16).map fun i => .create (i + 1) nameA 2

theorem nestCalls_valid : ∀ call ∈ nestCalls, call.Valid := by
  intro call member
  obtain ⟨i, _, rfl⟩ := List.mem_map.mp member
  exact ⟨⟨[97], nameA_ends⟩, trivial⟩

theorem lookup_is_walk_iff_fits_nested : ∃ r, fsRun Endless.mk (fun _ _ => 0) nestCalls = .ok r ∧
    (∀ d, Enumerates r.2 d ((Replay.run Catalog.step Catalog.mounted nestCalls).2.dirs d)) ∧
    ∀ path line, Terminated path line → line.head? = some slash →
      (LookupIsWalk r.2 (Replay.run Catalog.step Catalog.mounted nestCalls).2.dirs path line ↔
        line = [slash] ∨ FitsLookup (Replay.run Catalog.step Catalog.mounted nestCalls).2.dirs line) := by
  have wf := all_wellFormed nestCalls_valid
  have guarded := lookup_is_walk_iff_fits Endless.mk (fun _ _ => 0) nestCalls wf
    (nullLinksRun_zero Endless.mk _ (fun _ _ => rfl) nestCalls wf)
  exact guarded.returned (by decide +kernel)

def deepLine : List UInt8 := (List.replicate 16 [slash, 97]).flatten ++ [slash, 98]

/-- The 17th component is ignored: a missing object resolves to its directory. -/
theorem lookup_ignores_seventeenth_component :
    ¬ ∀ (σ : Type) (_ : Backing σ) (back : σ) (raw : Nat → Region) (calls : List FsCall)
      (_ : ∀ call ∈ calls, call.Valid) (_ : NullLinksRun back raw calls) (path line : List UInt8)
      (_ : Terminated path line) (_ : line.head? = some slash),
      Guarded (fun r => LookupIsWalk r.2 (Replay.run Catalog.step Catalog.mounted calls).2.dirs path line)
        (fsRun back raw calls) := by
  intro claimed
  have guarded := claimed Endless inferInstance Endless.mk (fun _ _ => 0) nestCalls nestCalls_valid
    (nullLinksRun_zero Endless.mk _ (fun _ _ => rfl) nestCalls (all_wellFormed nestCalls_valid)) (deepLine ++ [0])
    deepLine (terminated_cstring deepLine (by decide)) (by decide)
  have seen : (fsRun Endless.mk (fun _ _ => 0) nestCalls >>= fun r => fsLookup r.2 (deepLine ++ [0])) =
      .ok 17 := by decide +kernel
  have lost : (if deepLine = [slash] then rootIno
      else (walk (Replay.run Catalog.step Catalog.mounted nestCalls).2.dirs rootIno
        (components deepLine)).getD invalidIno) = invalidIno := by decide +kernel
  cases result : fsRun Endless.mk (fun _ _ => 0) nestCalls with
  | ok r =>
      rw [result] at seen guarded
      have claimedResult := (guarded.of_eq rfl).result
      rw [ok_bind] at seen
      rw [lost, seen, Except.ok.injEq] at claimedResult
      exact absurd claimedResult (by decide)
  | error stop =>
      rw [result] at seen
      contradiction

end KehindeKernel
