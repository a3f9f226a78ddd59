import KehindeKernel.Catalog
import KehindeKernel.FsRuns

/-!
Directory operations refine the catalog over whole runs, in memory whose appended
blocks have null links. A block with another first word breaks them: the next
`append_block` on its chain follows the word.
-/

namespace KehindeKernel

open Outcome Bytes

variable {σ : Type}

/-- What `fs_readdir` shows of directory `d`, position by position up to the first 0. -/
def Enumerates (s : Fs σ) (d : Nat) : Option (List Entry) → Prop
  | none => ∀ i, fsReaddir s d i true = .ok (-1, none)
  | some l =>
      (∀ i e, l[i]? = some e → ∃ out, fsReaddir s d i true = .ok (1, some out) ∧ entryOf out = e) ∧
      fsReaddir s d l.length true = .ok (0, none)

/-- The inode numbers the `fs_create` calls of a run returned. -/
def createdInos : List FsCall → List FsResult → List Nat
  | .create _ _ _ :: calls, .ino number :: outs =>
      if number = invalidIno then createdInos calls outs else number :: createdInos calls outs
  | _ :: calls, _ :: outs => createdInos calls outs
  | _, _ => []

/-- A finished run answers like the catalog, leaves the directories the catalog
has, and hands out no inode number twice. -/
structure RefinesCatalog (calls : List FsCall) (r : List FsResult × Fs σ) : Prop where
  answers : List.Forall₂ Answers r.1 (Replay.run Catalog.step Catalog.mounted calls).1
  listings : ∀ d, Enumerates r.2 d ((Replay.run Catalog.step Catalog.mounted calls).2.dirs d)
  fresh : (createdInos calls r.1).Nodup

theorem create_numbers (c : Catalog) (parent : Nat) (name : List UInt8) (inodeType : UInt8) :
    ((c.create parent name inodeType).1 = invalidIno ∧ (c.create parent name inodeType).2 = c) ∨
    ((c.create parent name inodeType).1 = c.nextIno ∧
      (c.create parent name inodeType).2.nextIno = c.nextIno + 1) := by
  unfold Catalog.create
  cases c.dirs parent with
  | none => exact Or.inl ⟨rfl, rfl⟩
  | some l =>
      by_cases accepts : Accepts l name
      · simp only [if_pos accepts]
        exact Or.inr ⟨trivial, rfl⟩
      · simp only [if_neg accepts]
        exact Or.inl ⟨trivial, trivial⟩

theorem step_nextIno (c : Catalog) (call : FsCall) : c.nextIno ≤ (c.step call).2.nextIno := by
  cases call with
  | init => exact Nat.le_succ _
  | create parent name inodeType =>
      rcases create_numbers c parent (text name) inodeType with ⟨_, same⟩ | ⟨_, next⟩
      · simp only [Catalog.step, same, Nat.le_refl]
      · simp only [Catalog.step, next, Nat.le_succ]
  | unlink parent name =>
      simp only [Catalog.step, Catalog.unlink]
      cases c.dirs parent with
      | none => exact Nat.le_refl _
      | some l =>
          dsimp only
          cases l[l.findIdx fun e => e.1 == text name]? with
          | none => exact Nat.le_refl _
          | some e =>
              dsimp only
              split <;> exact Nat.le_refl _
  | _ => exact Nat.le_refl _

/-- Numbers only go up, so none is handed out twice. -/
theorem createdInos_fresh (calls : List FsCall) (c : Catalog) (outs : List FsResult)
    (answers : List.Forall₂ Answers outs (Replay.run Catalog.step c calls).1) :
    (∀ number ∈ createdInos calls outs, c.nextIno ≤ number) ∧ (createdInos calls outs).Nodup := by
  induction calls generalizing c outs with
  | nil => simp [createdInos]
  | cons call rest ih =>
      rw [Replay.run] at answers
      cases answers with
      | @cons out _ tail _ first later =>
          obtain ⟨above, distinct⟩ := ih _ tail later
          have grown := step_nextIno c call
          have weaker : ∀ number ∈ createdInos rest tail, c.nextIno ≤ number := fun number member =>
            Nat.le_trans grown (above number member)
          cases call with
          | create parent name inodeType =>
              cases out with
              | ino number =>
                  rw [createdInos]
                  by_cases refused : number = invalidIno
                  · rw [if_pos refused]
                    exact ⟨weaker, distinct⟩
                  · rw [if_neg refused]
                    have made : number = (c.create parent (text name) inodeType).1 := first
                    rcases create_numbers c parent (text name) inodeType with ⟨zero, _⟩ | ⟨same, next⟩
                    · exact absurd (made.trans zero) refused
                    · have here : number = c.nextIno := made.trans same
                      simp only [Catalog.step, next] at above
                      refine ⟨?_, List.nodup_cons.mpr ⟨?_, distinct⟩⟩
                      · intro k member
                        rcases List.mem_cons.mp member with rfl | inside
                        · exact Nat.le_of_eq here.symm
                        · exact weaker k inside
                      · intro again
                        have past := above number again
                        omega
              | _ => exact ⟨weaker, distinct⟩
          | _ => exact ⟨weaker, distinct⟩

section Runs

variable {raw : Nat → Region} {s : Fs σ} {nodes : List Node}

theorem fsOk_enumerates (ok : FsOk raw s nodes) (d : Nat) : Enumerates s d (dirsOf nodes d) := by
  cases listed : dirsOf nodes d with
  | none =>
      intro i
      rw [fsReaddir_spec ok]
      cases found : findNode nodes d with
      | none => rfl
      | some n =>
          have file : n.inode.inodeType ≠ 2 := fun dir =>
            Option.some_ne_none _ ((dirsOf_dir found dir).symm.trans listed)
          simp [readdirResult, file]
  | some l =>
      obtain ⟨n, found, dir, rfl⟩ := dirsOf_eq_some listed
      constructor
      · intro i e here
        obtain ⟨inside, _⟩ := List.getElem?_eq_some_iff.mp here
        rw [entries_length] at inside
        rw [entries_get n i inside, Option.some.injEq] at here
        exact ⟨slotOf n.chain i, by simp [fsReaddir_spec ok, readdirResult, found, dir, inside], here⟩
      · simp [fsReaddir_spec ok, readdirResult, found, dir, entries_length]

theorem boot_catalog (s : Fs σ) (t : Fs σ) (kept : FsOk raw t [newNode s 2]) (first : s.nextIno = 1) :
    catalogOf [newNode s 2] t.nextIno = Catalog.mounted := by
  rw [catalogOf, kept.shape.counted, dirsOf_cons, first]
  rfl

variable [Backing σ]

theorem fsStep_catalog (call : FsCall) (s : Fs σ) (c : Catalog)
    (related : ∃ nodes, Mounted raw s nodes ∧ c = catalogOf nodes s.nextIno) (proper : Proper s call) :
    Guarded (fun r => Answers r.1 (c.step call).1 ∧
        ∃ nodes, Mounted raw r.2 nodes ∧ (c.step call).2 = catalogOf nodes r.2.nextIno)
      (fsStep s call) := by
  obtain ⟨nodes, mounted, rfl⟩ := related
  apply (fsStep_effect mounted.ok call proper.1 proper.2).mono
  rintro ⟨out, t⟩ ⟨nodes', effect, kept⟩
  obtain ⟨answers, same⟩ := effect_catalog mounted.ok kept call out effect
  exact ⟨answers, nodes', mounted.effect kept call out effect, same.symm⟩

/-- Whole runs answer like the catalog and end in a store that holds its directories. -/
theorem fsRun_catalog (back : σ) (raw : Nat → Region) (calls : List FsCall)
    (wf : ∀ call ∈ calls, call.WellFormed) (links : NullLinksRun back raw calls) :
    Guarded (fun r => List.Forall₂ Answers r.1 (Replay.run Catalog.step Catalog.mounted calls).1 ∧
        ∃ nodes, Mounted raw r.2 nodes ∧
          (Replay.run Catalog.step Catalog.mounted calls).2 = catalogOf nodes r.2.nextIno)
      (fsRun back raw calls) := by
  unfold fsRun
  apply (fsBoot_mounted back raw).bind_eq
  rintro s result ⟨nodes, mounted, rfl⟩
  have start := boot_catalog (fsEmpty (kheapInit back) raw) s mounted.ok rfl
  exact Replay.attempt_simulation fsStep Catalog.step
    (fun t c => ∃ nodes, Mounted raw t nodes ∧ c = catalogOf nodes t.nextIno) Answers Proper
    (fun t c call related proper => fsStep_catalog call t c related proper) calls s Catalog.mounted
    ⟨_, mounted, start.symm⟩ (proper_along calls s wf (links s result))

/-- Directory calls refine the catalog, in runs whose appended blocks have null links. -/
theorem directories_refine_catalog (back : σ) (raw : Nat → Region) (calls : List FsCall)
    (valid : ∀ call ∈ calls, call.Valid) (links : NullLinksRun back raw calls) :
    Guarded (RefinesCatalog calls) (fsRun back raw calls) := by
  apply (fsRun_catalog back raw calls (all_wellFormed valid) links).mono
  rintro ⟨outs, t⟩ ⟨answers, nodes', mounted, final⟩
  refine ⟨answers, ?_, (createdInos_fresh calls _ outs answers).2⟩
  intro d
  rw [final]
  exact fsOk_enumerates mounted.ok d

end Runs

/-- The character `'a'` and a name made of it. -/
def nameA : List UInt8 := [97, 0]

def nameB : List UInt8 := [98, 0]

theorem nameA_ends : Terminated nameA [97] := terminated_cstring [97] (by decide)

theorem nameB_ends : Terminated nameB [98] := terminated_cstring [98] (by decide)

/-- Two entries in the root, the first removed, the second listed in its place. -/
def swapCalls : List FsCall :=
  [.create 1 nameA 1, .create 1 nameB 2, .unlink 1 nameA, .readdir 1 0 true]

theorem swapCalls_valid : ∀ call ∈ swapCalls, call.Valid := by
  simp only [swapCalls, List.forall_mem_cons, List.not_mem_nil, false_imp_iff, implies_true, and_true]
  exact ⟨⟨⟨[97], nameA_ends⟩, trivial⟩, ⟨⟨[98], nameB_ends⟩, trivial⟩, ⟨⟨[97], nameA_ends⟩, trivial⟩, trivial, trivial⟩

theorem directories_refine_catalog_swap :
    ∃ r, fsRun Endless.mk (fun _ _ => 0) swapCalls = .ok r ∧ RefinesCatalog swapCalls r := by
  have guarded := directories_refine_catalog Endless.mk (fun _ _ => 0) swapCalls swapCalls_valid
    (nullLinksRun_zero Endless.mk _ (fun _ _ => rfl) swapCalls (all_wellFormed swapCalls_valid))
  exact guarded.returned (by decide +kernel)

/-- The root has a block when the second entry comes, and no entry. -/
def refillCalls : List FsCall := [.create 1 nameA 1, .unlink 1 nameA, .create 1 nameB 1]

theorem refillCalls_valid : ∀ call ∈ refillCalls, call.Valid := by
  simp only [refillCalls, List.forall_mem_cons, List.not_mem_nil, false_imp_iff, implies_true, and_true]
  exact ⟨⟨⟨[97], nameA_ends⟩, trivial⟩, ⟨⟨[97], nameA_ends⟩, trivial⟩, ⟨⟨[98], nameB_ends⟩, trivial⟩⟩

/-- In memory that does not happen to be null the second `append_block` follows
the first word of the first block. -/
theorem append_follows_garbage_link :
    ¬ ∀ (σ : Type) (_ : Backing σ) (back : σ) (raw : Nat → Region) (calls : List FsCall)
      (_ : ∀ call ∈ calls, call.Valid), Guarded (RefinesCatalog calls) (fsRun back raw calls) := by
  intro claimed
  have guarded := claimed Endless inferInstance Endless.mk (fun _ _ => 1) refillCalls refillCalls_valid
  have faults : (match fsRun Endless.mk (fun _ _ => 1) refillCalls with
      | .error .fault => true
      | _ => false) = true := by decide +kernel
  cases result : fsRun Endless.mk (fun _ _ => 1) refillCalls with
  | ok r =>
      rw [result] at faults
      exact absurd faults Bool.false_ne_true
  | error stop =>
      rw [result] at faults guarded
      cases guarded
      exact absurd faults Bool.false_ne_true

end KehindeKernel
