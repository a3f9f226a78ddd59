import KehindeKernel.FsSound

/-!
What a call leaves behind that returns its error value. The store is a value here,
so that nothing is left behind means that the state before and the state after are
equal, the position of the heap included.
-/

namespace KehindeKernel

open Outcome Bytes

variable {σ : Type}

/-- `INVALID_INO` where an inode number is returned, -1 where a code is. -/
def FsResult.Failed : FsResult → Prop
  | .done => False
  | .ino number => number = invalidIno
  | .code value => value = -1
  | .bytes value _ => value = -1
  | .entry value _ => value = -1
  | .stat value _ _ => value = -1

/-- Nothing was stored through an out-pointer. -/
def FsResult.Untouched : FsResult → Prop
  | .bytes _ out => out = []
  | .entry _ out => out = none
  | .stat _ size type => size = none ∧ type = none
  | _ => True

/-- 64-bit offsets, and buffers with room for the length. An object has fewer than
2^63 bytes. -/
def FsCall.Supplied : FsCall → Prop
  | .write _ offset len buf =>
      offset < 2 ^ 64 ∧ ∀ src, buf = some src → len ≤ src.length ∧ src.length < 2 ^ 63
  | .read _ offset len buf =>
      offset < 2 ^ 64 ∧ ∀ capacity, buf = some capacity → len ≤ capacity ∧ capacity < 2 ^ 63
  | _ => True

variable {s : Fs σ}

theorem not_failed {value : Int} (positive : 0 ≤ value) {p : Prop} (failed : value = -1) : p := by
  omega

theorem fsRead_failed (sound : Sound s) (ino offset len : Nat) (buf : Option Nat)
    (fits : ∀ capacity, buf = some capacity → len < 2 ^ 63) :
    Returns (fun r => r.1 = -1 → r.2 = []) (fsRead s ino offset len buf) := by
  have refused : Returns (fun r : Int × List UInt8 => r.1 = -1 → r.2 = []) (.ok (-1, [])) :=
    returns_ok fun _ => rfl
  cases buf with
  | none => exact refused
  | some capacity =>
      unfold fsRead
      apply returns_bind
      intro p _
      refine returns_ite (fun _ => refused) fun _ => ?_
      apply returns_bind
      intro subject fetched
      refine returns_ite (fun _ => refused) fun checked => ?_
      have stored := (fetch_ok_iff _ _).mp fetched
      have notDir : subject.inodeType ≠ 2 := by rw [not_not.mp checked]; decide
      have sizeSmall := (sound.files p subject stored notDir).small
      have lenSmall := fits capacity rfl
      simp only [payloadSize] at sizeSmall
      apply returns_bind
      intro walked _
      cases walked with
      | none => exact refused
      | some curr =>
          refine returns_ite (fun _ => returns_ok fun _ => rfl) fun _ => ?_
          apply returns_bind
          intro out _
          apply returns_ok
          intro failed
          have clamped : (if (offset + len) % 2 ^ 64 > subject.inodeSize then subject.inodeSize - offset
              else len) < 2 ^ 63 := by
            split <;> omega
          have positive := toInt64_small _ clamped
          exact not_failed (Int.natCast_nonneg _) (positive.symm.trans failed)

theorem fsReaddir_failed (dirIno index : Nat) (out : Bool) :
    Returns (fun r => r.1 = -1 → r.2 = none) (fsReaddir s dirIno index out) := by
  have refused : ∀ value : Int, Returns (fun r : Int × Option Dirent => r.1 = -1 → r.2 = none)
      (.ok (value, none)) := fun value => returns_ok fun _ => rfl
  unfold fsReaddir
  apply returns_bind
  intro p _
  refine returns_ite (fun _ => refused _) fun _ => ?_
  apply returns_bind
  intro subject _
  refine returns_ite (fun _ => refused _) fun _ => ?_
  refine returns_ite (fun _ => refused _) fun _ => ?_
  refine returns_ite (fun _ => refused _) fun _ => ?_
  apply returns_bind
  intro found _
  cases found with
  | none => exact refused _
  | some d =>
      apply returns_bind
      intro entry _
      exact returns_ok fun failed => not_failed (show (0 : Int) ≤ 1 by decide) failed

theorem fsStat_failed (ino : Nat) (sizeOut typeOut : Bool) :
    Returns (fun r => r.1 = -1 → r.2.1 = none ∧ r.2.2 = none) (fsStat s ino sizeOut typeOut) := by
  unfold fsStat
  apply returns_bind
  intro p _
  refine returns_ite (fun _ => returns_ok fun _ => ⟨rfl, rfl⟩) fun _ => ?_
  apply returns_bind
  intro n _
  exact returns_ok fun failed => not_failed (Int.le_refl 0) failed

variable [Backing σ]

theorem failed_call_iff (sound : Sound s) (call : FsCall) (supplied : call.Supplied) (out : FsResult)
    (next : Fs σ) (done : fsStep s call = .ok (out, next)) (failed : out.Failed) :
    (next = s ∧ out.Untouched) ↔ ¬ GrowsWrapped s call := by
  -- only a write can have the exception
  have stays : ¬ GrowsWrapped s call → next = s ∧ out.Untouched →
      ((next = s ∧ out.Untouched) ↔ ¬ GrowsWrapped s call) := fun straight holds =>
    ⟨fun _ => straight, fun _ => holds⟩
  cases call with
  | init =>
      obtain ⟨s1, _, last⟩ := (bind_ok_iff _ _ _).mp done
      obtain ⟨rfl, rfl⟩ := Prod.mk.inj (Except.ok.inj last)
      exact failed.elim
  | lookup path =>
      obtain ⟨number, _, last⟩ := (bind_ok_iff _ _ _).mp done
      obtain ⟨rfl, rfl⟩ := Prod.mk.inj (Except.ok.inj last)
      exact stays id ⟨rfl, trivial⟩
  | create parentIno name inodeType =>
      obtain ⟨⟨number, s1⟩, made, last⟩ := (bind_ok_iff _ _ _).mp done
      obtain ⟨rfl, rfl⟩ := Prod.mk.inj (Except.ok.inj last)
      exact stays id ⟨(fsCreate_sound sound parentIno name inodeType _ made).2 failed, trivial⟩
  | unlink parentIno name =>
      obtain ⟨⟨value, s1⟩, made, last⟩ := (bind_ok_iff _ _ _).mp done
      obtain ⟨rfl, rfl⟩ := Prod.mk.inj (Except.ok.inj last)
      exact stays id ⟨(fsUnlink_sound sound parentIno name _ made).2 failed, trivial⟩
  | write ino offset len buf =>
      obtain ⟨⟨value, s1⟩, made, last⟩ := (bind_ok_iff _ _ _).mp done
      obtain ⟨rfl, rfl⟩ := Prod.mk.inj (Except.ok.inj last)
      have trace := (fsWrite_sound sound ino offset len buf _ made).2 supplied.1 fun src given =>
        Nat.lt_of_le_of_lt (supplied.2 src given).1 (supplied.2 src given).2
      constructor
      · rintro ⟨rfl, _⟩ grows
        exact Nat.lt_irrefl _ (trace.grown grows)
      · intro straight
        exact ⟨trace.none straight failed, trivial⟩
  | read ino offset len buf =>
      obtain ⟨⟨value, bytes⟩, copied, last⟩ := (bind_ok_iff _ _ _).mp done
      obtain ⟨rfl, rfl⟩ := Prod.mk.inj (Except.ok.inj last)
      have short : ∀ capacity, buf = some capacity → len < 2 ^ 63 := fun capacity given =>
        Nat.lt_of_le_of_lt (supplied.2 capacity given).1 (supplied.2 capacity given).2
      exact stays id ⟨rfl, fsRead_failed sound ino offset len buf short _ copied failed⟩
  | readdir dirIno index pointer =>
      obtain ⟨⟨value, entry⟩, listed, last⟩ := (bind_ok_iff _ _ _).mp done
      obtain ⟨rfl, rfl⟩ := Prod.mk.inj (Except.ok.inj last)
      exact stays id ⟨rfl, fsReaddir_failed dirIno index pointer _ listed failed⟩
  | stat ino sizeOut typeOut =>
      obtain ⟨⟨value, size, type⟩, shown, last⟩ := (bind_ok_iff _ _ _).mp done
      obtain ⟨rfl, rfl⟩ := Prod.mk.inj (Except.ok.inj last)
      exact stays id ⟨rfl, fsStat_failed ino sizeOut typeOut _ shown failed⟩

/-- In every state a run reaches, in any memory: a failed call leaves no trace
exactly if it is not a write that grows the file to a wrapped end. -/
theorem failed_calls_leave_no_trace_iff (back : σ) (raw : Nat → Region) (calls : List FsCall)
    (outs : List FsResult) (s : Fs σ) (reached : fsRun back raw calls = .ok (outs, s)) (call : FsCall)
    (supplied : call.Supplied) (out : FsResult) (next : Fs σ) (done : fsStep s call = .ok (out, next))
    (failed : out.Failed) : (next = s ∧ out.Untouched) ↔ ¬ GrowsWrapped s call :=
  failed_call_iff (fsRun_sound back raw calls outs reached) call supplied out next done failed

def wrappingWrite : FsCall := .write 2 (2 ^ 64 - 1) 2 (some [1, 2])

theorem failed_calls_leave_no_trace_iff_missing : ∃ outs s next,
    fsRun Endless.mk (fun _ _ => 0) [makeFile] = .ok (outs, s) ∧
    fsStep s (.write 7 0 2 (some [1, 2])) = .ok (.code (-1), next) ∧
    ((next = s ∧ (FsResult.code (-1)).Untouched) ↔ ¬ GrowsWrapped s (.write 7 0 2 (some [1, 2]))) := by
  have seen : (fsRun Endless.mk (fun _ _ => 0) [makeFile] >>= fun r =>
      fsStep r.2 (.write 7 0 2 (some [1, 2])) >>= fun t => .ok t.1) = .ok (.code (-1)) := by decide +kernel
  obtain ⟨⟨outs, s⟩, reached, ⟨out, next⟩, done, same⟩ := by
    simpa only [bind_ok_iff] using seen
  obtain rfl : out = .code (-1) := Except.ok.inj same
  exact ⟨outs, s, next, reached, done, failed_calls_leave_no_trace_iff Endless.mk (fun _ _ => 0) [makeFile] outs s
    reached (.write 7 0 2 (some [1, 2])) (by simp [FsCall.Supplied]) _ next done rfl⟩

/-- The wrapping write returns -1 and has taken a block from the heap. -/
theorem failed_write_grows_file : ∃ outs s next,
    fsRun Endless.mk (fun _ _ => 0) [makeFile] = .ok (outs, s) ∧ wrappingWrite.Supplied ∧
    fsStep s wrappingWrite = .ok (.code (-1), next) ∧ next ≠ s := by
  have seen : (fsRun Endless.mk (fun _ _ => 0) [makeFile] >>= fun r =>
      fsStep r.2 wrappingWrite >>= fun t => .ok (t.1, r.2.heap.bumpPtr, t.2.heap.bumpPtr)) =
      .ok (.code (-1), heapBase + 4192, heapBase + 8288) := by decide +kernel
  obtain ⟨⟨outs, s⟩, reached, ⟨out, next⟩, done, same⟩ := by
    simpa only [bind_ok_iff] using seen
  obtain ⟨rfl, before, after⟩ := by
    simpa only [Prod.mk.injEq, Except.ok.injEq] using same
  refine ⟨outs, s, next, reached, by simp [wrappingWrite, FsCall.Supplied], done, ?_⟩
  rintro rfl
  rw [before] at after
  exact absurd after (by decide)

end KehindeKernel
