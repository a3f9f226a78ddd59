import KehindeKernel.FsEdits
import KehindeKernel.PagedHeap
import KehindeKernel.PmmBounds
import KehindeKernel.ShellRefinement

/-!
The whole kernel: `kernel_main` on a board, and a session at its shell. With enough
frames behind the image `mmu_init` leaves the heap's window its own, so in zeroed RAM
the shell is the desk without any promise about the store. What the filesystem keeps
lies in RAM, every byte of it apart, for as long as no left-over link leads elsewhere.
-/

namespace KehindeKernel

open Outcome TableTree Bytes

section Lines

variable {σ : Type} [Backing σ]

theorem shellTrip_edits (banner : List UInt8) (t : Shell σ) (typed : Typed) :
    Returns (fun r => StoreEdits t.fs r.2.fs) (shellTrip banner t typed) := by
  by_cases room : JoinRoom t typed
  swap
  · rw [shellTrip_fault banner room]
    exact returns_error .fault
  rw [shellTrip_step banner room]
  rintro ⟨out, next⟩ done
  rcases shellStep_effect banner typed next out done with prints | ⟨verb, args, _, effect⟩
  · rw [prints.fs]
  · cases effect with
    | prints _ same => rw [same.fs]; exact .refl
    | moves _ _ _ _ _ moved => rw [moved.fs]; exact .refl
    | calls call result _ _ issued => exact fsStep_edits call _ issued

end Lines

/-- What `kernel_main` sends before it runs the shell. -/
def bootLog : List UInt8 := List.flatMap ascii [
  "UART successfully initialized.\r\n",
  "Page Frame Allocator and MMU initialized.\r\n",
  "Heap allocator initialized.\r\n",
  "fs_init done.\r\n"]

/-- `kernel_main`, up to the first prompt. `timer_init` and `interrupt_init` reach
nothing of this. -/
def kernelMain (board : Board) (banner : List UInt8) (kernelEnd : Nat) (memory : Nat → BitVec 64)
    (mem : Nat → Nat → Nat) (raw : Nat → Region) : Run (Shell Machine) := do
  let m ← mmuInit board kernelEnd memory mem
  let fs ← fsBoot m raw
  let t := shellStart banner fs
  pure { t with out := bootLog ++ t.out }

def kernelRun (board : Board) (banner : List UInt8) (kernelEnd : Nat) (memory : Nat → BitVec 64)
    (mem : Nat → Nat → Nat) (raw : Nat → Region) (session : List Typed) : Run (List Unit × Shell Machine) := do
  let t ← kernelMain board banner kernelEnd memory mem raw
  Replay.attempt (shellTrip banner) t session

def Desk.boot (banner : List UInt8) : Desk :=
  { Desk.start banner Volume.mounted with out := bootLog ++ (Desk.start banner Volume.mounted).out }

/-- Frames behind the kernel image for the boot tables, the heap's tables, its pages
and the device registers. -/
def kernelFrames : Nat := 1540 + (2 + heapMaxSize / pageSize + deviceFrames)

section Boot

variable (board : Board) (known : KnownBoard board) (banner : List UInt8) (kernelEnd : Nat)
  (low : 0x80000 ≤ kernelEnd) (fits : kernelEnd ≤ physMemEnd) (memory : Nat → BitVec 64)
  (mem : Nat → Nat → Nat) (frames : kernelFrames ≤ (pmmInit kernelEnd memory).totalFrames)

include known low fits frames

theorem mmuInit_leaves : ∃ m, mmuInit board kernelEnd memory mem = .ok m ∧ BootLaw board (pmmInit kernelEnd memory) m ∧
    2 + heapMaxSize / pageSize + deviceFrames ≤ m.pmm.freeFrames.card := by
  have enough := enough_frames board known kernelEnd memory low fits ((Nat.le_add_right 1540 _).trans frames)
  obtain ⟨m, done, law⟩ := mmuInit_law board known kernelEnd low memory mem enough
  have bound := bootTables_card board known _ (pmmInit_start kernelEnd memory low fits)
  have free := law.free
  rw [kernelFrames] at frames
  exact ⟨m, done, law, by omega⟩

theorem kernelMain_desk (raw : Nat → Region) : ∃ t, kernelMain board banner kernelEnd memory mem raw = .ok t ∧
    Kept raw (Desk.boot banner) t := by
  obtain ⟨m, done, law, free⟩ := mmuInit_leaves board known kernelEnd low fits memory mem frames
  have tables := windowTables_le m
  obtain ⟨fs, booted, mounted, held⟩ := fsBoot_volume m raw
    (ample_of_frames _ m law.wellFormed (Nat.le_trans (by omega) free))
  obtain ⟨nodes, serving⟩ := shellStart_desk banner mounted held
    (CleanFiles.cons (fun _ none_ => absurd none_ List.not_mem_nil) _ 2)
  refine ⟨{ shellStart banner fs with out := bootLog ++ (shellStart banner fs).out }, ?_, nodes,
    ⟨?_, serving.held, serving.clean, serving.cwd, congrArg (bootLog ++ ·) serving.out⟩⟩
  · rw [kernelMain, done, ok_bind, booted, ok_bind]
    rfl
  · exact serving.ok.prints ⟨rfl, rfl, rfl⟩

/-- In zeroed RAM sessions at the kernel are sessions at the desk, on either board: the
machine has a frame for every page and table the heap comes to need, so the kernel
stops where the desk does. A path that does not fit its buffer ends the session here,
and is a store behind the buffer there. -/
theorem kernel_refines_desk (raw : Nat → Region) (zeros : ∀ a i, raw a i = 0) (session : List Typed)
    (readable : ∀ typed ∈ session, typed.Readable) :
    Follows (fun m r => r.2.out = m.2.out ∧ r.2.cwdPath = m.2.cwd ∧ r.2.cwdIno = m.2.here ∧
        Shows r.2.fs m.2.disk ∧ r.2.fs.heap.room = m.2.volume.room)
      (Replay.attempt (Desk.step banner) (Desk.boot banner) session)
      (kernelRun board banner kernelEnd memory mem raw session) := by
  obtain ⟨t, booted, start⟩ := kernelMain_desk board known banner kernelEnd low fits memory mem frames raw
  rw [kernelRun, booted, ok_bind]
  exact (attempt_desk zeros banner session readable start).mono fun _ _ kept => kept.seen

end Boot

theorem kernel_refines_desk_small_kernel :
    Follows (fun m r => r.2.out = m.2.out ∧ r.2.cwdPath = m.2.cwd ∧ r.2.cwdIno = m.2.here ∧
        Shows r.2.fs m.2.disk ∧ r.2.fs.heap.room = m.2.volume.room)
      (Replay.attempt (Desk.step []) (Desk.boot []) fileSession)
      (kernelRun boardPi3 [] 0x80000 (fun _ => 0#64) (fun _ _ => 0) (fun _ _ => 0) fileSession) := by
  have readable : ∀ typed ∈ fileSession, typed.Readable := by
    simp only [Typed.Readable]
    decide +kernel
  exact kernel_refines_desk boardPi3 (Or.inl rfl) [] 0x80000 (by decide) (by decide) (fun _ => 0#64) (fun _ _ => 0)
    (by decide +kernel) (fun _ _ => 0) (fun _ _ => rfl) fileSession readable

/-- Where the bytes of live objects are: each in a frame of RAM behind the bitmap of
`p` that is in use and is no page table, and no two in one place. The rest of the
address space is the identity `mmu_init` made. -/
structure ObjectsInRam (board : Board) (p : Pmm) (s : Fs Machine) : Prop where
  placed : ∀ a n, Occupies s a n → ∀ i < n, ∃ k, k < s.heap.back.pmm.totalFrames ∧
    s.heap.back.pmm.used k = true ∧
    (∀ path, TablePath path → s.heap.back.tableAt path ≠ some (s.heap.back.pmm.frame k)) ∧
    s.heap.back.pmm.inFrame k (translate s.heap.back (a + i)) ∧
    p.bitmapAddr + p.bitmapBytes ≤ s.heap.back.pmm.frame k ∧
    s.heap.back.pmm.frame k + pageSize ≤ board.peripheralBase
  apart : ∀ a n b m, Occupies s a n → Occupies s b m → ∀ i < n, ∀ j < m,
    translate s.heap.back (a + i) = translate s.heap.back (b + j) → a = b ∧ n = m ∧ i = j
  elsewhere : ∀ v, v < heapBase ∨ (heapBase + heapMaxSize ≤ v ∧ v < 2 ^ 39) →
    translate s.heap.back v = if Identity board v then v else 2 ^ 64 - 1

theorem objects_in_ram {board : Board} (known : KnownBoard board) {p : Pmm} {m : Machine} {s : Fs Machine}
    (ordered : p.bitmapAddr + p.bitmapBytes ≤ m.pmm.physMemStart)
    (addresses : ∀ v, v < 2 ^ 39 → translate m v = if Identity board v then v else 2 ^ 64 - 1)
    (placed : Placed s) (paged : Paged board m s.heap) : ObjectsInRam board p s := by
  have mapped := placed.heap.mapped
  have window := placed.heap.window
  have range : ∀ a n, Occupies s a n → ∀ i < n, heapBase ≤ a + i ∧ a + i < s.heap.heapEnd := by
    intro a n lives i inside
    obtain ⟨low, _, high⟩ := placed.inside a n lives
    omega
  refine ⟨?_, ?_, ?_⟩
  · intro a n lives i inside
    obtain ⟨low, high⟩ := range a n lives i inside
    obtain ⟨k, below, used, data, _, address, ram⟩ := paged.byte known (a + i) low high
    refine ⟨k, below, used, data, ?_, ?_, ram⟩
    · rw [address, Pmm.inFrame]
      exact ⟨Nat.le_add_right _ _, Nat.add_lt_add_left (Nat.mod_lt _ (by decide)) _⟩
    · rw [Pmm.frame, paged.start]
      exact ordered.trans (Nat.le_add_right _ _)
  · intro a n b m here there i insideI j insideJ same
    obtain ⟨lowA, highA⟩ := range a n here i insideI
    obtain ⟨lowB, highB⟩ := range b m there j insideJ
    have virtual := paged.injective known (a + i) (b + j) lowA highA lowB highB same
    rcases placed.apart a n b m here there with ⟨rfl, rfl⟩ | before | behind
    · exact ⟨rfl, rfl, by omega⟩
    · omega
    · omega
  · intro v outside
    have small : v < 2 ^ 39 := by
      rcases outside with below | ⟨_, above⟩
      · exact Nat.lt_trans below (by decide)
      · exact above
    rw [translate_congr v (paged.elsewhere v small (by omega)), addresses v small]

section Machine

variable (board : Board) (known : KnownBoard board) (banner : List UInt8) (kernelEnd : Nat)
  (low : 0x80000 ≤ kernelEnd) (fits : kernelEnd ≤ physMemEnd) (memory : Nat → BitVec 64)
  (mem : Nat → Nat → Nat) (frames : kernelFrames ≤ (pmmInit kernelEnd memory).totalFrames)
  (raw : Nat → Region) (session : List Typed)

include known low fits frames

theorem kernelRun_edits : ∃ m, mmuInit board kernelEnd memory mem = .ok m ∧
    BootLaw board (pmmInit kernelEnd memory) m ∧
    2 + heapMaxSize / pageSize + deviceFrames ≤ m.pmm.freeFrames.card ∧
    Returns (fun r => StoreEdits (fsEmpty (kheapInit m) raw) r.2.fs)
      (kernelRun board banner kernelEnd memory mem raw session) := by
  obtain ⟨m, done, law, free⟩ := mmuInit_leaves board known kernelEnd low fits memory mem frames
  refine ⟨m, done, law, free, ?_⟩
  rw [kernelRun, kernelMain, done, ok_bind, bind_assoc]
  apply returns_bind
  intro fs booted
  rintro ⟨outs, last⟩ ran
  exact Replay.attempt_invariant (shellTrip banner) (fun t => StoreEdits (fsEmpty (kheapInit m) raw) t.fs)
    (fun t typed out next edits stepped => edits.trans (shellTrip_edits banner t typed _ stepped))
    session _ outs last (fsInit_edits fs booted) ran

theorem kernelRun_paged : ∃ m, BootLaw board (pmmInit kernelEnd memory) m ∧
    Returns (fun r => Placed r.2.fs ∧ Paged board m r.2.fs.heap)
      (kernelRun board banner kernelEnd memory mem raw session) := by
  obtain ⟨m, _, law, free, keeps⟩ :=
    kernelRun_edits board known banner kernelEnd low fits memory mem frames raw session
  refine ⟨m, law, keeps.mono fun r edits => ⟨edits.placed (placed_empty m raw), ?_⟩⟩
  exact edits.heap (fun _ size p h' small paged served => paged.kmalloc known size p h' small served)
    (kheapInit_paged board m law.wellFormed free)

end Machine

/-- After every session that returns, the filesystem's objects are in RAM that is theirs,
and the address space outside the heap is as `mmu_init` left it. A link out of what RAM
held before that leads to no object ends a session with a fault here. -/
theorem kernel_objects_in_ram (board : Board) (known : KnownBoard board) (banner : List UInt8) (kernelEnd : Nat)
    (low : 0x80000 ≤ kernelEnd) (fits : kernelEnd ≤ physMemEnd) (memory : Nat → BitVec 64)
    (mem : Nat → Nat → Nat) (frames : kernelFrames ≤ (pmmInit kernelEnd memory).totalFrames)
    (raw : Nat → Region) (session : List Typed) :
    Returns (fun r => ObjectsInRam board (pmmInit kernelEnd memory) r.2.fs)
      (kernelRun board banner kernelEnd memory mem raw session) := by
  obtain ⟨m, law, keeps⟩ := kernelRun_paged board known banner kernelEnd low fits memory mem frames raw session
  have ordered := (pmmInit_placed memory fits).beforeFrames
  rw [← law.start] at ordered
  exact keeps.mono fun _ holds => objects_in_ram known ordered law.addresses holds.1 holds.2

theorem kernel_objects_in_ram_small_kernel :
    Returns (fun r => ObjectsInRam boardPi3 (pmmInit 0x80000 fun _ => 0#64) r.2.fs)
      (kernelRun boardPi3 [] 0x80000 (fun _ => 0#64) (fun _ _ => 0) (fun _ _ => 255) fileSession) :=
  kernel_objects_in_ram boardPi3 (Or.inl rfl) [] 0x80000 (by decide) (by decide) (fun _ => 0#64) (fun _ _ => 0)
    (by decide +kernel) (fun _ _ => 255) fileSession

end KehindeKernel
