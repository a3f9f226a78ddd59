import KehindeKernel.ReadClamp
import KehindeKernel.ShellRuns

/-!
`cat` over its 128-byte buffer. Each trip reads 127 bytes at the offset reached so
far, puts a NUL behind them and sends the string; whatever the memory held, the
bytes sent are those of the file, and the loop ends where the file does.
-/

namespace KehindeKernel

open Outcome Bytes

variable {σ : Type}

/-- The loop of `cmd_cat` with what `buf` holds; a copy or a store past its end faults. -/
def catLoop (ino : Nat) : Nat → Nat → List UInt8 → Shell σ → Run (List UInt8 × Shell σ)
  | 0, _, _, _ => throw .hang
  | fuel + 1, offset, buf, t => do
      let (n, data) ← fsRead t.fs ino offset (buf.length - 1) (some buf.length)
      let buf := data ++ buf.drop data.length
      if n > 0 then do
        let buf ← storeAt buf n.toNat 0
        let shown ← cText buf
        catLoop ino fuel (offset + n.toNat) buf (t.puts shown)
      else if n < 0 then pure (buf, t.puts (ascii "cat: read error\r\n"))
      else pure (buf, t.puts newline)

def HasContent (s : Fs σ) (n : Inode) (content : List UInt8) : Prop :=
  content.map some = (List.range n.inodeSize).map (chainByte s n.firstBlock)

section Reads

variable {s : Fs σ} {ino : Nat} {n : Inode}

theorem HasContent.length {content : List UInt8} (holds : HasContent s n content) :
    content.length = n.inodeSize := by
  have same := congrArg List.length holds
  rwa [List.length_map, List.length_map, List.length_range] at same

theorem IsFile.content (sound : Sound s) (isFile : IsFile s ino n) : ∃ content, HasContent s n content := by
  by_cases empty : n.inodeSize = 0
  · exact ⟨[], by simp [HasContent, empty]⟩
  · have small := (isFile.fits sound).small
    simp only [payloadSize] at small
    obtain ⟨out, _, length, bytes⟩ := reads_inside sound isFile 0 n.inodeSize n.inodeSize (by omega) (by omega)
      (by omega)
    refine ⟨out, ?_⟩
    rw [Nat.sub_zero, Nat.min_self] at length
    rw [HasContent, bytes, length]
    simp only [Nat.zero_add]

theorem fsRead_content (sound : Sound s) (isFile : IsFile s ino n) {content : List UInt8}
    (holds : HasContent s n content) (offset len capacity : Nat) (within : offset ≤ content.length)
    (room : len ≤ capacity) (small : offset + len < 2 ^ 64) :
    fsRead s ino offset len (some capacity) =
      .ok ((((content.drop offset).take len).length : Int), (content.drop offset).take len) := by
  have size := holds.length
  have clamped : ReadsClamped s ino n offset len capacity := by
    by_cases inside : offset < n.inodeSize
    · exact reads_inside sound isFile offset len capacity (by omega) inside small
    · refine (reads_past_iff sound isFile offset len capacity (by omega)).mpr ?_
      apply (isFile.fits sound).room.mono
      have trips : intTrips (offset / payloadSize) ≤ offset / payloadSize := Nat.min_le_left _ _
      simp only [blocksFor, payloadSize] at *
      omega
  obtain ⟨out, returned, length, bytes⟩ := clamped
  have taken : ((content.drop offset).take len).length = out.length := by
    rw [List.length_take, List.length_drop, size, length]
  have same : out = (content.drop offset).take len := by
    apply List.map_injective_iff.mpr (Option.some_injective UInt8)
    rw [bytes, List.map_take, List.map_drop, holds]
    apply List.ext_getElem?
    intro i
    have short : out.length ≤ len := by omega
    have fits : out.length ≤ n.inodeSize - offset := by omega
    by_cases below : i < out.length
    · simp [below, show i < len by omega, show offset + i < n.inodeSize by omega]
    · rw [List.getElem?_eq_none (by simpa using Nat.not_lt.mp below), List.getElem?_eq_none]
      simp only [List.length_take, List.length_drop, List.length_map, List.length_range]
      omega
  rw [returned, ← same]

theorem fsRead_counts (sound : Sound s) (ino offset : Nat) :
    Returns (fun r => r.2.length ≤ 127 ∧ (0 < r.1 → r.1 = r.2.length)) (fsRead s ino offset 127 (some 128)) := by
  have none_ : ∀ value : Int, value ≤ 0 →
      Returns (fun r => r.2.length ≤ 127 ∧ (0 < r.1 → r.1 = r.2.length)) (.ok (value, ([] : List UInt8))) :=
    fun value low => returns_ok ⟨Nat.zero_le _, fun positive => absurd positive (Int.not_lt.mpr low)⟩
  unfold fsRead
  apply returns_bind
  intro p _
  refine returns_ite (fun _ => none_ (-1) (by decide)) fun _ => ?_
  apply returns_bind
  intro subject fetched
  refine returns_ite (fun _ => none_ (-1) (by decide)) fun checked => ?_
  apply returns_bind
  intro walked _
  cases walked with
  | none => exact none_ (-1) (by decide)
  | some curr =>
      refine returns_ite (fun _ => none_ 0 (by decide)) fun inside => ?_
      have notDir : subject.inodeType ≠ 2 := by rw [not_not.mp checked]; decide
      have small := (sound.files p subject ((fetch_ok_iff _ _).mp fetched) notDir).small
      have short : (if (offset + 127) % 2 ^ 64 > subject.inodeSize then subject.inodeSize - offset else 127) ≤
          127 := by
        simp only [payloadSize] at small
        split <;> omega
      revert short
      generalize (if (offset + 127) % 2 ^ 64 > subject.inodeSize then subject.inodeSize - offset else 127) = count
      intro short
      apply returns_bind
      intro out copied
      have length := readChunks_length 128 count count curr (offset % payloadSize) 0 out copied
      rw [Nat.sub_zero] at length
      apply returns_ok
      rw [toInt64_small count (by omega)]
      exact ⟨length.trans_le short, fun _ => by rw [length]⟩

end Reads

theorem text_cut (front rest : List UInt8) : text (front ++ 0 :: rest) = text (front ++ [0]) := by
  induction front with
  | nil => rfl
  | cons c front ih =>
      by_cases ends : c = 0
      · simp [text, ends]
      · simp only [text, List.cons_append] at ih ⊢
        rw [List.takeWhile_cons_of_pos (by simpa using ends), List.takeWhile_cons_of_pos (by simpa using ends), ih]

/-- The loop stays inside its buffer, and what it sends does not depend on what the
buffer held: it is the `cat` of the shell. -/
theorem catLoop_catChunks (ino fuel offset : Nat) (buf : List UInt8) (t : Shell σ) (sound : Sound t.fs)
    (sized : buf.length = 128) :
    (catLoop ino fuel offset buf t).map Prod.snd = catChunks ino fuel offset t ∧
      Returns (fun r => r.1.length = 128) (catLoop ino fuel offset buf t) := by
  induction fuel generalizing offset buf t with
  | zero => exact ⟨rfl, returns_error _⟩
  | succ fuel ih =>
      rw [catLoop, catChunks, sized]
      cases read : fsRead t.fs ino offset 127 (some 128) with
      | error stop => exact ⟨rfl, returns_error _⟩
      | ok r =>
          obtain ⟨n, data⟩ := r
          obtain ⟨short, counts⟩ := fsRead_counts sound ino offset _ read
          dsimp only at short counts
          have filled : (data ++ buf.drop data.length).length = 128 := by
            rw [List.length_append, List.length_drop, sized]
            omega
          simp only [ok_bind]
          by_cases positive : n > 0
          · have count := counts positive
            have place : n.toNat = data.length := by omega
            have inside : n.toNat < (data ++ buf.drop data.length).length := by omega
            -- the NUL lands right behind the bytes read, whatever lay there
            have stored : (data ++ buf.drop data.length).set n.toNat 0 =
                data ++ 0 :: buf.drop (data.length + 1) := by
              rw [place, List.set_append_right _ _ (Nat.le_refl _), Nat.sub_self,
                List.drop_eq_getElem_cons (show data.length < buf.length by omega), List.set_cons_zero]
            have shown : cText (data ++ 0 :: buf.drop (data.length + 1)) = cText (data ++ [0]) := by
              rw [cText_text _ (by simp), cText_text _ (by simp), text_cut]
            rw [if_pos positive, if_pos positive, storeAt, if_pos inside, pure_ok, ok_bind, stored, shown,
              cText_text _ (by simp), ok_bind, ok_bind]
            apply ih
            · exact sound
            · rw [← stored, List.length_set, filled]
          · rw [if_neg positive, if_neg positive]
            by_cases negative : n < 0
            · rw [if_pos negative, if_pos negative]
              exact ⟨rfl, returns_ok filled⟩
            · rw [if_neg negative, if_neg negative]
              exact ⟨rfl, returns_ok filled⟩

/-- From an offset on the loop sends the rest of what reads return, 127 bytes a trip. -/
theorem catChunks_reads (t : Shell σ) (ino : Nat) {content : List UInt8} (plain : 0 ∉ content)
    (reads : ∀ offset ≤ content.length, fsRead t.fs ino offset 127 (some 128) =
      .ok ((((content.drop offset).take 127).length : Int), (content.drop offset).take 127))
    (fuel offset : Nat) (within : offset ≤ content.length) (enough : content.length - offset + 127 ≤ 127 * fuel)
    (sent : List UInt8) :
    catChunks ino fuel offset (t.puts sent) = .ok (t.puts (sent ++ (content.drop offset ++ newline))) := by
  induction fuel generalizing offset sent with
  | zero => omega
  | succ fuel ih =>
      rw [catChunks]
      simp only [Shell.puts] at ih ⊢
      rw [reads offset within, ok_bind]
      dsimp only
      have length : ((content.drop offset).take 127).length = min 127 (content.length - offset) := by
        rw [List.length_take, List.length_drop]
      by_cases more : offset < content.length
      · have positive : (((content.drop offset).take 127).length : Int) > 0 := by omega
        have clean : 0 ∉ (content.drop offset).take 127 := fun inside =>
          plain (List.mem_of_mem_drop (List.mem_of_mem_take inside))
        rw [if_pos positive, cText_spec _ _ (terminated_cstring _ clean), ok_bind, Int.toNat_natCast,
          List.append_assoc, ih (offset + ((content.drop offset).take 127).length) (by omega) (by omega)]
        have rest : content.drop (offset + ((content.drop offset).take 127).length) =
            (content.drop offset).drop 127 := by
          rw [List.drop_drop, length]
          by_cases last : content.length - offset ≤ 127
          · rw [List.drop_eq_nil_of_le (by omega), List.drop_eq_nil_of_le (by omega)]
          · rw [Nat.min_eq_left (by omega)]
        rw [rest, List.append_assoc sent, ← List.append_assoc (List.take 127 _), List.take_append_drop]
      · have none_ : content.drop offset = [] := List.drop_eq_nil_of_le (Nat.not_lt.mp more)
        simp [none_]

theorem catChunks_content (t : Shell σ) {ino : Nat} {n : Inode} (sound : Sound t.fs) (isFile : IsFile t.fs ino n)
    {content : List UInt8} (holds : HasContent t.fs n content) (plain : 0 ∉ content) (fuel offset : Nat)
    (within : offset ≤ content.length) (enough : content.length - offset + 127 ≤ 127 * fuel) (sent : List UInt8) :
    catChunks ino fuel offset (t.puts sent) = .ok (t.puts (sent ++ (content.drop offset ++ newline))) := by
  have size := holds.length
  have small := (isFile.fits sound).small
  simp only [payloadSize] at small
  apply catChunks_reads t ino plain _ fuel offset within enough
  intro from_ inside
  exact fsRead_content sound isFile holds from_ 127 128 inside (by decide) (by omega)

variable [Backing σ]

/-- In every state a run reaches, in any memory: `cat` ends, stays inside its buffer
and sends a file without NUL bytes once and whole. -/
theorem cat_streams_file (back : σ) (raw : Nat → Region) (calls : List FsCall) (outs : List FsResult) (s : Fs σ)
    (reached : fsRun back raw calls = .ok (outs, s)) (ino : Nat) (n : Inode) (isFile : IsFile s ino n)
    (content : List UInt8) (holds : HasContent s n content) (plain : 0 ∉ content) (t : Shell σ) (same : t.fs = s)
    (buf : List UInt8) (sized : buf.length = 128) :
    (∃ buf', catLoop ino walkFuel 0 buf t = .ok (buf', t.puts (content ++ newline)) ∧ buf'.length = 128) ∧
    ∀ file rest, resolvePath t file = .ok ino → ino ≠ invalidIno →
      cmdCat t (file :: rest) = .ok (t.puts (content ++ newline)) := by
  subst same
  have sound := fsRun_sound back raw calls outs reached
  have size := holds.length
  have small := (isFile.fits sound).small
  have fuel : walkFuel = 65537 := by decide
  simp only [payloadSize] at small
  have streamed : catChunks ino walkFuel 0 t = .ok (t.puts (content ++ newline)) := by
    have all := catChunks_content t sound isFile holds plain walkFuel 0 (Nat.zero_le _) (by omega) []
    simpa [Shell.puts] using all
  constructor
  · obtain ⟨agrees, bounded⟩ := catLoop_catChunks ino walkFuel 0 buf t sound sized
    rw [streamed] at agrees
    cases looped : catLoop ino walkFuel 0 buf t with
    | error stop =>
        rw [looped] at agrees
        simp [Except.map] at agrees
    | ok r =>
        rw [looped, Except.map, Except.ok.injEq] at agrees
        exact ⟨r.1, by rw [← agrees], bounded r looped⟩
  · intro file rest resolved valid
    rw [cmdCat, resolved, ok_bind, if_neg valid, streamed]

theorem cat_streams_file_five : ∃ outs s n, ∃ t : Shell Endless,
    fsRun Endless.mk (fun _ _ => 0) [makeFile, fiveBytes] = .ok (outs, s) ∧ IsFile s 2 n ∧ t.fs = s ∧
    (∃ buf', catLoop 2 walkFuel 0 (List.replicate 128 1) t = .ok (buf', t.puts (ascii "hello" ++ newline)) ∧
      buf'.length = 128) ∧
    ∀ file rest, resolvePath t file = .ok 2 → 2 ≠ invalidIno →
      cmdCat t (file :: rest) = .ok (t.puts (ascii "hello" ++ newline)) := by
  have seen : (fsRun Endless.mk (fun _ _ => 0) [makeFile, fiveBytes] >>= fun r =>
      findInode r.2 2 >>= fun p => fetch (r.2.inodes p) >>= fun n =>
      .ok (n.inodeType, n.inodeSize, (List.range 5).map (chainByte r.2 n.firstBlock))) =
      .ok (1, 5, (ascii "hello").map some) := by decide +kernel
  obtain ⟨⟨outs, s⟩, reached, p, found, n, stored, same⟩ := by
    simpa only [bind_ok_iff] using seen
  obtain ⟨file, size, bytes⟩ : n.inodeType = 1 ∧ n.inodeSize = 5 ∧
      (List.range 5).map (chainByte s n.firstBlock) = (ascii "hello").map some := by
    simpa only [Prod.mk.injEq, Except.ok.injEq] using same
  have isFile : IsFile s 2 n := ⟨⟨p, found, (fetch_ok_iff _ _).mp stored⟩, file⟩
  have holds : HasContent s n (ascii "hello") := by rw [HasContent, size, bytes]
  exact ⟨outs, s, n, ⟨s, rootIno, [slash], []⟩, reached, isFile, rfl,
    cat_streams_file Endless.mk (fun _ _ => 0) [makeFile, fiveBytes] outs s reached 2 n isFile (ascii "hello") holds
      (by decide) ⟨s, rootIno, [slash], []⟩ rfl (List.replicate 128 1) List.length_replicate⟩

end KehindeKernel
