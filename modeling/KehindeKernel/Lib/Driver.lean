import Mathlib.Logic.Relation

/-!
Programs that talk to a device through its registers, while the device goes on by
itself between any two accesses, and interrupt handlers that run between any two
accesses of the program. A busy wait is one instruction of a program: it loads its
register as often as the device keeps it waiting.

A handler is checked by itself, against an invariant of the device and a guarantee
about its single accesses. Seen through a view that the guarantee allows for, the
interrupted program then runs on the viewed device, and not on the real one.
-/

namespace Driver

open Relation

variable {ρ α β δ ε : Type}

inductive Prog (ρ α : Type) where
  | done (value : α)
  | load (reg : ρ) (next : Nat → Prog ρ α)
  | store (reg : ρ) (value : Nat) (next : Prog ρ α)
  | spin (reg : ρ) (busy : Nat → Bool) (next : Prog ρ α)

def Prog.bind (first : Prog ρ α) (next : α → Prog ρ β) : Prog ρ β :=
  match first with
  | .done value => next value
  | .load reg rest => .load reg fun value => (rest value).bind next
  | .store reg value rest => .store reg value (rest.bind next)
  | .spin reg busy rest => .spin reg busy (rest.bind next)

instance : Monad (Prog ρ) where
  pure := .done
  bind := .bind

/-- One load, as a program. -/
def readReg (reg : ρ) : Prog ρ Nat := .load reg .done

def writeReg (reg : ρ) (value : Nat) : Prog ρ Unit := .store reg value (.done ())

@[simp] theorem done_bind (value : α) (next : α → Prog ρ β) : (Prog.done value >>= next) = next value := rfl

@[simp] theorem load_bind (reg : ρ) (rest : Nat → Prog ρ α) (next : α → Prog ρ β) :
    (Prog.load reg rest >>= next) = .load reg fun value => rest value >>= next := rfl

@[simp] theorem store_bind (reg : ρ) (value : Nat) (rest : Prog ρ α) (next : α → Prog ρ β) :
    (Prog.store reg value rest >>= next) = .store reg value (rest >>= next) := rfl

@[simp] theorem spin_bind (reg : ρ) (busy : Nat → Bool) (rest : Prog ρ α) (next : α → Prog ρ β) :
    (Prog.spin reg busy rest >>= next) = .spin reg busy (rest >>= next) := rfl

/-- A load may change the device: it takes a byte out of a queue, say. -/
structure Device (ρ δ : Type) where
  load : δ → ρ → Nat × δ
  store : δ → ρ → Nat → δ
  moves : δ → δ → Prop

inductive Step (dev : Device ρ δ) : Prog ρ α × δ → Prog ρ α × δ → Prop where
  | moved (p : Prog ρ α) (s s' : δ) (moves : dev.moves s s') : Step dev (p, s) (p, s')
  | loaded (reg : ρ) (next : Nat → Prog ρ α) (s : δ) :
      Step dev (.load reg next, s) (next (dev.load s reg).1, (dev.load s reg).2)
  | stored (reg : ρ) (value : Nat) (next : Prog ρ α) (s : δ) :
      Step dev (.store reg value next, s) (next, dev.store s reg value)
  | waited (reg : ρ) (busy : Nat → Bool) (next : Prog ρ α) (s : δ) (again : busy (dev.load s reg).1 = true) :
      Step dev (.spin reg busy next, s) (.spin reg busy next, (dev.load s reg).2)
  | passed (reg : ρ) (busy : Nat → Bool) (next : Prog ρ α) (s : δ) (ready : busy (dev.load s reg).1 = false) :
      Step dev (.spin reg busy next, s) (next, (dev.load s reg).2)

/-- Any interleaving of the program with its device. -/
abbrev Runs (dev : Device ρ δ) : Prog ρ α × δ → Prog ρ α × δ → Prop := ReflTransGen (Step dev)

/-- The device alone, as far as it likes. -/
abbrev Device.Later (dev : Device ρ δ) : δ → δ → Prop := ReflTransGen dev.moves

variable {dev : Device ρ δ}

theorem Runs.keeps {Inv : Prog ρ α × δ → Prop} (kept : ∀ x y, Inv x → Step dev x y → Inv y)
    {x y : Prog ρ α × δ} (run : Runs dev x y) (start : Inv x) : Inv y := by
  induction run with
  | refl => exact start
  | tail _ last ih => exact kept _ _ ih last

theorem runs_of_later (p : Prog ρ α) {s s' : δ} (later : dev.Later s s') : Runs dev (p, s) (p, s') := by
  induction later with
  | refl => exact .refl
  | tail _ last ih => exact ih.tail (.moved p _ _ last)

section Handler

variable {G : δ → δ → Prop} {post : α → δ → Prop}

/-- Whatever the device does in between, each access of `p` is within the guarantee
`G`, and `post` holds once `p` is done and as long as nothing else happens. A program
that waits is no handler. -/
def Meets (dev : Device ρ δ) (G : δ → δ → Prop) (post : α → δ → Prop) : Prog ρ α → δ → Prop
  | .done value, s => ∀ s', dev.Later s s' → post value s'
  | .load reg next, s => ∀ s', dev.Later s s' → G s' (dev.load s' reg).2 ∧
      Meets dev G post (next (dev.load s' reg).1) (dev.load s' reg).2
  | .store reg value next, s => ∀ s', dev.Later s s' → G s' (dev.store s' reg value) ∧
      Meets dev G post next (dev.store s' reg value)
  | .spin _ _ _, _ => False

theorem Meets.later {p : Prog ρ α} {s s' : δ} (meets : Meets dev G post p s) (later : dev.Later s s') :
    Meets dev G post p s' := by
  cases p with
  | done value => exact fun t more => meets t (later.trans more)
  | load reg next => exact fun t more => meets t (later.trans more)
  | store reg value next => exact fun t more => meets t (later.trans more)
  | spin reg busy next => exact meets

theorem Meets.step {p p' : Prog ρ α} {s s' : δ} (meets : Meets dev G post p s)
    (step : Step dev (p, s) (p', s')) : Meets dev G post p' s' ∧ (dev.moves s s' ∨ G s s') := by
  cases step with
  | moved _ _ _ moves => exact ⟨meets.later (.single moves), .inl moves⟩
  | loaded reg next => exact ⟨(meets s .refl).2, .inr (meets s .refl).1⟩
  | stored reg value next => exact ⟨(meets s .refl).2, .inr (meets s .refl).1⟩
  | waited => exact meets.elim
  | passed => exact meets.elim

theorem Meets.ends {p : Prog ρ α} {s s' : δ} {value : α} (meets : Meets dev G post p s)
    (run : Runs dev (p, s) (.done value, s')) : post value s' := by
  have kept : ∀ x y : Prog ρ α × δ, Meets dev G post x.1 x.2 → Step dev x y → Meets dev G post y.1 y.2 :=
    fun _ _ holds step => (holds.step step).1
  exact run.keeps kept meets s' .refl

/-- A handler can always go on to its end. -/
theorem Meets.finishes {p : Prog ρ α} {s : δ} (meets : Meets dev G post p s) :
    ∃ value s', Runs dev (p, s) (.done value, s') ∧ post value s' := by
  induction p generalizing s with
  | done value => exact ⟨value, s, .refl, meets s .refl⟩
  | load reg next ih =>
      obtain ⟨value, s', run, ends⟩ := ih _ (meets s .refl).2
      exact ⟨value, s', .head (.loaded reg next s) run, ends⟩
  | store reg value next ih =>
      obtain ⟨result, s', run, ends⟩ := ih (meets s .refl).2
      exact ⟨result, s', .head (.stored reg value next s) run, ends⟩
  | spin reg busy next => exact meets.elim

theorem Meets.mono {weaker : α → δ → Prop} {p : Prog ρ α} {s : δ} (meets : Meets dev G post p s)
    (implies : ∀ value s, post value s → weaker value s) : Meets dev G weaker p s := by
  induction p generalizing s with
  | done value => exact fun s' later => implies value s' (meets s' later)
  | load reg next ih => exact fun s' later => ⟨(meets s' later).1, ih _ (meets s' later).2⟩
  | store reg value next ih => exact fun s' later => ⟨(meets s' later).1, ih (meets s' later).2⟩
  | spin reg busy next => exact meets.elim

theorem Meets.bind {final : β → δ → Prop} {first : Prog ρ α} {next : α → Prog ρ β} {s : δ}
    (meets : Meets dev G (fun value s => Meets dev G final (next value) s) first s) :
    Meets dev G final (first >>= next) s := by
  induction first generalizing s with
  | done value => exact meets s .refl
  | load reg rest ih => exact fun s' later => ⟨(meets s' later).1, ih _ (meets s' later).2⟩
  | store reg value rest ih => exact fun s' later => ⟨(meets s' later).1, ih (meets s' later).2⟩
  | spin reg busy rest => exact meets.elim

/-- The device does not undo it. -/
def Stable (dev : Device ρ δ) (assertion : δ → Prop) : Prop :=
  ∀ s s', assertion s → dev.moves s s' → assertion s'

theorem Stable.later {assertion : δ → Prop} (stable : Stable dev assertion) {s s' : δ} (holds : assertion s)
    (later : dev.Later s s') : assertion s' := by
  induction later with
  | refl => exact holds
  | tail _ last ih => exact stable _ _ ih last

theorem Stable.and {first second : δ → Prop} (one : Stable dev first) (two : Stable dev second) :
    Stable dev fun s => first s ∧ second s :=
  fun s s' holds moves => ⟨one s s' holds.1 moves, two s s' holds.2 moves⟩

theorem Stable.or {first second : δ → Prop} (one : Stable dev first) (two : Stable dev second) :
    Stable dev fun s => first s ∨ second s :=
  fun s s' holds moves => holds.imp (fun left => one s s' left moves) fun right => two s s' right moves

theorem stable_prop (fact : Prop) : Stable dev fun _ => fact := fun _ _ holds _ => holds

/-- From `pre` the program meets `post`, within `G`. -/
def Triple (dev : Device ρ δ) (G : δ → δ → Prop) (pre : δ → Prop) (p : Prog ρ α) (post : α → δ → Prop) : Prop :=
  ∀ s, pre s → Meets dev G post p s

section Rules

variable {pre middle : δ → Prop}

theorem triple_pure {assertion : δ → Prop} (value : α) (stable : Stable dev assertion) :
    Triple dev G assertion (pure value) fun _ => assertion :=
  fun _ holds _ later => stable.later holds later

theorem triple_bind {between : α → δ → Prop} {final : β → δ → Prop} {first : Prog ρ α} {next : α → Prog ρ β}
    (one : Triple dev G pre first between) (two : ∀ value, Triple dev G (between value) (next value) final) :
    Triple dev G pre (first >>= next) final :=
  fun s holds => Meets.bind ((one s holds).mono two)

theorem triple_read {reg : ρ} {post : Nat → δ → Prop} (before : Stable dev pre) (after : ∀ value, Stable dev (post value))
    (access : ∀ s, pre s → G s (dev.load s reg).2 ∧ post (dev.load s reg).1 (dev.load s reg).2) :
    Triple dev G pre (readReg reg) post := by
  intro s holds s' later
  obtain ⟨within, result⟩ := access s' (before.later holds later)
  exact ⟨within, fun t more => (after _).later result more⟩

theorem triple_write {reg : ρ} {value : Nat} {after : δ → Prop} (before : Stable dev pre) (kept : Stable dev after)
    (access : ∀ s, pre s → G s (dev.store s reg value) ∧ after (dev.store s reg value)) :
    Triple dev G pre (writeReg reg value) fun _ => after := by
  intro s holds s' later
  obtain ⟨within, result⟩ := access s' (before.later holds later)
  exact ⟨within, fun t more => kept.later result more⟩

theorem triple_ite {c : Prop} [Decidable c] {left right : Prog ρ α} (yes : c → Triple dev G pre left post)
    (no : ¬ c → Triple dev G pre right post) : Triple dev G pre (if c then left else right) post := by
  split
  · exact yes ‹c›
  · exact no ‹¬ c›

theorem Triple.mono {weaker : α → δ → Prop} {p : Prog ρ α} (triple : Triple dev G pre p post)
    (implies : ∀ value s, post value s → weaker value s) : Triple dev G pre p weaker :=
  fun s holds => (triple s holds).mono implies

theorem Triple.weaken {p : Prog ρ α} (triple : Triple dev G pre p post) (stronger : ∀ s, middle s → pre s) :
    Triple dev G middle p post :=
  fun s holds => triple s (stronger s holds)

end Rules

end Handler

/-- A program, the handler that interrupts it, and their device. -/
structure Task (ρ α δ : Type) where
  main : Prog ρ α
  isr : Option (Prog ρ Unit)
  state : δ

/-- An interrupt is taken at any time at which none is being handled. -/
inductive Preempt (dev : Device ρ δ) (handler : Prog ρ Unit) : Task ρ α δ → Task ρ α δ → Prop where
  | main (p p' : Prog ρ α) (s s' : δ) (step : Step dev (p, s) (p', s')) :
      Preempt dev handler ⟨p, none, s⟩ ⟨p', none, s'⟩
  | taken (p : Prog ρ α) (s : δ) : Preempt dev handler ⟨p, none, s⟩ ⟨p, some handler, s⟩
  | inside (p : Prog ρ α) (q q' : Prog ρ Unit) (s s' : δ) (step : Step dev (q, s) (q', s')) :
      Preempt dev handler ⟨p, some q, s⟩ ⟨p, some q', s'⟩
  | returned (p : Prog ρ α) (s : δ) : Preempt dev handler ⟨p, some (.done ()), s⟩ ⟨p, none, s⟩

/-- Any interleaving of the program, its interrupts and the device. -/
abbrev Preempted (dev : Device ρ δ) (handler : Prog ρ Unit) : Task ρ α δ → Task ρ α δ → Prop :=
  ReflTransGen (Preempt dev handler)

/-- The program loads from and stores to these registers only. -/
inductive Uses (reads writes : ρ → Prop) : Prog ρ α → Prop where
  | done (value : α) : Uses reads writes (.done value)
  | load (reg : ρ) (next : Nat → Prog ρ α) (own : reads reg) (rest : ∀ value, Uses reads writes (next value)) :
      Uses reads writes (.load reg next)
  | store (reg : ρ) (value : Nat) (next : Prog ρ α) (own : writes reg) (rest : Uses reads writes next) :
      Uses reads writes (.store reg value next)
  | spin (reg : ρ) (busy : Nat → Bool) (next : Prog ρ α) (own : reads reg) (rest : Uses reads writes next) :
      Uses reads writes (.spin reg busy next)

section Registers

variable {reads writes : ρ → Prop}

theorem Uses.bind {first : Prog ρ α} {next : α → Prog ρ β} (uses : Uses reads writes first)
    (later : ∀ value, Uses reads writes (next value)) : Uses reads writes (first >>= next) := by
  induction uses with
  | done value => exact later value
  | load reg rest own _ ih => exact .load reg _ own ih
  | store reg value rest own _ ih => exact .store reg value _ own ih
  | spin reg busy rest own _ ih => exact .spin reg busy _ own ih

theorem Uses.mono {more others : ρ → Prop} {p : Prog ρ α} (uses : Uses reads writes p)
    (loads : ∀ reg, reads reg → more reg) (stores : ∀ reg, writes reg → others reg) : Uses more others p := by
  induction uses with
  | done value => exact .done value
  | load reg rest own _ ih => exact .load reg _ (loads reg own) ih
  | store reg value rest own _ ih => exact .store reg value _ (stores reg own) ih
  | spin reg busy rest own _ ih => exact .spin reg busy _ (loads reg own) ih

theorem uses_read {reg : ρ} (own : reads reg) : Uses reads writes (readReg reg) := .load reg _ own .done

theorem uses_write {reg : ρ} (own : writes reg) (value : Nat) : Uses reads writes (writeReg reg value) :=
  .store reg value _ own (.done ())

end Registers

section View

variable {seen : Device ρ ε} {view : δ → ε} {Inv : δ → Prop} {reads writes : ρ → Prop} {G : δ → δ → Prop}

/-- Through `view` the program's registers are those of the device `seen`, while `Inv`
holds; and what the device does by itself, `seen` does as well. -/
structure Hosts (dev : Device ρ δ) (seen : Device ρ ε) (view : δ → ε) (Inv : δ → Prop) (reads writes : ρ → Prop) :
    Prop where
  load : ∀ s reg, Inv s → reads reg → Inv (dev.load s reg).2 ∧
    seen.load (view s) reg = ((dev.load s reg).1, view (dev.load s reg).2)
  store : ∀ s reg value, Inv s → writes reg → Inv (dev.store s reg value) ∧
    seen.store (view s) reg value = view (dev.store s reg value)
  moves : ∀ s s', Inv s → dev.moves s s' → Inv s'
  shows_ : ∀ s s', dev.moves s s' → seen.Later (view s) (view s')

theorem Hosts.step (hosts : Hosts dev seen view Inv reads writes) {p p' : Prog ρ α} {s s' : δ} (holds : Inv s)
    (uses : Uses reads writes p) (step : Step dev (p, s) (p', s')) :
    Inv s' ∧ Uses reads writes p' ∧ Runs seen (p, view s) (p', view s') := by
  cases step with
  | moved _ _ _ moves =>
      exact ⟨hosts.moves s s' holds moves, uses, runs_of_later p (hosts.shows_ s s' moves)⟩
  | loaded reg next =>
      cases uses with
      | load _ _ own rest =>
          obtain ⟨kept, same⟩ := hosts.load s reg holds own
          have step : Step seen (.load reg next, view s) _ := .loaded reg next (view s)
          rw [same] at step
          exact ⟨kept, rest _, .single step⟩
  | stored reg value next =>
      cases uses with
      | store _ _ _ own rest =>
          obtain ⟨kept, same⟩ := hosts.store s reg value holds own
          exact ⟨kept, rest, .single (same ▸ .stored reg value p' (view s))⟩
  | waited reg busy next _ again =>
      cases uses with
      | spin _ _ _ own rest =>
          obtain ⟨kept, same⟩ := hosts.load s reg holds own
          have step : Step seen (.spin reg busy next, view s) _ :=
            .waited reg busy next (view s) (by rw [same]; exact again)
          rw [same] at step
          exact ⟨kept, .spin reg busy next own rest, .single step⟩
  | passed reg busy next _ ready =>
      cases uses with
      | spin _ _ _ own rest =>
          obtain ⟨kept, same⟩ := hosts.load s reg holds own
          have step : Step seen (.spin reg busy p', view s) _ :=
            .passed reg busy p' (view s) (by rw [same]; exact ready)
          rw [same] at step
          exact ⟨kept, rest, .single step⟩

/-- Where an interrupted program is: at its own work, with the invariant, or in a
handler that will restore it. -/
structure Attended (dev : Device ρ δ) (reads writes : ρ → Prop) (Inv : δ → Prop) (G : δ → δ → Prop)
    (x : Task ρ α δ) : Prop where
  uses : Uses reads writes x.main
  idle : x.isr = none → Inv x.state
  busy : ∀ q, x.isr = some q → Meets dev G (fun _ => Inv) q x.state

theorem Attended.preempt (hosts : Hosts dev seen view Inv reads writes) {handler : Prog ρ Unit}
    (handled : Triple dev G Inv handler fun _ => Inv)
    (silent : ∀ s s', G s s' → seen.Later (view s) (view s')) {x y : Task ρ α δ}
    (attended : Attended dev reads writes Inv G x) (preempt : Preempt dev handler x y) :
    Attended dev reads writes Inv G y ∧ Runs seen (x.main, view x.state) (y.main, view y.state) := by
  cases preempt with
  | main p p' s s' step =>
      obtain ⟨holds, uses, runs⟩ := hosts.step (attended.idle rfl) attended.uses step
      exact ⟨⟨uses, fun _ => holds, fun q some_ => absurd some_ (Option.some_ne_none q).symm⟩, runs⟩
  | taken p s =>
      refine ⟨⟨attended.uses, fun none_ => absurd none_ (Option.some_ne_none _), ?_⟩, .refl⟩
      rintro q ⟨⟩
      exact handled s (attended.idle rfl)
  | inside p q q' s s' step =>
      obtain ⟨meets, within⟩ := (attended.busy q rfl).step step
      refine ⟨⟨attended.uses, fun none_ => absurd none_ (Option.some_ne_none _), ?_⟩, ?_⟩
      · rintro r ⟨⟩
        exact meets
      · rcases within with moves | access
        · exact runs_of_later p (hosts.shows_ s s' moves)
        · exact runs_of_later p (silent s s' access)
  | returned p s =>
      refine ⟨⟨attended.uses, fun _ => attended.busy _ rfl s .refl, fun q some_ => ?_⟩, .refl⟩
      exact absurd some_ (Option.some_ne_none q).symm

/-- Interrupted or not, the program runs on the viewed device. -/
theorem Preempted.runs_seen (hosts : Hosts dev seen view Inv reads writes) {handler : Prog ρ Unit}
    (handled : Triple dev G Inv handler fun _ => Inv)
    (silent : ∀ s s', G s s' → seen.Later (view s) (view s')) {x y : Task ρ α δ}
    (run : Preempted dev handler x y) (start : Attended dev reads writes Inv G x) :
    Attended dev reads writes Inv G y ∧ Runs seen (x.main, view x.state) (y.main, view y.state) := by
  induction run with
  | refl => exact ⟨start, .refl⟩
  | tail _ last ih =>
      obtain ⟨attended, runs⟩ := ih
      obtain ⟨attended', more⟩ := attended.preempt hosts handled silent last
      exact ⟨attended', runs.trans more⟩

theorem preempted_inside {handler : Prog ρ Unit} (p : Prog ρ α) {x y : Prog ρ Unit × δ} (run : Runs dev x y) :
    Preempted dev handler ⟨p, some x.1, x.2⟩ ⟨p, some y.1, y.2⟩ := by
  induction run with
  | refl => exact .refl
  | tail _ last ih => exact ih.tail (.inside p _ _ _ _ last)

/-- No interrupt stays: the program can always get back to its own work. -/
theorem Attended.returns {handler : Prog ρ Unit} {x : Task ρ α δ} (attended : Attended dev reads writes Inv G x) :
    ∃ s, Preempted dev handler x ⟨x.main, none, s⟩ ∧ Inv s := by
  obtain ⟨p, isr, s⟩ := x
  cases isr with
  | none => exact ⟨s, .refl, attended.idle rfl⟩
  | some q =>
      obtain ⟨_, s', run, holds⟩ := (attended.busy q rfl).finishes
      exact ⟨s', (preempted_inside p run).tail (.returned p s'), holds⟩

end View

end Driver
