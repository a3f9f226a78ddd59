import Mathlib.Data.Set.Insert
import Mathlib.Logic.Relation
import KehindeKernel.Lib.Stage1

/-!
What the hardware holds on to of its walks: walks that have come part of the way, and
where addresses go. A walk begins, goes on and ends when it likes, with any word of a
table that it can see at that time, and anything may be dropped at any time. As long
as each word that can be seen is zero or the word that stays, nothing is ever held
but what the words that stay lead to.
-/

namespace Stage1

/-- A walk with `n` lookups to come, and the end of one. -/
inductive Held where
  | walk (va n table : Nat)
  | page (va : Nat) (target : Target)

namespace Regime

variable (r : Regime) (top : Nat)

/-- What can be added to what is held. -/
inductive Learns (sees : Nat → Nat → Nat → Prop) (held : Set Held) : Held → Prop where
  | begins (va : Nat) (inside : va < 2 ^ r.inputSize) : Learns sees held (.walk va r.lookups top)
  | descends (va n table word next : Nat) (known : .walk va (n + 1) table ∈ held) (seen : sees table (slot va n) word)
      (found : r.lookup va n word = .ok (.table next)) : Learns sees held (.walk va n next)
  | ends (va n table word : Nat) (target : Target) (known : .walk va (n + 1) table ∈ held)
      (seen : sees table (slot va n) word) (found : r.lookup va n word = .ok (.target target)) :
      Learns sees held (.page va target)

inductive Caches (sees : Nat → Nat → Nat → Prop) : Set Held → Set Held → Prop where
  | learns (held : Set Held) (new : Held) (learned : r.Learns top sees held new) : Caches sees held (insert new held)
  | drops (held fewer : Set Held) (subset : fewer ⊆ held) : Caches sees held fewer

/-- What the words of `mem` lead to. -/
inductive Leads (mem : Nat → Nat → Nat) : Held → Prop where
  | begins (va : Nat) (inside : va < 2 ^ r.inputSize) : Leads mem (.walk va r.lookups top)
  | descends (va n table next : Nat) (known : Leads mem (.walk va (n + 1) table))
      (found : r.lookup va n (mem table (slot va n)) = .ok (.table next)) : Leads mem (.walk va n next)
  | ends (va n table : Nat) (target : Target) (known : Leads mem (.walk va (n + 1) table))
      (found : r.lookup va n (mem table (slot va n)) = .ok (.target target)) : Leads mem (.page va target)

/-- What a walk that begins now makes of it. -/
def Agrees (mem : Nat → Nat → Nat) : Held → Prop
  | .walk va n table => r.walk mem va n table = r.translate mem top va
  | .page va target => r.translate mem top va = .ok target

variable {r : Regime} {top : Nat} {mem mem' : Nat → Nat → Nat}

theorem slot_lt (va n : Nat) : slot va n < 512 := Nat.mod_lt _ (by decide)

theorem lookup_nonzero {va n word : Nat} {found : Found} (done : r.lookup va n word = .ok found) : word ≠ 0 := by
  rintro rfl
  rw [lookup_clear] at done
  contradiction

theorem Leads.agrees {held : Held} (leads : r.Leads top mem held) : r.Agrees top mem held := by
  induction leads with
  | begins va inside => exact (if_neg (Nat.not_le.mpr inside)).symm
  | descends va n table next known found ih =>
      refine Eq.trans ?_ ih
      simp only [walk, found]
  | ends va n table target known found ih =>
      refine ih.symm.trans ?_
      simp only [walk, found]

/-- Words that are added to clear slots lead astray no walk. -/
theorem Leads.extend (kept : ∀ table i, i < 512 → mem table i = 0 ∨ mem' table i = mem table i) {held : Held}
    (leads : r.Leads top mem held) : r.Leads top mem' held := by
  have same : ∀ va n table found, r.lookup va n (mem table (slot va n)) = .ok found →
      mem' table (slot va n) = mem table (slot va n) := by
    intro va n table found done
    exact (kept table _ (slot_lt va n)).resolve_left (lookup_nonzero done)
  induction leads with
  | begins va inside => exact .begins va inside
  | descends va n table next known found ih => exact .descends va n table next ih (same va n table _ found ▸ found)
  | ends va n table target known found ih => exact .ends va n table target ih (same va n table _ found ▸ found)

section Seen

variable {sees : Nat → Nat → Nat → Prop}
  (settled : ∀ table i word, i < 512 → sees table i word → word = 0 ∨ word = mem table i)

include settled

theorem Learns.leads {held : Set Held} (sound : ∀ e ∈ held, r.Leads top mem e) {new : Held}
    (learned : r.Learns top sees held new) : r.Leads top mem new := by
  have same : ∀ va n table word found, sees table (slot va n) word → r.lookup va n word = .ok found →
      word = mem table (slot va n) := by
    intro va n table word found seen done
    exact (settled table _ word (slot_lt va n) seen).resolve_left (lookup_nonzero done)
  cases learned with
  | begins va inside => exact .begins va inside
  | descends va n table word next known seen found =>
      exact .descends va n table next (sound _ known) (same va n table word _ seen found ▸ found)
  | ends va n table word target known seen found =>
      exact .ends va n table target (sound _ known) (same va n table word _ seen found ▸ found)

theorem Caches.leads {held held' : Set Held} (caches : r.Caches top sees held held')
    (sound : ∀ e ∈ held, r.Leads top mem e) : ∀ e ∈ held', r.Leads top mem e := by
  cases caches with
  | learns new learned =>
      rintro e (rfl | old)
      · exact learned.leads settled sound
      · exact sound e old
  | drops _ subset => exact fun e member => sound e (subset member)

theorem caches_lead {held held' : Set Held} (run : Relation.ReflTransGen (r.Caches top sees) held held')
    (sound : ∀ e ∈ held, r.Leads top mem e) : ∀ e ∈ held', r.Leads top mem e := by
  induction run with
  | refl => exact sound
  | tail _ caches ih => exact caches.leads settled ih

end Seen

end Regime

end Stage1
