import Mathlib.Data.Finset.Max

/-!
An allocator as a set of resources. `held` are the resources handed out and not
given back. Taking returns the least free resource, and giving back only matters
for a held one.
-/

namespace LeastFree

variable {α : Type} [LinearOrder α]

def free (managed held : Finset α) : Finset α := managed \ held

def take (managed held : Finset α) : Option α × Finset α :=
  if room : (free managed held).Nonempty then
    (some ((free managed held).min' room), insert ((free managed held).min' room) held)
  else (none, held)

theorem take_least (managed held : Finset α) (a : α) (member : a ∈ free managed held)
    (least : ∀ b ∈ free managed held, a ≤ b) :
    take managed held = (some a, insert a held) := by
  have room : (free managed held).Nonempty := ⟨a, member⟩
  have found : (free managed held).min' room = a :=
    le_antisymm (Finset.min'_le _ a member) (least _ (Finset.min'_mem _ room))
  simp [take, room, found]

theorem take_exhausted (managed held : Finset α) (empty : free managed held = ∅) :
    take managed held = (none, held) := by
  simp [take, empty]

/-- What is taken was free, so nothing is handed out while it is held. -/
theorem take_was_free (managed held : Finset α) (a : α)
    (taken : (take managed held).1 = some a) : a ∈ managed ∧ a ∉ held := by
  by_cases room : (free managed held).Nonempty
  · have member := Finset.min'_mem (free managed held) room
    simp only [take, room, ↓reduceDIte, Option.some.injEq] at taken
    rw [taken] at member
    exact Finset.mem_sdiff.mp member
  · simp [take, room] at taken

end LeastFree
