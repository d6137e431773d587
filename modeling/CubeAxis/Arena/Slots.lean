import CubeAxis.Arena

namespace CubeAxis

/-- A slot, and the generation it was filled in. -/
structure SlotId where
  slot : Nat
  generation : Nat
  deriving DecidableEq, Repr

/-- Values in slots, each with its generation. A new generation begins with every removal.
The slots emptied last are filled first. -/
structure Slots (α : Type) where
  slots : Array (Option (Nat × α)) := #[]
  free : List Nat := []
  generation : Nat := 0

namespace Slots

variable {α : Type}

def insert (a : Slots α) (v : α) : SlotId × Slots α :=
  let entry := some (a.generation, v)
  match a.free with
  | slot :: free =>
    (⟨slot, a.generation⟩, { a with slots := a.slots.setIfInBounds slot entry, free := free })
  | [] => (⟨a.slots.size, a.generation⟩, { a with slots := a.slots.push entry })

def get? (a : Slots α) (i : SlotId) : Option α :=
  a.slots[i.slot]?.join.bind fun entry => if entry.1 = i.generation then some entry.2 else none

def modify (a : Slots α) (i : SlotId) (change : α → α) : Slots α :=
  match a.get? i with
  | none => a
  | some v => { a with slots := a.slots.setIfInBounds i.slot (some (i.generation, change v)) }

def remove (a : Slots α) (i : SlotId) : Option α × Slots α :=
  match a.get? i with
  | none => (none, a)
  | some v => (some v,
    { slots := a.slots.setIfInBounds i.slot none
      free := i.slot :: a.free
      generation := a.generation + 1 })

/-- Number of slots that are filled. -/
def size (a : Slots α) : Nat := a.slots.countP (·.isSome)

variable {a : Slots α} {i : SlotId} {v : α}

theorem slots_of_get? (found : a.get? i = some v) :
    a.slots[i.slot]? = some (some (i.generation, v)) := by
  obtain ⟨⟨generation, w⟩, entry, here⟩ := Option.bind_eq_some_iff.mp found
  obtain ⟨slot, there, rfl⟩ := Option.bind_eq_some_iff.mp entry
  split at here
  · rename_i same
    obtain rfl : generation = i.generation := same
    cases here
    exact there
  · cases here

theorem size_remove (a : Slots α) (i : SlotId) :
    a.size = (a.remove i).2.size + (a.remove i).1.toList.length := by
  rw [remove]
  cases found : a.get? i with
  | none => rfl
  | some v =>
    obtain ⟨bound, here⟩ := Array.getElem?_eq_some_iff.mp (slots_of_get? found)
    have filled : 0 < a.slots.countP (·.isSome) :=
      Array.countP_pos_iff.mpr ⟨_, Array.mem_of_getElem here, rfl⟩
    simp only [size, Array.setIfInBounds_def, dif_pos bound, Array.countP_set, here]
    simp
    omega

instance : Arena (Slots α) SlotId α where
  empty := {}
  insert := insert
  get? := get?
  modify := modify
  remove := remove
  size := size
  size_remove := size_remove

end Slots
end CubeAxis
