import CubeAxis.Proofs.Arena

namespace CubeAxis
namespace Slots

variable {α : Type} {a : Slots α} {i j : SlotId} {v : α} {given : List SlotId} {slot : Nat}

theorem get?_of_slots {entry : Option (Nat × α)} (here : a.slots[i.slot]? = some entry) :
    a.get? i = entry.bind fun e => if e.1 = i.generation then some e.2 else none := by
  rw [get?, here]
  rfl

/-- What is found under an index depends on its slot alone. -/
theorem get?_congr {b : Slots α} (same : b.slots[i.slot]? = a.slots[i.slot]?) :
    b.get? i = a.get? i := by
  rw [get?, get?, same]

/-- Slots that are free are empty, and a slot that was filled in the present generation is
filled still. -/
structure Tidy (a : Slots α) (given : List SlotId) : Prop where
  empty : ∀ slot ∈ a.free, a.slots[slot]? = some none
  once : a.free.Nodup
  known : ∀ i ∈ given, i.slot < a.slots.size
  past : ∀ i ∈ given, i.generation ≤ a.generation
  present : ∀ i ∈ given, i.generation = a.generation → (a.get? i).isSome

theorem Tidy.not_mem_free (tidy : a.Tidy given) (live : (a.get? i).isSome) : i.slot ∉ a.free := by
  intro mem
  obtain ⟨v, found⟩ := Option.isSome_iff_exists.mp live
  have filled := (tidy.empty _ mem).symm.trans (slots_of_get? found)
  cases filled

/-- Another entry of the same generation, or none, shows under its own index alone. -/
theorem get?_write (before after : Option α) {free : List Nat} {generation : Nat}
    (here : a.slots[i.slot]? = some (before.map (i.generation, ·))) :
    (⟨a.slots.setIfInBounds i.slot (after.map (i.generation, ·)), free, generation⟩ :
        Slots α).get? j = if j = i then after else a.get? j := by
  obtain ⟨bound, -⟩ := Array.getElem?_eq_some_iff.mp here
  obtain ⟨k, present⟩ := i
  obtain ⟨l, other⟩ := j
  by_cases slot : k = l
  · subst slot
    have held : a.slots[(⟨k, other⟩ : SlotId).slot]? = some (before.map (present, ·)) := here
    rw [get?_of_slots held, get?_of_slots (Array.getElem?_setIfInBounds_self_of_lt bound)]
    by_cases same : other = present
    · cases after <;> simp [same]
    · cases before <;> cases after <;> simp [same, Ne.symm same]
  · rw [if_neg fun same => slot (SlotId.mk.inj same).1.symm]
    exact get?_congr (Array.getElem?_setIfInBounds_ne slot)

theorem size_write (before after : Option α) {free : List Nat} {generation : Nat}
    (here : a.slots[i.slot]? = some (before.map (i.generation, ·))) :
    (⟨a.slots.setIfInBounds i.slot (after.map (i.generation, ·)), free, generation⟩ :
        Slots α).size + before.toList.length = a.size + after.toList.length := by
  obtain ⟨bound, held⟩ := Array.getElem?_eq_some_iff.mp here
  have counted : before.toList.length ≤ a.slots.countP (·.isSome) := by
    cases before with
    | none => exact Nat.zero_le _
    | some v => exact Array.countP_pos_iff.mpr ⟨_, Array.mem_of_getElem held, rfl⟩
  simp only [size, Array.setIfInBounds_def, dif_pos bound, Array.countP_set, held]
  generalize a.slots.countP (·.isSome) = n at counted ⊢
  cases before <;> cases after <;> simp_all

/-- A new slot at the end holds the value, in the present generation. -/
theorem get?_push : ({ a with slots := a.slots.push (some (a.generation, v)) } : Slots α).get? i =
      if i = ⟨a.slots.size, a.generation⟩ then some v else a.get? i := by
  obtain ⟨k, generation⟩ := i
  by_cases here : k = a.slots.size
  · subst here
    have before : a.get? ⟨a.slots.size, generation⟩ = none := by
      simp [get?]
    rw [before, get?_of_slots Array.getElem?_push_size]
    simp [eq_comm]
  · rw [if_neg fun same => here (SlotId.mk.inj same).1]
    exact get?_congr (Array.getElem?_push.trans (if_neg here))

/-- The slot that is filled next, if one is free. -/
theorem Tidy.empty_head (tidy : a.Tidy given) {rest : List Nat} (free : a.free = slot :: rest) :
    a.slots[slot]? = some ((none : Option α).map (a.generation, ·)) :=
  tidy.empty slot (free ▸ List.mem_cons_self)

theorem insert_of_nil (free : a.free = []) (v : α) : a.insert v =
    (⟨a.slots.size, a.generation⟩, { a with slots := a.slots.push (some (a.generation, v)) }) := by
  simp only [insert, free]

theorem insert_of_cons {rest : List Nat} (free : a.free = slot :: rest) (v : α) : a.insert v =
    (⟨slot, a.generation⟩,
      ⟨a.slots.setIfInBounds slot (some (a.generation, v)), rest, a.generation⟩) := by
  simp only [insert, free]

theorem get?_insert (tidy : a.Tidy given) (v : α) (i : SlotId) :
    (a.insert v).2.get? i = if i = (a.insert v).1 then some v else a.get? i := by
  cases free : a.free with
  | nil =>
    rw [insert_of_nil free]
    exact get?_push
  | cons slot rest =>
    rw [insert_of_cons free]
    exact get?_write (i := ⟨slot, a.generation⟩) none (some v) (tidy.empty_head free)

theorem insert_fresh (tidy : a.Tidy given) (v : α) : (a.insert v).1 ∉ given := by
  intro mem
  cases free : a.free with
  | nil =>
    rw [insert_of_nil free] at mem
    exact Nat.lt_irrefl _ (tidy.known _ mem)
  | cons slot rest =>
    rw [insert_of_cons free] at mem
    have filled := tidy.not_mem_free (tidy.present _ mem rfl)
    rw [free] at filled
    exact filled List.mem_cons_self

theorem size_insert (tidy : a.Tidy given) (v : α) : (a.insert v).2.size = a.size + 1 := by
  cases free : a.free with
  | nil =>
    rw [insert_of_nil free]
    simp [size]
  | cons slot rest =>
    rw [insert_of_cons free]
    exact size_write (i := ⟨slot, a.generation⟩) none (some v) (tidy.empty_head free)

theorem get?_modify (a : Slots α) (i j : SlotId) (change : α → α) :
    (a.modify i change).get? j = if j = i then (a.get? j).map change else a.get? j := by
  have own : (if j = i then (a.get? j).map change else a.get? j) =
      if j = i then (a.get? i).map change else a.get? j := by
    split
    · rename_i same
      rw [same]
    · rfl
  rw [own, modify]
  cases found : a.get? i with
  | none =>
    dsimp only
    split
    · rename_i same
      rw [same, found]
      rfl
    · rfl
  | some v => exact get?_write (some v) (some (change v)) (slots_of_get? found)

theorem size_modify (a : Slots α) (i : SlotId) (change : α → α) :
    (a.modify i change).size = a.size := by
  rw [modify]
  cases found : a.get? i with
  | none => rfl
  | some v =>
    exact Nat.succ.inj (size_write (some v) (some (change v)) (slots_of_get? found))

theorem remove_fst (a : Slots α) (i : SlotId) : (a.remove i).1 = a.get? i := by
  rw [remove]
  cases a.get? i <;> rfl

theorem get?_remove (a : Slots α) (i j : SlotId) :
    (a.remove i).2.get? j = if j = i then none else a.get? j := by
  rw [remove]
  cases found : a.get? i with
  | none =>
    dsimp only
    split
    · rename_i same
      rw [same, found]
    · rfl
  | some v => exact get?_write (some v) none (slots_of_get? found)

theorem tidy_empty : ({} : Slots α).Tidy [] :=
  ⟨nofun, .nil, nofun, nofun, nofun⟩

theorem Tidy.insert (tidy : a.Tidy given) (v : α) :
    (a.insert v).2.Tidy ((a.insert v).1 :: given) := by
  have present : ∀ i ∈ (a.insert v).1 :: given, i.generation = a.generation →
      ((a.insert v).2.get? i).isSome := by
    intro i mem now
    rw [get?_insert tidy]
    split
    · rfl
    · rename_i other
      exact tidy.present i ((List.mem_cons.mp mem).resolve_left other) now
  cases free : a.free with
  | nil =>
    rw [insert_of_nil free] at present ⊢
    refine ⟨fun slot mem => ?_, tidy.once, fun i mem => ?_,
      List.forall_mem_cons.mpr ⟨Nat.le_refl _, tidy.past⟩, present⟩
    · rw [free] at mem
      cases mem
    · rw [Array.size_push]
      rcases List.mem_cons.mp mem with rfl | old
      · exact Nat.lt_succ_self _
      · exact Nat.lt_succ_of_lt (tidy.known i old)
  | cons slot rest =>
    rw [insert_of_cons free] at present ⊢
    have once := List.nodup_cons.mp (free ▸ tidy.once)
    obtain ⟨bound, -⟩ := Array.getElem?_eq_some_iff.mp (tidy.empty_head free)
    refine ⟨fun k mem => ?_, once.2, fun i mem => ?_,
      List.forall_mem_cons.mpr ⟨Nat.le_refl _, tidy.past⟩, present⟩
    · have other : slot ≠ k := fun same => once.1 (same ▸ mem)
      rw [Array.getElem?_setIfInBounds_ne other]
      exact tidy.empty k (free ▸ List.mem_cons_of_mem _ mem)
    · rw [Array.size_setIfInBounds]
      rcases List.mem_cons.mp mem with rfl | old
      · exact bound
      · exact tidy.known i old

theorem Tidy.modify (tidy : a.Tidy given) (i : SlotId) (change : α → α) :
    (a.modify i change).Tidy given := by
  have live (j : SlotId) : ((a.modify i change).get? j).isSome = (a.get? j).isSome := by
    rw [get?_modify]
    split
    · exact Option.isSome_map
    · rfl
  rw [Slots.modify] at live ⊢
  cases found : a.get? i with
  | none => exact tidy
  | some v =>
    rw [found] at live
    have filled := tidy.not_mem_free (i := i) (by rw [found]; rfl)
    refine ⟨fun slot mem => ?_, tidy.once, fun j mem => ?_, tidy.past, fun j mem now => ?_⟩
    · have other : i.slot ≠ slot := fun same => filled (same ▸ mem)
      rw [Array.getElem?_setIfInBounds_ne other]
      exact tidy.empty slot mem
    · rw [Array.size_setIfInBounds]
      exact tidy.known j mem
    · rw [live]
      exact tidy.present j mem now

theorem Tidy.remove (tidy : a.Tidy given) (i : SlotId) : (a.remove i).2.Tidy given := by
  rw [Slots.remove]
  cases found : a.get? i with
  | none => exact tidy
  | some v =>
    obtain ⟨bound, -⟩ := Array.getElem?_eq_some_iff.mp (slots_of_get? found)
    have filled := tidy.not_mem_free (i := i) (by rw [found]; rfl)
    refine ⟨fun slot mem => ?_, List.nodup_cons.mpr ⟨filled, tidy.once⟩, fun j mem => ?_,
      fun j mem => Nat.le_succ_of_le (tidy.past j mem), fun j mem now => ?_⟩
    · rcases List.mem_cons.mp mem with rfl | old
      · exact Array.getElem?_setIfInBounds_self_of_lt bound
      · have other : i.slot ≠ slot := fun same => filled (same ▸ old)
        rw [Array.getElem?_setIfInBounds_ne other]
        exact tidy.empty slot old
    · rw [Array.size_setIfInBounds]
      exact tidy.known j mem
    · -- nothing was filled yet in the generation that begins
      have before := tidy.past j mem
      exact absurd now (Nat.ne_of_lt (Nat.lt_succ_of_le before))

theorem tidy_of_leads (run : Arena.Leads (Arena.empty : Slots α) given a) : a.Tidy given := by
  induction run with
  | refl => exact tidy_empty
  | insert v _ ih => exact ih.insert v
  | modify i change _ ih => exact ih.modify i change
  | remove i _ ih => exact ih.remove i

instance : Arena.Lawful (Slots α) where
  get?_empty _ := rfl
  insert_fresh run := insert_fresh (tidy_of_leads run)
  get?_insert run := get?_insert (tidy_of_leads run)
  get?_modify := get?_modify
  remove_fst := remove_fst
  get?_remove := get?_remove
  size_empty := rfl
  size_insert run := size_insert (tidy_of_leads run)
  size_modify := size_modify

end Slots
end CubeAxis
