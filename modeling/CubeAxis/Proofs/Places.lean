import CubeAxis.Forest
import Mathlib.Data.List.Basic
import Mathlib.Data.List.Lex

namespace CubeAxis

/-- A list does not come after one that it starts. -/
theorem not_prefix_of_lex {a b : List Nat} (before : List.Lex (· < ·) a b) : ¬ b <+: a := by
  induction before with
  | nil => simp
  | cons _ ih => exact fun within => ih (List.cons_prefix_cons.mp within).2
  | rel less => exact fun within => less.ne' (List.cons_prefix_cons.mp within).1

namespace Forest

variable {α : Type} {f : Forest α} {place : List Nat} {n : Nat}

/-- The label and the value at a place. -/
def nodeAt? {α : Type} : Forest α → List Nat → Option (Member × α)
  | nil, _ => none
  | cons .., [] => none
  | cons m v _ _, [0] => some (m, v)
  | cons _ _ children _, 0 :: place => children.nodeAt? place
  | cons _ _ _ siblings, (k + 1) :: place => siblings.nodeAt? (k :: place)

/-- The labels met on the way down to a place, its own included. -/
def route : Forest α → List Nat → List Member
  | nil, _ => []
  | cons .., [] => []
  | cons m _ children _, 0 :: place => m :: children.route place
  | cons _ _ _ siblings, (k + 1) :: place => siblings.route (k :: place)

@[simp]
theorem route_nil (f : Forest α) : f.route [] = [] := by
  cases f <;> rfl

theorem exists_le_of_mem_places (mem : place ∈ f.places n) :
    ∃ k rest, place = k :: rest ∧ n ≤ k := by
  induction f generalizing n with
  | nil => exact absurd mem List.not_mem_nil
  | cons m v children siblings _ ihBeside =>
    rw [places] at mem
    rcases List.mem_cons.mp mem with rfl | later
    · exact ⟨n, [], rfl, Nat.le_refl n⟩
    · rcases List.mem_append.mp later with below | beside
      · obtain ⟨rest, _, rfl⟩ := List.mem_map.mp below
        exact ⟨n, rest, rfl, Nat.le_refl n⟩
      · obtain ⟨k, rest, rfl, bound⟩ := ihBeside beside
        exact ⟨k, rest, rfl, Nat.le_of_succ_le bound⟩

/-- No place is empty, so nothing depends on what would be read off the empty one. -/
theorem map_places_congr {β : Type} {read other : List Nat → β}
    (same : ∀ k rest, read (k :: rest) = other (k :: rest)) (f : Forest α) (n : Nat) :
    (f.places n).map read = (f.places n).map other := by
  refine List.map_congr_left fun place mem => ?_
  obtain ⟨k, rest, rfl, _⟩ := exists_le_of_mem_places mem
  exact same k rest

theorem places_eq (f : Forest α) (n : Nat) :
    f.places n = (f.places 0).map (List.modifyHead (· + n)) := by
  induction f generalizing n with
  | nil => rfl
  | cons m v children siblings _ ihBeside =>
    have shift : List.modifyHead (· + n) ∘ List.modifyHead (· + (0 + 1)) =
        List.modifyHead (· + (n + 1)) := by
      funext place
      cases place <;> simp [Nat.add_comm, Nat.add_left_comm]
    rw [places, places, ihBeside (n + 1), ihBeside (0 + 1)]
    simp only [List.map_cons, List.map_append, List.map_map, shift]
    simp [Function.comp_def]

/-- What is read off the places of a forest is read off its first node, off the places
below it and off those of its siblings. -/
theorem map_places_cons {β : Type} (m : Member) (v : α) (children siblings : Forest α)
    (read : List Nat → β) : ((cons m v children siblings).places 0).map read =
      read [0] :: (((children.places 0).map fun place => read (0 :: place)) ++
        (siblings.places 0).map fun place => read (place.modifyHead (· + 1))) := by
  rw [places, places_eq siblings]
  simp [Function.comp_def]

theorem succ_cons_mem_places {k : Nat} :
    (k + 1) :: place ∈ f.places (n + 1) ↔ k :: place ∈ f.places n := by
  induction f generalizing n with
  | nil => simp [places]
  | cons m v children siblings _ ihBeside => simp [places, ihBeside]

/-- The places are those that have a node. -/
theorem mem_places_iff_nodeAt? : place ∈ f.places 0 ↔ ∃ node, f.nodeAt? place = some node := by
  induction f generalizing place with
  | nil => simp [places, nodeAt?]
  | cons m v children siblings ihBelow ihBeside =>
    have later : place ∈ siblings.places 1 → ∃ k rest, place = (k + 1) :: rest := by
      intro mem
      obtain ⟨k, rest, rfl, bound⟩ := exists_le_of_mem_places mem
      exact ⟨k - 1, rest, by rw [Nat.sub_add_cancel bound]⟩
    rcases place with _ | ⟨_ | k, _ | ⟨l, place⟩⟩
    · simpa [places, nodeAt?] using later
    · simp [places, nodeAt?]
    · have beside : 0 :: l :: place ∉ siblings.places 1 := by simpa using later
      simpa [places, nodeAt?, beside] using ihBelow
    · simpa [places, nodeAt?, succ_cons_mem_places] using ihBeside
    · simpa [places, nodeAt?, succ_cons_mem_places] using ihBeside

/-- The places stand in lexicographic order: that of a node before those below it, and these
before those of its later siblings. -/
theorem pairwise_lex_places (f : Forest α) (n : Nat) :
    (f.places n).Pairwise (List.Lex (· < ·)) := by
  induction f generalizing n with
  | nil => exact .nil
  | cons m v children siblings ihBelow ihBeside =>
    rw [places]
    refine List.pairwise_cons.mpr ⟨fun place later => ?_,
      List.pairwise_append.mpr ⟨?_, ihBeside (n + 1), ?_⟩⟩
    · rcases List.mem_append.mp later with below | beside
      · obtain ⟨rest, mem, rfl⟩ := List.mem_map.mp below
        obtain ⟨k, rest, rfl, _⟩ := exists_le_of_mem_places mem
        exact .cons .nil
      · obtain ⟨k, rest, rfl, bound⟩ := exists_le_of_mem_places beside
        exact .rel bound
    · exact List.pairwise_map.mpr ((ihBelow 0).imp .cons)
    · intro a below b beside
      obtain ⟨rest, _, rfl⟩ := List.mem_map.mp below
      obtain ⟨k, rest', rfl, bound⟩ := exists_le_of_mem_places beside
      exact .rel bound

/-- No place is listed twice, nor after one further down. -/
theorem pairwise_places (f : Forest α) (n : Nat) : (f.places n).Pairwise fun a b => ¬ b <+: a :=
  (f.pairwise_lex_places n).imp not_prefix_of_lex

end Forest
end CubeAxis
