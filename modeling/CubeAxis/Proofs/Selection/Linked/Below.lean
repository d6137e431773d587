import CubeAxis.Proofs.Selection.Absorption

namespace CubeAxis
namespace Forest

variable {α β : Type} {f : Forest α} {m k : Member} {v : α} {n : Nat} {place rest : List Nat}
  {path later : List Member} {make : Nat → α} {update : α → α}

/-- The same nodes with other values. -/
def map (φ : α → β) : Forest α → Forest β
  | nil => nil
  | cons m v children siblings => cons m (φ v) (children.map φ) (siblings.map φ)

/-- The forest below the node at a place, the whole one at the top. -/
def under : Forest α → List Nat → Forest α
  | f, [] => f
  | nil, _ :: _ => nil
  | cons _ _ children _, 0 :: place => children.under place
  | cons _ _ _ siblings, (k + 1) :: place => siblings.under (k :: place)

section map

variable (φ : α → β)

theorem size_map (f : Forest α) : (f.map φ).size = f.size := by
  induction f with
  | nil => rfl
  | cons m v children siblings ihBelow ihBeside => rw [map, size, size, ihBelow, ihBeside]

theorem labels_map (f : Forest α) : (f.map φ).labels = f.labels := by
  induction f with
  | nil => rfl
  | cons m v children siblings _ ihBeside => rw [map, labels, labels, ihBeside]

theorem places_map (f : Forest α) (n : Nat) : (f.map φ).places n = f.places n := by
  induction f generalizing n with
  | nil => rfl
  | cons m v children siblings ihBelow ihBeside => rw [map, places, places, ihBelow, ihBeside]

theorem locate_map (f : Forest α) (n : Nat) (path : List Member) :
    (f.map φ).locate n path = f.locate n path := by
  induction f generalizing n path with
  | nil => rfl
  | cons k v children siblings ihBelow ihBeside =>
    cases path with
    | nil => rfl
    | cons m path => rw [map, locate, locate, ihBelow, ihBeside]

theorem missing_map (f : Forest α) (path : List Member) :
    (f.map φ).missing path = f.missing path := by
  induction f generalizing path with
  | nil => cases path <;> rfl
  | cons k v children siblings ihBelow ihBeside =>
    cases path with
    | nil => rfl
    | cons m path => rw [map, missing, missing, ihBelow, ihBeside]

theorem appendAt?_map (f : Forest α) (m : Member) (v : α) (place : List Nat) :
    (f.map φ).appendAt? m (φ v) place = (f.appendAt? m v place).map (map φ) := by
  induction f generalizing place with
  | nil => cases place <;> rfl
  | cons k w children siblings ihBelow ihBeside =>
    rcases place with _ | ⟨_ | i, place⟩
    · rw [map, appendAt?, appendAt?, ihBeside, Option.map_map, Option.map_map]
      rfl
    · rw [map, appendAt?, appendAt?, ihBelow, Option.map_map, Option.map_map]
      rfl
    · rw [map, appendAt?, appendAt?, ihBeside, Option.map_map, Option.map_map]
      rfl

theorem adjust_map {change : β → β} (same : ∀ v, φ (update v) = change (φ v)) (f : Forest α)
    (path : List Member) : (f.map φ).adjust change path = (f.adjust update path).map φ := by
  induction f generalizing path with
  | nil => rfl
  | cons k v children siblings ihBelow ihBeside =>
    cases path with
    | nil => rfl
    | cons m path =>
      rw [map, adjust, adjust, ihBelow, ihBeside]
      split
      · split
        · rw [map, same]
        · rfl
      · rfl

end map

@[simp]
theorem under_nil (f : Forest α) : f.under [] = f := by
  cases f <;> rfl

@[simp]
theorem missing_nil (f : Forest α) : f.missing [] = 0 := by
  cases f <;> rfl

/-- The way to a place goes through as many nodes of the path as are there. -/
theorem length_locate (f : Forest α) (n : Nat) (path : List Member) :
    (f.locate n path).length + f.missing path = path.length := by
  induction f generalizing n path with
  | nil => cases path <;> simp [locate, missing]
  | cons k v children siblings ihBelow ihBeside =>
    rcases path with _ | ⟨m, path⟩
    · rfl
    · rw [locate, missing]
      split
      · rw [List.length_cons, List.length_cons, Nat.add_right_comm, ihBelow]
      · exact ihBeside _ _

theorem locate_ne_nil (there : f.missing path = 0) (any : path ≠ []) : f.locate n path ≠ [] := by
  intro none
  have counted := f.length_locate n path
  rw [none, there] at counted
  exact any (List.eq_nil_of_length_eq_zero counted.symm)

/-- Behind a first sibling the way to a node begins one further on. -/
theorem exists_locate_eq (there : f.missing path = 0) (any : path ≠ []) :
    ∃ i place, f.locate 0 path = i :: place ∧ f.locate (0 + 1) path = (i + 1) :: place := by
  obtain ⟨i, place, located⟩ := List.exists_cons_of_ne_nil (locate_ne_nil (n := 0) there any)
  refine ⟨i, place, located, ?_⟩
  rw [locate_eq, located]
  rfl

theorem missing_eq_zero_iff (any : path ≠ []) : f.missing path = 0 ↔ (f.value? path).isSome := by
  induction f generalizing path with
  | nil =>
    obtain ⟨m, path, rfl⟩ := List.exists_cons_of_ne_nil any
    simp [missing, value?, find?]
  | cons k v children siblings ihBelow ihBeside =>
    obtain ⟨m, path, rfl⟩ := List.exists_cons_of_ne_nil any
    rw [missing, value?_cons]
    split
    · cases path with
      | nil => exact iff_of_true (missing_nil children) rfl
      | cons l path => exact ihBelow (List.cons_ne_nil l path)
    · exact ihBeside any

/-- Behind the nodes that are there the path goes on in the forest under the last of them. -/
theorem locate_append (there : f.missing path = 0) (later : List Member) :
    f.locate 0 (path ++ later) =
      f.locate 0 path ++ (f.under (f.locate 0 path)).locate 0 later := by
  induction f generalizing path with
  | nil =>
    cases path with
    | nil => rfl
    | cons m path => cases there
  | cons k v children siblings ihBelow ihBeside =>
    rcases path with _ | ⟨m, path⟩
    · rfl
    · rw [missing] at there
      rw [List.cons_append, locate, locate]
      split at there
      · rename_i here
        rw [if_pos here, if_pos here, ihBelow there]
        rfl
      · rename_i other
        obtain ⟨i, place, located, further⟩ := exists_locate_eq there (List.cons_ne_nil m path)
        have beside := ihBeside there
        rw [located, List.cons_append] at beside
        rw [if_neg other, if_neg other, further, locate_eq, beside]
        rfl

theorem missing_append (there : f.missing path = 0) (later : List Member) :
    f.missing (path ++ later) = (f.under (f.locate 0 path)).missing later := by
  have whole := f.length_locate 0 (path ++ later)
  have upper := f.length_locate 0 path
  have lower := (f.under (f.locate 0 path)).length_locate 0 later
  rw [locate_append there, List.length_append, List.length_append] at whole
  omega

/-- A path that begins with a member without a top node leads nowhere. -/
theorem locate_cons_of_missing (absent : f.missing [m] ≠ 0) (n : Nat) (path : List Member) :
    f.locate n (m :: path) = [] := by
  induction f generalizing n with
  | nil => rfl
  | cons k v children siblings _ ihBeside =>
    rw [missing] at absent
    rw [locate]
    split at absent
    · exact absurd (missing_nil children) absent
    · rename_i other
      rw [if_neg other]
      exact ihBeside absent (n + 1)

/-- Where a path is there, an update is all that is left to do. -/
theorem upsert_of_there (make : Nat → α) (n : Nat) (there : f.missing path = 0) :
    f.upsert make update n path = f.adjust update path := by
  induction f generalizing path with
  | nil =>
    cases path with
    | nil => rfl
    | cons m path => cases there
  | cons k v children siblings ihBelow ihBeside =>
    rcases path with _ | ⟨m, path⟩
    · rfl
    · rw [missing] at there
      rw [upsert, adjust]
      split at there
      · rename_i here
        rw [if_pos here, if_pos here, ihBelow there]
      · rename_i other
        rw [if_neg other, if_neg other, ihBeside there]

theorem adjust_id (f : Forest α) (path : List Member) : f.adjust id path = f := by
  induction f generalizing path with
  | nil => rfl
  | cons k v children siblings ihBelow ihBeside =>
    rcases path with _ | ⟨m, path⟩
    · rfl
    · rw [adjust, ihBelow, ihBeside]
      split
      · split <;> rfl
      · rfl

/-- An update of a path first makes the nodes and then does the rest. -/
theorem upsert_eq_adjust (f : Forest α) (n : Nat) (path : List Member) :
    f.upsert make update n path = (f.upsert make id n path).adjust update path := by
  rw [← upsert_of_there make n (missing_upsert f id path), upsert_upsert]
  rfl

/-- The first node that a path lacks is added behind the nodes that are there. -/
theorem appendAt?_locate (make : Nat → α) (there : f.missing path = 0)
    (absent : f.missing (path ++ [m]) ≠ 0) :
    f.appendAt? m (make n) (f.locate 0 path) = some (f.upsert make id n (path ++ [m])) := by
  induction f generalizing path with
  | nil =>
    cases path with
    | nil => rfl
    | cons m path => cases there
  | cons k v children siblings ihBelow ihBeside =>
    rcases path with _ | ⟨a, path⟩
    · rw [List.nil_append, missing] at absent
      rw [List.nil_append, locate, appendAt?, upsert]
      split at absent
      · exact absurd (missing_nil children) absent
      · rename_i other
        have beside := ihBeside (missing_nil siblings) absent
        rw [locate_nil] at beside
        rw [if_neg other]
        exact congrArg (Option.map _) beside
    · rw [missing] at there
      rw [List.cons_append, missing] at absent
      rw [List.cons_append, locate, upsert]
      split at there
      · rename_i here
        rw [if_pos here] at absent
        rw [if_pos here, if_pos here, if_neg (by simp), appendAt?, ihBelow there absent]
        rfl
      · rename_i other
        rw [if_neg other] at absent
        obtain ⟨i, place, located, further⟩ := exists_locate_eq there (List.cons_ne_nil a path)
        have beside := ihBeside there absent
        rw [located] at beside
        rw [if_neg other, if_neg other, further]
        exact congrArg (Option.map _) beside

/-- With the first node that a path lacks made, the rest is made as it would have been. -/
theorem upsert_upsert_append (make : Nat → α) (there : f.missing path = 0)
    (absent : f.missing (path ++ [m]) ≠ 0) (later : List Member) :
    (f.upsert make id n (path ++ [m])).upsert make id (n + 1) (path ++ m :: later) =
        f.upsert make id n (path ++ m :: later) ∧
      f.missing (path ++ m :: later) =
        (f.upsert make id n (path ++ [m])).missing (path ++ m :: later) + 1 := by
  induction f generalizing path with
  | nil =>
    cases path with
    | cons m path => cases there
    | nil =>
      change (cons m (make n) nil nil).upsert make id (n + 1) (m :: later) =
          branch make id (m :: later) n ∧
        later.length + 1 = (cons m (make n) nil nil).missing (m :: later) + 1
      rw [upsert, missing, if_pos BEq.rfl, if_pos BEq.rfl]
      cases later <;> exact ⟨rfl, rfl⟩
  | cons k v children siblings ihBelow ihBeside =>
    rcases path with _ | ⟨a, path⟩
    · rw [List.nil_append, missing] at absent
      split at absent
      · exact absurd (missing_nil children) absent
      · rename_i other
        have beside := ihBeside (missing_nil siblings) absent
        simp only [List.nil_append] at beside ⊢
        simp only [upsert, missing, if_neg other, beside, true_and]
    · rw [missing] at there
      rw [List.cons_append, missing] at absent
      split at there
      · rename_i here
        rw [if_pos here] at absent
        have below := ihBelow there absent
        have more : ∀ rest : List Member, (path ++ m :: rest).isEmpty = false := by simp
        simp only [List.cons_append, upsert, missing, if_pos here, more, Bool.false_eq_true,
          if_false, below, true_and]
      · rename_i other
        rw [if_neg other] at absent
        have beside := ihBeside there absent
        simp only [List.cons_append] at beside
        simp only [List.cons_append, upsert, missing, if_neg other, beside, true_and]

/-- Nodes keep their places when another is added. -/
theorem nodeAt?_appendAt? {g : Forest α} {w : α} {upper : List Nat}
    (made : f.appendAt? m w upper = some g) (found : f.nodeAt? place = some (k, v)) :
    g.nodeAt? place = some (k, v) := by
  induction f generalizing upper place g with
  | nil => cases found
  | cons l x children siblings ihBelow ihBeside =>
    rcases upper with _ | ⟨_ | c, upper⟩
    · obtain ⟨beside, step, rfl⟩ := Option.map_eq_some_iff.mp made
      rcases place with _ | ⟨_ | d, place⟩
      · cases found
      · cases place <;> exact found
      · have further : beside.nodeAt? (d :: place) = some (k, v) := ihBeside step found
        exact further
    · obtain ⟨below, step, rfl⟩ := Option.map_eq_some_iff.mp made
      rcases place with _ | ⟨_ | d, _ | ⟨e, place⟩⟩
      · cases found
      · exact found
      · have lower : below.nodeAt? (e :: place) = some (k, v) := ihBelow step found
        exact lower
      · exact found
      · exact found
    · obtain ⟨beside, step, rfl⟩ := Option.map_eq_some_iff.mp made
      rcases place with _ | ⟨_ | d, place⟩
      · cases found
      · cases place <;> exact found
      · have further : beside.nodeAt? (d :: place) = some (k, v) := ihBeside step found
        exact further

end Forest
end CubeAxis
