import CubeAxis.Proofs.Selection
import CubeAxis.Selection.Node

namespace CubeAxis
namespace Forest

/-- What the deepest node on a path hands down. -/
def reported (i : Inherited) : Forest Override → List Member → Inherited
  | nil, _ => i
  | cons .., [] => i
  | cons k o children siblings, m :: path =>
    if k == m then children.reported (i.handDown o.state) path
    else siblings.reported i (m :: path)

variable {i : Inherited} {f : Forest Override} {path : List Member} {o : Override}

theorem reported_nil (i : Inherited) (f : Forest Override) : f.reported i [] = i := by
  cases f <;> rfl

theorem ne_nil_of_siteAt? {place : List Nat} {s : Site} (found : f.siteAt? i place = some s) :
    place ≠ [] := by
  rintro rfl
  cases f <;> cases found

theorem locate_eq {α : Type} (f : Forest α) (n : Nat) (path : List Member) :
    f.locate n path = (f.locate 0 path).modifyHead (· + n) := by
  induction f generalizing n with
  | nil => rfl
  | cons k o children siblings _ ih =>
    cases path with
    | nil => rfl
    | cons m path =>
      rw [locate, locate]
      split
      · simp
      · rw [ih (n + 1), ih (0 + 1), List.modifyHead_modifyHead]
        congr 1
        funext x
        simp only [Function.comp_apply]
        omega

/-- A path is located at its deepest node. -/
theorem siteAt?_locate (i : Inherited) (f : Forest Override) (path : List Member) :
    f.locate 0 path = [] ∧ f.reported i path = i ∨
      ∃ s, f.siteAt? i (f.locate 0 path) = some s ∧ s.handsDown = f.reported i path := by
  induction f generalizing i path with
  | nil => exact Or.inl ⟨rfl, rfl⟩
  | cons k o children siblings ihBelow ihBeside =>
    rcases path with _ | ⟨m, path⟩
    · exact Or.inl ⟨rfl, rfl⟩
    · rw [locate, reported]
      by_cases here : (k == m) = true
      · rw [if_pos here, if_pos here]
        right
        rcases ihBelow (i.handDown o.state) path with ⟨place, same⟩ | ⟨s, found, same⟩
        · rw [place, same]
          exact ⟨_, rfl, rfl⟩
        · obtain ⟨x, rest, place⟩ := List.exists_cons_of_ne_nil (ne_nil_of_siteAt? found)
          rw [place] at found ⊢
          exact ⟨s, found, same⟩
      · rw [if_neg here, if_neg here, locate_eq]
        rcases ihBeside i (m :: path) with ⟨place, same⟩ | ⟨s, found, same⟩
        · rw [place]
          exact Or.inl ⟨rfl, same⟩
        · obtain ⟨x, rest, place⟩ := List.exists_cons_of_ne_nil (ne_nil_of_siteAt? found)
          rw [place] at found ⊢
          exact Or.inr ⟨s, found, same⟩

theorem reported_of_value? (found : f.value? path = some o) :
    f.reported i path = (f.inherited i path).handDown o.state := by
  induction f generalizing i path with
  | nil => cases found
  | cons k v children siblings ihBelow ihBeside =>
    rcases path with _ | ⟨m, path⟩
    · cases found
    · rw [value?_cons] at found
      rw [reported]
      split at found
      · rename_i here
        rw [if_pos here]
        rcases path with _ | ⟨b, path⟩
        · cases found
          simp [reported_nil, inherited]
        · rw [ihBelow found, inherited, if_pos here]
      · rename_i different
        rw [if_neg different, ihBeside found]
        cases path <;> simp [inherited, different]

/-- The subtree sign below a path is known to its deepest node. -/
theorem default_reported (i : Inherited) (f : Forest Override) (path : List Member) :
    (f.reported i path).default =
      ((f.inherited i path).handDown ((f.value? path).elim {} (·.state))).default := by
  induction f generalizing i path with
  | nil => rcases path with _ | ⟨m, _ | ⟨b, path⟩⟩ <;> rfl
  | cons k o children siblings ihBelow ihBeside =>
    rcases path with _ | ⟨m, path⟩
    · rfl
    · rw [reported, value?_cons]
      by_cases here : (k == m) = true
      · rw [if_pos here, if_pos here]
        rcases path with _ | ⟨b, path⟩
        · simp [reported_nil, inherited]
        · rw [ihBelow, inherited, if_pos here]
          rfl
      · rw [if_neg here, if_neg here, ihBeside]
        cases path <;> simp [inherited, here]

end Forest

namespace SelectionTree

variable {t : SelectionTree} {m : Member}

/-- What a member hands down, whether or not it has a node. -/
def handsDown (t : SelectionTree) (m : Member) : Inherited :=
  (t.inheritedBy m).handDown (t.stateOf m)

/-- The node that is found for a member hands down what is reported on its path. -/
theorem site?_find (t : SelectionTree) (m : Member) : ∃ s, t.site? (t.find m) = some s ∧
    s.handsDown = t.overrides.reported .top m.pathFromRoot := by
  rcases t.overrides.siteAt?_locate .top m.pathFromRoot with ⟨place, same⟩ | ⟨s, found, same⟩
  · rw [find, place, same]
    exact ⟨t.rootSite, rfl, rfl⟩
  · refine ⟨s, ?_, same⟩
    rw [site?, find, if_neg, if_pos rfl, found]
    exact fun none => Forest.ne_nil_of_siteAt? found (List.isEmpty_iff.mp none)

theorem descendantsDefault_find (t : SelectionTree) (m : Member) :
    (t.site? (t.find m)).map (·.descendantsDefault.sign) = some (t.handsDown m).default.sign := by
  obtain ⟨s, found, same⟩ := t.site?_find m
  rw [found, Option.map_some, Site.descendantsDefault, same, Forest.default_reported]
  rfl

theorem childrenSign_find (node : t.hasNode m = true) :
    (t.site? (t.find m)).map (·.childrenSign.sign) = some (t.handsDown m).childrenSign.sign := by
  obtain ⟨s, found, same⟩ := t.site?_find m
  obtain ⟨o, here⟩ := Option.isSome_iff_exists.mp (t.hasNode_eq m ▸ node)
  rw [found, Option.map_some, Site.childrenSign, same, Forest.reported_of_value? here, handsDown,
    stateOf, here]
  rfl

end SelectionTree
end CubeAxis
