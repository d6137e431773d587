import CubeAxis.Proofs.Drill.Trie
import CubeAxis.Session

namespace CubeAxis
namespace Forest

variable {α σ : Type} {f : Forest α} {m : Member} {v : α} {c : Forest α}

/-- The first member of a path picks the node below which the rest is looked up. -/
theorem find?_cons_cons (f : Forest α) (m k : Member) (path : List Member) :
    f.find? (m :: k :: path) = (f.find? [m]).bind fun node => node.2.find? (k :: path) := by
  induction f with
  | nil => rfl
  | cons l v children siblings _ ih =>
    rw [find?, find?]
    split
    · rfl
    · exact ih

theorem mem_trees_of_find? (found : f.find? [m] = some (v, c)) :
    ∃ k, (k == m) = true ∧ (k, v, c) ∈ f.trees := by
  induction f with
  | nil => cases found
  | cons l w children siblings _ ih =>
    rw [find?] at found
    split at found
    · rename_i same
      cases found
      exact ⟨l, same, List.mem_cons_self⟩
    · obtain ⟨k, same, mem⟩ := ih found
      exact ⟨k, same, List.mem_cons_of_mem _ mem⟩

theorem mem_labels_of_mem_trees (mem : (m, v, c) ∈ f.trees) : m ∈ f.labels := by
  induction f with
  | nil => exact absurd mem List.not_mem_nil
  | cons l w children siblings _ ih =>
    rcases List.mem_cons.mp mem with first | later
    · cases first
      exact List.mem_cons_self
    · exact List.mem_cons_of_mem _ (ih later)

variable {rule : Rule σ} {good : σ → α → Prop} {s : σ}

theorem Obeys.of_mem_trees (obeys : f.Obeys rule good s) (mem : (m, v, c) ∈ f.trees) :
    rule.allows s m ∧ good (rule.below s m) v ∧ c.Obeys rule good (rule.below s m) := by
  induction f with
  | nil => exact absurd mem List.not_mem_nil
  | cons l w children siblings _ ih =>
    obtain ⟨allowed, _, value, below, beside⟩ := obeys
    rcases List.mem_cons.mp mem with first | later
    · cases first
      exact ⟨allowed, value, below⟩
    · exact ih beside later

theorem Obeys.find?_of_mem_trees (discrete : Discrete (rule.allows s)) (obeys : f.Obeys rule good s)
    (mem : (m, v, c) ∈ f.trees) : f.find? [m] = some (v, c) := by
  induction f with
  | nil => exact absurd mem List.not_mem_nil
  | cons l w children siblings _ ih =>
    obtain ⟨allowed, apart, _, _, beside⟩ := obeys
    rcases List.mem_cons.mp mem with first | later
    · cases first
      simp [find?]
    · have labelled := mem_labels_of_mem_trees later
      have different : ¬ (l == m) = true := by
        intro same
        have equal := discrete l m allowed (beside.allows m labelled) same
        exact apart (equal ▸ labelled)
      rw [find?, if_neg different]
      exact ih beside later

theorem eq_nil_of_anyDrilled_eq_false {f : Forest (List Member)} (quiet : f.anyDrilled = false)
    {path : List Member} {ms : List Member} (found : f.value? path = some ms) : ms = [] := by
  induction f generalizing path with
  | nil => cases found
  | cons l w children siblings ihBelow ihBeside =>
    simp only [anyDrilled, Bool.or_eq_false_iff, Bool.not_eq_false', List.isEmpty_iff] at quiet
    obtain ⟨⟨none, below⟩, beside⟩ := quiet
    rcases path with _ | ⟨m, path⟩
    · cases found
    · rw [value?, find?] at found
      split at found
      · split at found
        · cases found
          exact none
        · exact ihBelow below found
      · exact ihBeside beside found

end Forest

namespace DrillTree

/-- What is recorded below a member at the front. -/
def after (t : DrillTree) (m : Member) : DrillTree :=
  (t.below.find? [m]).elim .empty fun node => ⟨node.1, node.2⟩

theorem drilledAt_cons (t : DrillTree) (m : Member) (path : List Member) :
    t.drilledAt (m :: path) = (t.after m).drilledAt path := by
  cases path with
  | nil =>
    change (t.below.value? [m]).getD [] = (t.after m).drilled
    unfold after Forest.value?
    cases t.below.find? [m] <;> rfl
  | cons k path =>
    change (t.below.value? (m :: k :: path)).getD [] =
      ((t.after m).below.value? (k :: path)).getD []
    rw [Forest.value?, Forest.find?_cons_cons]
    unfold after Forest.value?
    cases t.below.find? [m] <;> rfl

theorem drilledAt_eq_nil {t : DrillTree} (none : t.drilled = []) (quiet : t.below.anyDrilled = false)
    (path : List Member) : t.drilledAt path = [] := by
  unfold drilledAt
  split
  · exact none
  · cases found : t.below.value? path with
    | none => rfl
    | some ms => exact Forest.eq_nil_of_anyDrilled_eq_false quiet found

/-- A member of each hierarchy, each visible given what is recorded after those
before it. -/
def Visible (t : DrillTree) (ds : List Dimension) (tuple : Tuple) : Prop :=
  List.Forall₂ (fun d m => m ∈ d.hierarchy.members) ds tuple ∧
    ∀ (i : Nat) (d : Dimension) (m : Member), ds[i]? = some d → tuple[i]? = some m →
      d.onAxis.isVisible (t.drilledAt (tuple.take i)) m = true

variable {t u : DrillTree} {d : Dimension} {ds : List Dimension} {m : Member} {tuple : Tuple}

theorem visible_nil : t.Visible [] tuple ↔ tuple = [] := by
  simp [Visible]

theorem not_visible_cons_nil : ¬ t.Visible (d :: ds) [] :=
  fun visible => nomatch visible.1

theorem visible_cons : t.Visible (d :: ds) (m :: tuple) ↔
    m ∈ d.hierarchy.members ∧ d.onAxis.isVisible t.drilled m = true ∧
      (t.after m).Visible ds tuple := by
  have head : t.drilledAt [] = t.drilled := rfl
  simp only [Visible, List.forall₂_cons]
  constructor
  · intro given
    obtain ⟨⟨inside, rest⟩, visible⟩ := given
    refine ⟨inside, ?_, rest, fun i e k atI there => ?_⟩
    · have first := visible 0 d m rfl rfl
      rwa [List.take_zero, head] at first
    · have next := visible (i + 1) e k atI there
      rwa [List.take_succ_cons, drilledAt_cons] at next
  · intro given
    obtain ⟨inside, first, rest, visible⟩ := given
    refine ⟨⟨inside, rest⟩, fun i e k atI there => ?_⟩
    cases i with
    | zero =>
      cases atI
      cases there
      rwa [List.take_zero, head]
    | succ i =>
      rw [List.take_succ_cons, drilledAt_cons]
      exact visible i e k atI there

theorem Visible.exists_cons (visible : t.Visible (d :: ds) tuple) :
    ∃ m rest, tuple = m :: rest ∧ m ∈ d.hierarchy.members ∧
      d.onAxis.isVisible t.drilled m = true ∧ (t.after m).Visible ds rest := by
  cases tuple with
  | nil => exact absurd visible not_visible_cons_nil
  | cons m rest => exact ⟨m, rest, rfl, visible_cons.mp visible⟩

theorem visible_congr (same : ∀ path, t.drilledAt path = u.drilledAt path) :
    t.Visible ds tuple ↔ u.Visible ds tuple := by
  simp only [Visible, same]

end DrillTree
end CubeAxis
