import CubeAxis.Proofs.Drill.Positions
import CubeAxis.Session
import Mathlib.Data.List.Induction
import Mathlib.Data.List.Pairwise

namespace CubeAxis

/-- Every step along a path from the root is let in. -/
def Admitted (enter : List Member → Member → Bool) (path : List Member) : Prop :=
  ∀ i (h : i < path.length), enter (path.take i) path[i] = true

instance (enter : List Member → Member → Bool) : DecidablePred (Admitted enter) :=
  fun path => inferInstanceAs (Decidable (∀ i (_ : i < path.length), _))

namespace Admitted

variable {enter : List Member → Member → Bool} {path p : List Member} {m : Member}

theorem nil : Admitted enter [] :=
  fun _ h => absurd h (Nat.not_lt_zero _)

theorem concat_iff : Admitted enter (path ++ [m]) ↔ Admitted enter path ∧ enter path m = true := by
  constructor
  · intro admitted
    refine ⟨fun i h => ?_, ?_⟩
    · have step := admitted i (by rw [List.length_append]; omega)
      rwa [List.take_append_of_le_length h.le, List.getElem_append_left h] at step
    · simpa using admitted path.length (by simp)
  · rintro ⟨before, last⟩ i h
    rw [List.length_append, List.length_singleton] at h
    rcases Nat.lt_or_eq_of_le (Nat.le_of_lt_succ h) with inside | rfl
    · rw [List.take_append_of_le_length inside.le, List.getElem_append_left inside]
      exact before i inside
    · simpa using last

theorem of_append (admitted : Admitted enter (path ++ p)) : Admitted enter path := by
  induction p using List.reverseRecOn with
  | nil => rwa [List.append_nil] at admitted
  | append_singleton p m ih =>
    rw [← List.append_assoc] at admitted
    exact ih (concat_iff.mp admitted).1

end Admitted

variable {α : Type} {enter : List Member → Member → Bool} {path q : List Member}

namespace Forest

/-- What is met stands below the path the traversal came from. -/
theorem exists_append_of_mem_visit {f : Forest α} {v : α} (met : (q, v) ∈ f.visit enter path) :
    ∃ p, q = path ++ p := by
  induction f generalizing path with
  | nil => exact absurd met List.not_mem_nil
  | cons k w children siblings ihBelow ihBeside =>
    rcases mem_visit_cons.mp met with ⟨_, node | lower⟩ | later
    · cases node
      exact ⟨[k], rfl⟩
    · obtain ⟨p, rfl⟩ := ihBelow lower
      exact ⟨k :: p, List.append_assoc path [k] p⟩
    · exact ihBeside later

/-- A traversal that skips children meets, in the same order, those nodes of the full
one whose paths it lets in. -/
theorem visit_eq_filter (f : Forest α) (admitted : Admitted enter path) :
    f.visit enter path =
      (f.visit (fun _ _ => true) path).filter fun node => Admitted enter node.1 := by
  induction f generalizing path with
  | nil => rfl
  | cons k w children siblings ihBelow ihBeside =>
    rw [visit, visit, if_pos rfl, List.filter_append, ← ihBeside admitted]
    congr 1
    by_cases step : enter path k = true
    · have further := Admitted.concat_iff.mpr ⟨admitted, step⟩
      rw [if_pos step, ihBelow further, List.filter_cons_of_pos]
      exact decide_eq_true further
    · -- nothing below a refused child is let in, however far down it stands
      rw [if_neg step, eq_comm, List.filter_eq_nil_iff]
      rintro ⟨q, v⟩ met
      have below : ∃ p, q = path ++ [k] ++ p := by
        rcases List.mem_cons.mp met with node | lower
        · cases node
          exact ⟨[], (List.append_nil _).symm⟩
        · exact exists_append_of_mem_visit lower
      obtain ⟨p, rfl⟩ := below
      rw [decide_eq_true_eq]
      exact fun all => step (Admitted.concat_iff.mp all.of_append).2

end Forest

namespace DrillTree

variable {t : DrillTree} {dims : List AxisDimension} {p : Position} {m : Member}

theorem visit_eq_filter (t : DrillTree) (enter : List Member → Member → Bool) :
    t.visit enter = (t.visit fun _ _ => true).filter fun node => Admitted enter node.1 := by
  rw [visit, visit, Forest.visit_eq_filter _ Admitted.nil, List.filter_cons_of_pos]
  exact decide_eq_true Admitted.nil

/-- A position no longer than the axis whose members are visible, each on the dimension
at its place and given what is recorded after the members before it. -/
def Shown (t : DrillTree) (dims : List AxisDimension) (p : Position) : Prop :=
  ∃ _ : p.length ≤ dims.length,
    ∀ i (_ : i < p.length), dims[i].isVisible (t.drilledAt (p.take i)) p[i] = true

instance (t : DrillTree) (dims : List AxisDimension) : DecidablePred (t.Shown dims) :=
  fun p => inferInstanceAs (Decidable (∃ _ : p.length ≤ dims.length, ∀ i (_ : i < p.length), _))

/-- The checks made on the way down and at its end are the ones a position has to pass. -/
theorem shown_iff_admitted : t.Shown dims p ↔ Admitted (t.shows dims) p := by
  constructor
  · rintro ⟨fits, visible⟩ i h
    rw [shows, List.length_take_of_le h.le, List.getElem?_eq_getElem (h.trans_le fits)]
    exact visible i h
  · intro admitted
    have shown : ∀ i (h : i < p.length), ∃ inside : i < dims.length,
        dims[i].isVisible (t.drilledAt (p.take i)) p[i] = true := by
      intro i h
      have step := admitted i h
      rw [shows, List.length_take_of_le h.le, Option.any_eq_true] at step
      obtain ⟨d, there, visible⟩ := step
      obtain ⟨inside, rfl⟩ := List.getElem?_eq_some_iff.mp there
      exact ⟨inside, visible⟩
    refine ⟨?_, fun i h => (shown i h).2⟩
    by_contra long
    exact Nat.lt_irrefl _ (shown dims.length (Nat.lt_of_not_le long)).1

theorem shown_concat : t.Shown dims (p ++ [m]) ↔ t.Shown dims p ∧ t.shows dims p m = true := by
  rw [shown_iff_admitted, shown_iff_admitted, Admitted.concat_iff]

/-- What is listed at the nodes of admitted paths and visible there are the positions
that are shown. -/
theorem flatMap_shown (nodes : List (List Member × List Member)) :
    ((nodes.filter fun node => Admitted (t.shows dims) node.1).flatMap fun node =>
        (node.2.filter (t.shows dims node.1)).map (node.1 ++ [·])) =
      (nodes.flatMap fun node => node.2.map (node.1 ++ [·])).filter fun p => t.Shown dims p := by
  induction nodes with
  | nil => rfl
  | cons node nodes ih =>
    rw [List.flatMap_cons, List.filter_append, ← ih, List.filter_map]
    by_cases admitted : Admitted (t.shows dims) node.1
    · rw [List.filter_cons_of_pos (by exact decide_eq_true admitted), List.flatMap_cons]
      congr 2
      refine List.filter_congr fun m _ => ?_
      simp [shown_concat, shown_iff_admitted.mpr admitted]
    · rw [List.filter_cons_of_neg (by simpa using admitted), eq_comm]
      have none : node.2.filter ((fun p => decide (t.Shown dims p)) ∘ (node.1 ++ [·])) = [] := by
        refine List.filter_eq_nil_iff.mpr fun m _ => ?_
        simp [shown_concat, mt shown_iff_admitted.mp admitted]
      rw [none]
      rfl

theorem visiblePositions_eq_filter (t : DrillTree) (dims : List AxisDimension) :
    t.visiblePositions dims = t.positions.filter fun p => t.Shown dims p := by
  rw [visiblePositions, visit_eq_filter, flatMap_shown, positions]

end DrillTree

theorem Enumerates.eq_of_beq {α : Type} [BEq α] [PartialEquivBEq α] {as : List α} {s : Set α}
    {a b : α} (lists : Enumerates as s) (left : a ∈ as) (right : b ∈ as) (same : (a == b) = true) :
    a = b := by
  have : Std.Symm fun a b : α => (a == b) = false :=
    ⟨fun a b other => BEq.symm_false other⟩
  by_contra different
  have other := lists.once.forall left right different
  exact Bool.false_ne_true (other.symm.trans same)

namespace Session

variable {s : Session}

/-- Where no position is recorded under two spellings, those that are not among the
shown ones are those that are not shown. -/
theorem hiddenPositions_eq_filter {r : Set Position} (lists : Enumerates s.drills.positions r) :
    s.hiddenPositions = s.drills.positions.filter fun p => !s.drills.Shown s.axis p := by
  refine List.filter_congr fun p recorded => ?_
  have listed : s.visiblePositions.contains p = decide (s.drills.Shown s.axis p) := by
    rw [Bool.eq_iff_iff, List.contains_iff_exists_mem_beq, decide_eq_true_eq, visiblePositions,
      DrillTree.visiblePositions_eq_filter]
    constructor
    · rintro ⟨q, mem, same⟩
      obtain ⟨there, shown⟩ := List.mem_filter.mp mem
      obtain rfl := lists.eq_of_beq recorded there same
      exact of_decide_eq_true shown
    · intro shown
      exact ⟨p, List.mem_filter.mpr ⟨recorded, decide_eq_true shown⟩, BEq.rfl⟩
  rw [listed]

end Session

namespace DrillTree

/-- However positions were recorded and forgotten, the visible ones are, in recorded
order, those whose members are visible one after the other, and an axis tells its
visible and its hidden positions apart without losing one. -/
theorem visiblePositions_run (as : List DrillAction) :
    (∀ dims, (run as).visiblePositions dims =
        (run as).positions.filter fun p => (run as).Shown dims p) ∧
      ∀ ds : List Dimension, let s : Session := ⟨ds, run as⟩
        s.hiddenPositions = (run as).positions.filter (fun p => !(run as).Shown s.axis p) ∧
          (s.visiblePositions ++ s.hiddenPositions).Perm (run as).positions ∧
          ∀ p ∈ s.visiblePositions, ∀ q ∈ s.hiddenPositions, (p == q) = false := by
  refine ⟨visiblePositions_eq_filter _, fun ds => ?_⟩
  intro s
  have lists : Enumerates s.drills.positions _ := (standsFor_run as).enumerates_positions
  have hidden := Session.hiddenPositions_eq_filter lists
  have visible : s.visiblePositions = s.drills.positions.filter fun p => s.drills.Shown s.axis p :=
    visiblePositions_eq_filter _ _
  refine ⟨hidden, ?_, fun p seen q unseen => ?_⟩
  · rw [hidden, visible]
    exact List.filter_append_perm _ _
  · rw [visible, List.mem_filter] at seen
    rw [hidden, List.mem_filter] at unseen
    refine Bool.eq_false_iff.mpr fun same => ?_
    obtain rfl := lists.eq_of_beq seen.1 unseen.1 same
    simp [seen.2] at unseen

end DrillTree
end CubeAxis
