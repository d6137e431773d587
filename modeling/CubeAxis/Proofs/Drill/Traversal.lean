import CubeAxis.Drill.Traversal
import CubeAxis.Proofs.Drill.Shown
import CubeAxis.Proofs.Places

namespace CubeAxis

/-- A visitor that lets in children as a function of path and child does, whatever
happened before. -/
def Visitor.Answers {σ : Type} (v : Visitor σ) (enter : List Member → Member → Bool) : Prop :=
  ∀ path m s, (v.enter path m s).1 = enter path m

section

variable {σ : Type} {v : Visitor σ} {enter : List Member → Member → Bool}

/-- The path is handed back as it was taken over, and the visits made are those of the
traversal that gives each node a path of its own. -/
theorem Forest.traverse_eq (answers : v.Answers enter) (f : Forest (List Member))
    (r : Traversal σ) :
    ∃ s, f.traverse v r = ⟨r.path, r.visits ++ f.visit enter r.path, s⟩ := by
  induction f generalizing r with
  | nil => exact ⟨r.state, by simp [traverse, visit]⟩
  | cons m drilled children siblings ihBelow ihBeside =>
    have answer : r.enters v m = enter r.path m := answers r.path m r.state
    rw [traverse, visit]
    by_cases step : enter r.path m = true
    · obtain ⟨s, below⟩ := ihBelow (((r.asked v m).push m).visit v drilled)
      -- as the path comes back from below as it went there, popping takes off what was pushed
      obtain ⟨s', beside⟩ := ihBeside ⟨r.path, r.visits ++
        (r.path ++ [m], drilled) :: children.visit enter (r.path ++ [m]), s⟩
      refine ⟨s', ?_⟩
      rw [if_pos (answer.trans step), if_pos step, below]
      simpa [Traversal.asked, Traversal.visit, Traversal.push, Traversal.pop] using beside
    · obtain ⟨s', beside⟩ := ihBeside (r.asked v m)
      refine ⟨s', ?_⟩
      rw [if_neg (answer.trans_ne step), if_neg step]
      exact beside

theorem DrillTree.traverse_eq (answers : v.Answers enter) (t : DrillTree) (s : σ) :
    (t.traverse v s).path = [] ∧ (t.traverse v s).visits = t.visit enter := by
  obtain ⟨s', run⟩ := t.below.traverse_eq answers (Traversal.visit v t.drilled { state := s })
  rw [DrillTree.traverse, run]
  exact ⟨rfl, rfl⟩

end

/-- A traversal that enters everything takes the ways to all places, in their order. -/
theorem Forest.map_fst_visit {α : Type} (f : Forest α) (path : List Member) :
    (f.visit (fun _ _ => true) path).map Prod.fst =
      (f.places 0).map fun place => path ++ f.route place := by
  induction f generalizing path with
  | nil => rfl
  | cons m v children siblings ihBelow ihBeside =>
    rw [map_places_cons, visit, if_pos rfl, List.map_append, List.map_cons, ihBelow, ihBeside,
      List.cons_append]
    have beside : ((siblings.places 0).map fun place => path ++ siblings.route place) =
        (siblings.places 0).map fun place =>
          path ++ (cons m v children siblings).route (place.modifyHead (· + 1)) :=
      siblings.map_places_congr (fun _ _ => by rfl) 0
    rw [beside]
    simp [route]

namespace DrillTree

/-- The places of all nodes in pre-order, the root's before those below. -/
def places (t : DrillTree) : List (List Nat) :=
  [] :: t.below.places 0

variable {t : DrillTree} {place : List Nat}

theorem mem_places_iff :
    place ∈ t.places ↔ place = [] ∨ ∃ node, t.below.nodeAt? place = some node := by
  rw [places, List.mem_cons, Forest.mem_places_iff_nodeAt?]

theorem pairwise_lex_places (t : DrillTree) : t.places.Pairwise (List.Lex (· < ·)) := by
  refine List.pairwise_cons.mpr ⟨fun place mem => ?_, t.below.pairwise_lex_places 0⟩
  obtain ⟨k, rest, rfl, _⟩ := Forest.exists_le_of_mem_places mem
  exact .nil

theorem map_fst_visit (t : DrillTree) :
    (t.visit fun _ _ => true).map Prod.fst = t.places.map t.below.route := by
  rw [visit, List.map_cons, Forest.map_fst_visit, places, List.map_cons, Forest.route_nil]
  simp

/-- Where siblings differ by name, the nodes met are those at the places all steps to which
are let in, with what is listed at the end of their paths. -/
theorem visit_eq_map (apart : t.below.Apart) (enter : List Member → Member → Bool) :
    t.visit enter = (t.places.filter fun place => Admitted enter (t.below.route place)).map
      fun place => (t.below.route place, t.drilledAt (t.below.route place)) := by
  have listed : (t.visit fun _ _ => true) =
      (t.places.map t.below.route).map fun path => (path, t.drilledAt path) := by
    have own : ∀ node ∈ t.visit fun _ _ => true, (node.1, t.drilledAt node.1) = node :=
      fun _ met => Prod.ext rfl (drilledAt_of_mem_visit apart met)
    rw [← map_fst_visit, List.map_map]
    exact ((List.map_congr_left own).trans (List.map_id' _)).symm
  rw [visit_eq_filter, listed, List.map_map, List.filter_map]
  rfl

/-- However positions were recorded and forgotten, and whatever else a visitor does that
answers by path and child alone, a traversal visits of all nodes, in pre-order, those to which
every step is let in, each once, with the members on the way to it and those that are recorded
after them. The path it carries along ends as it began. -/
theorem traverse_run (as : List DrillAction) {σ : Type} (v : Visitor σ)
    {enter : List Member → Member → Bool} (answers : v.Answers enter) (s : σ) :
    let t := run as
    let r := t.traverse v s
    r.visits = ((t.places.filter fun place => Admitted enter (t.below.route place)).map
        fun place => (t.below.route place, t.drilledAt (t.below.route place))) ∧
      (∀ place, place ∈ t.places ↔ place = [] ∨ ∃ node, t.below.nodeAt? place = some node) ∧
      t.places.Pairwise (List.Lex (· < ·)) ∧ r.visits.Pairwise (fun a b => (a.1 == b.1) = false) ∧
      r.visits = t.visit enter ∧ r.path = [] := by
  intro t r
  have apart : t.below.Apart := (standsFor_run as).apart
  obtain ⟨restored, visits⟩ := t.traverse_eq answers s
  refine ⟨?_, fun _ => mem_places_iff, t.pairwise_lex_places, ?_, visits, restored⟩
  · exact visits.trans (visit_eq_map apart enter)
  · exact visits ▸ pairwise_visit apart enter

end DrillTree

/-- Counts the nodes it is shown and refuses one child everywhere. -/
def Visitor.counting (refused : Member) : Visitor Nat where
  visit _ _ n := n + 1
  enter _ m n := (!(m == refused), n)

theorem DrillTree.traverse_run_counting :
    let t := run [.add [.year, .january], .add [.february, .january], .add [.year, .february]]
    let r := t.traverse (.counting .february) 0
    r.visits = [([], []), ([.year], [.january, .february])] ∧ r.state = 2 := by
  intro t r
  exact ⟨(traverse_run _ (.counting .february) (fun _ _ _ => rfl) 0).1, rfl⟩

end CubeAxis
