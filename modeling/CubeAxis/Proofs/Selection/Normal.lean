import CubeAxis.Proofs.Selection.Order
import CubeAxis.Proofs.Selection.Replay

namespace CubeAxis.SelectionTree

variable {h : Hierarchy} {t : SelectionTree} {a : Selection} {k m : Member} {o : Override}

/-- The sign that the parent has for its children. -/
def siblingSign (t : SelectionTree) (m : Member) : Option Sign :=
  m.parent?.bind fun p => (t.stateOf p).children

/-- The nearest subtree sign above the member. -/
def nearestSign (t : SelectionTree) (m : Member) : Option Sign :=
  m.ancestors.findSome? fun a => (t.stateOf a).descendants

/-- The sign of the member if none is recorded for itself. -/
def memberSignOtherwise (t : SelectionTree) (m : Member) : Sign :=
  (((t.stateOf m).descendants.or (t.siblingSign m)).or (t.nearestSign m)).getD .excluded

/-- The sign of the children if none is recorded for them on the member. -/
def childrenSignOtherwise (t : SelectionTree) (m : Member) : Sign :=
  ((t.stateOf m).descendants.or (t.nearestSign m)).getD .excluded

theorem children_inheritedBy (t : SelectionTree) (m : Member) :
    (t.inheritedBy m).children = t.siblingSign m := by
  cases m with
  | root g n l => rw [inheritedBy_root]; rfl
  | child p n l => rw [inheritedBy_child]; rfl

theorem nearestSign_child (t : SelectionTree) (p : Member) (n l : String) :
    t.nearestSign (.child p n l) = (t.stateOf p).descendants.or (t.nearestSign p) := by
  rw [nearestSign, Member.ancestors, Member.upward_eq, List.findSome?_cons]
  cases (t.stateOf p).descendants <;> rfl

theorem sign_default_inheritedBy (t : SelectionTree) (m : Member) :
    (t.inheritedBy m).default.sign = (t.nearestSign m).getD .excluded := by
  induction m with
  | root g n l => rw [inheritedBy_root]; rfl
  | child p n l ih =>
    rw [inheritedBy_child, Inherited.sign_default_handDown, ih, nearestSign_child, Option.getD_or]

theorem memberSignOtherwise_eq (t : SelectionTree) (m : Member) : t.memberSignOtherwise m =
    (t.stateOf m).descendants.getD (t.inheritedBy m).childrenSign.sign := by
  rw [Inherited.sign_childrenSign, children_inheritedBy, sign_default_inheritedBy,
    memberSignOtherwise, Option.getD_or, Option.getD_or]

theorem childrenSignOtherwise_eq (t : SelectionTree) (m : Member) : t.childrenSignOtherwise m =
    (t.stateOf m).descendants.getD (t.inheritedBy m).default.sign := by
  rw [sign_default_inheritedBy, childrenSignOtherwise, Option.getD_or]

theorem Grown.exists_node_replay (grown : t.Grown) (node : (m, o) ∈ t.overrides.nodes)
    (listed : a ∈ o.state.selections m) : ∃ o, (m, o) ∈ t.replay.overrides.nodes :=
  mem_nodes_ofSelections grown.orderly_selections (mem_selections_iff.mpr (Or.inl ⟨m, o, node, listed⟩))
    (SelectionState.target_of_mem_selections listed)

/-- A replay that keeps every state lists the same actions, perhaps in another order. -/
theorem Grown.mem_selections_replay (grown : t.Grown)
    (states : ∀ m, t.replay.stateOf m = t.stateOf m) : a ∈ t.replay.selections ↔ a ∈ t.selections := by
  have again := t.grown_replay
  rw [mem_selections_iff, mem_selections_iff]
  refine or_congr ⟨?_, ?_⟩ ?_
  · rintro ⟨m, v, node', own⟩
    have state := (again.stateOf_of_mem_nodes node').symm.trans (states m)
    rw [state] at own
    cases found : t.overrides.value? m.pathFromRoot with
    | none =>
      rw [stateOf, found] at own
      cases own
    | some o =>
      obtain ⟨k, node, same⟩ := grown.exists_node found
      have recorded : t.stateOf m = o.state := by rw [stateOf, found]; rfl
      rw [recorded] at own
      obtain ⟨b, listed⟩ := List.exists_mem_of_ne_nil (o.state.selections k) fun none => by
        rw [SelectionState.eq_of_selections_eq_nil none] at own
        cases own
      -- the node of the replayed tree is the one made for `k`
      obtain ⟨w, node''⟩ := grown.exists_node_replay node listed
      obtain ⟨rfl, -⟩ := again.eq_of_names node'' node' same
      exact ⟨k, o, node, own⟩
  · rintro ⟨m, o, node, own⟩
    obtain ⟨v, node'⟩ := grown.exists_node_replay node own
    refine ⟨m, v, node', ?_⟩
    rwa [← again.stateOf_of_mem_nodes node', states, grown.stateOf_of_mem_nodes node]
  · have levels {l s} := grown.exists_level_replay_iff (l := l) (s := s)
    constructor
    · rintro ⟨o, level, rfl⟩
      obtain ⟨v, listed, target, sign⟩ := levels.mp ⟨o, level, rfl, rfl⟩
      exact ⟨v, listed, by rw [target, sign]⟩
    · rintro ⟨o, level, rfl⟩
      obtain ⟨v, listed, target, sign⟩ := levels.mpr ⟨o, level, rfl, rfl⟩
      exact ⟨v, listed, by rw [target, sign]⟩

/-- A replay that keeps every state lists the same actions in the same order. -/
theorem Grown.selections_replay (grown : t.Grown)
    (states : ∀ m, t.replay.stateOf m = t.stateOf m) : t.replay.selections = t.selections := by
  have same {a} := grown.mem_selections_replay states (a := a)
  refine eq_of_mem_iff_of_pairwise (fun _ _ => Precedes.asymm)
    (t.grown_replay.pairwise_selections.imp_of_mem fun {a b} left right before => ?_)
    grown.pairwise_selections fun _ => same
  have first := same.mp left
  have second := same.mp right
  have sorted := grown.pairwise_selections.imp Precedes.number_le
  rcases Nat.lt_trichotomy (t.number a.target) (t.number b.target) with less | equal | more
  · exact Or.inl less
  · have target := grown.target_eq_of_number_eq first second equal
    rcases before with less | ⟨_, rank⟩
    · simp only [target, Nat.lt_irrefl] at less
    · exact Or.inr ⟨equal, rank⟩
  · have later := number_ofSelections_lt grown.orderly_selections sorted second first more
    exact absurd before.number_le (Nat.not_le.mpr later)

/-- One replay leaves what a further replay would list again, and no sign that holds
anyway. -/
theorem replay_normal (reached : t.Reached h) :
    t.replay.replay.selections = t.replay.selections ∧
      ∀ m o, (m, o) ∈ t.replay.overrides.nodes →
        (∀ s, o.state.member = some s → s ≠ t.replay.memberSignOtherwise m) ∧
          ∀ s, o.state.children = some s → s ≠ t.replay.childrenSignOtherwise m := by
  have grown := reached.grown
  have again := t.grown_replay
  constructor
  · refine again.selections_replay fun m => ?_
    rw [again.stateOf_replay, grown.stateOf_replay, grown.inheritedBy_replay, Inherited.reduce_lean,
      Inherited.reduce_reduce]
  · intro m o node
    rw [memberSignOtherwise_eq, childrenSignOtherwise_eq, ← again.stateOf_of_mem_nodes node,
      grown.stateOf_replay, grown.inheritedBy_replay, Inherited.childrenSign_lean]
    exact Inherited.ne_of_reduce _ _

theorem replay_normal_overtaken :
    overtaken.replay.replay.selections = overtaken.replay.selections ∧
      ∀ m o, (m, o) ∈ overtaken.replay.overrides.nodes →
        (∀ s, o.state.member = some s → s ≠ overtaken.replay.memberSignOtherwise m) ∧
          ∀ s, o.state.children = some s → s ≠ overtaken.replay.childrenSignOtherwise m :=
  replay_normal overtaken_reached

end CubeAxis.SelectionTree
