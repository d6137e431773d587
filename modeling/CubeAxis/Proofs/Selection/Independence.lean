import CubeAxis.Proofs.Selection.Scope

namespace CubeAxis
namespace Selection

/-- The actions are on members of which neither is at or above the other, on different levels,
or on a member and a level. -/
def Independent (a b : Selection) : Prop :=
  match a.target, b.target with
  | .member k, .member m => k ∉ m.upward ∧ m ∉ k.upward
  | .level k, .level l => k ≠ l
  | .member _, .level _ | .level _, .member _ => True

/-- The members of the two actions do not stand at or above one another by name. -/
def Beside (a b : Selection) : Prop :=
  ∀ k m, a.target = .member k → b.target = .member m → ¬ k.names <+: m.names ∧ ¬ m.names <+: k.names

/-- The sign that the action gives to a level. -/
def levelSign? (a : Selection) (k : Level) : Option Sign :=
  match a.target with
  | .member _ => none
  | .level l => if k == l then some a.sign else none

variable {h : Hierarchy} {a b : Selection} {m : Member}

theorem Beside.symm (beside : a.Beside b) : b.Beside a :=
  fun k m left right => (beside m k right left).symm

theorem Independent.beside (independent : a.Independent b) (regular : h.Regular)
    (first : a.target.Within h) (second : b.target.Within h) : a.Beside b := by
  rintro k m left right
  rw [Independent, left, right] at independent
  rw [left] at first
  rw [right] at second
  rw [regular.names_prefix_iff first second, regular.names_prefix_iff second first]
  exact independent

/-- Two levels of a hierarchy are one or are told apart by name. -/
theorem Independent.levelSign?_eq_none (independent : a.Independent b) (sound : h.Sound)
    (names : (h.levels.map Level.name).Nodup) (first : a.target.Within h)
    (second : b.target.Within h) (k : Level) : a.levelSign? k = none ∨ b.levelSign? k = none := by
  obtain ⟨s, op, m | l⟩ := a
  · exact Or.inl rfl
  · obtain ⟨s', op', m | l'⟩ := b
    · exact Or.inr rfl
    · by_cases here : (k == l) = true
      · have other : (k == l') = false := Bool.eq_false_iff.mpr fun there =>
          independent (sound.level_eq names first second (BEq.trans (BEq.symm here) there))
        exact Or.inr (by simp [Selection.levelSign?, other])
      · exact Or.inl (by simp [Selection.levelSign?, here])

end Selection

namespace SelectionTree

variable {h : Hierarchy} {t u : SelectionTree} {a b : Selection} {m : Member} {st : SelectionState}

/-- What all nodes record, each with the member it stands for. -/
def records (t : SelectionTree) : List (Option Member × SelectionState) :=
  (t.preorder.filterMap t.site?).map fun s => (s.member?, s.state)

/-- Two trees record the same: they have nodes for the same members, with the same states, and
the same sign on every level. So they give each member the same sign. -/
structure Alike (t u : SelectionTree) : Prop where
  records : t.records.Perm u.records
  stateOf : ∀ m, t.stateOf m = u.stateOf m
  levelSign : ∀ l, t.levelSign l = u.levelSign l
  resolve : ∀ m, t.resolve m = u.resolve m
  isIncluded : ∀ m, t.isIncluded m = u.isIncluded m

theorem records_eq (t : SelectionTree) : t.records =
    (none, .withDescendants .excluded) :: t.overrides.nodes.map fun p => (some p.1, p.2.state) := by
  have below := congrArg (List.map fun p => (p.1, p.2.1)) (t.overrides.map_sites .top)
  rw [List.map_map, List.map_map] at below
  rw [records, filterMap_site?_preorder, List.map_cons]
  exact congrArg (_ :: ·) below

theorem Grown.nodup_records (grown : t.Grown) : t.records.Nodup := by
  rw [records_eq, List.nodup_cons]
  refine ⟨by simp, ?_⟩
  have numbers : (t.overrides.nodes.map (·.2.sequence)).Nodup :=
    (List.nodup_append.mp grown.numbered.once).1
  refine numbers.of_map.map_on ?_
  rintro ⟨k, o⟩ left ⟨l, v⟩ right same
  obtain rfl : k = l := Option.some.inj (Prod.mk.inj same).1
  obtain ⟨-, rfl⟩ := grown.eq_of_names left right rfl
  rfl

/-- What is recorded for a member is on the one node that stands for it. -/
theorem Reached.mem_records_iff (reached : t.Reached h) (regular : h.Regular) :
    (some m, st) ∈ t.records ↔ m ∈ h.members ∧ t.hasNode m = true ∧ t.stateOf m = st := by
  have inside : ∀ k o, (k, o) ∈ t.overrides.nodes → k ∈ h.members := by
    intro k o node
    obtain ⟨place, s, found, member⟩ := Forest.exists_siteAt?_of_node .top node
    obtain ⟨l, listed, same, -⟩ := (reached.hung regular).of_siteAt? found
    obtain rfl : k = l := Option.some.inj (member.symm.trans same)
    exact listed
  have shown : (some m, st) ∈ t.records ↔ ∃ o, (m, o) ∈ t.overrides.nodes ∧ o.state = st := by
    simp [records_eq]
  rw [shown]
  constructor
  · rintro ⟨o, node, rfl⟩
    have found := reached.grown.value?_of_mem_nodes node
    refine ⟨inside m o node, ?_, reached.grown.stateOf_of_mem_nodes node⟩
    rw [hasNode_eq, found]
    rfl
  · rintro ⟨listed, node, rfl⟩
    rw [hasNode_eq, Option.isSome_iff_exists] at node
    obtain ⟨o, found⟩ := node
    obtain ⟨k, node, names⟩ := reached.grown.exists_node found
    obtain rfl : k = m := regular.unique k (inside k o node) m listed
      (Member.uniqueName_of_path_beq (Member.list_beq_iff.mpr names))
    exact ⟨o, node, (reached.grown.stateOf_of_mem_nodes node).symm⟩

/-- Trees within one hierarchy that have the same nodes, states and signs of levels are alike. -/
theorem Reached.alike (left : t.Reached h) (right : u.Reached h) (regular : h.Regular)
    (nodes : ∀ m, t.hasNode m = u.hasNode m) (states : t.stateOf = u.stateOf)
    (levels : ∀ l, t.levelSign l = u.levelSign l) : t.Alike u := by
  have signs : ∀ m, t.resolve m = u.resolve m := fun m => by
    rw [resolve_eq_ruled, resolve_eq_ruled, states]
  refine ⟨?_, congrFun states, levels, signs,
    fun m => by rw [isIncluded, isIncluded, signs, levels]⟩
  refine (List.perm_ext_iff_of_nodup left.grown.nodup_records right.grown.nodup_records).mpr ?_
  rintro ⟨_ | m, st⟩
  · simp [records_eq]
  · rw [left.mem_records_iff regular, right.mem_records_iff regular, nodes, states]

theorem stateOf_apply_of_not_isOn (off : ¬ a.isOn m) : (t.apply a).stateOf m = t.stateOf m := by
  rw [stateOf_apply, if_neg off]

theorem not_isOn_of_beside (beside : a.Beside b) (on : a.isOn m) : ¬ b.isOn m := by
  intro both
  obtain ⟨k, first, names⟩ := Selection.isOn_iff.mp on
  obtain ⟨l, second, same⟩ := Selection.isOn_iff.mp both
  exact (beside k l first second).1 ((names.trans same.symm) ▸ List.prefix_refl _)

/-- An action leaves the same state on its member whether or not one beside it came first. -/
theorem stateOf_apply_apply_of_isOn (beside : a.Beside b) (on : a.isOn m) :
    ((t.apply b).apply a).stateOf m = (t.apply a).stateOf m := by
  have handed : (t.apply b).inheritedBy m = t.inheritedBy m := by
    refine inheritedBy_apply fun l second above => ?_
    obtain ⟨k, first, names⟩ := Selection.isOn_iff.mp on
    exact (beside k l first second).2 (names ▸ above.1)
  rw [stateOf_apply _ a, stateOf_apply t a, if_pos on, if_pos on, handed,
    stateOf_apply_of_not_isOn (not_isOn_of_beside beside on)]

theorem stateOf_apply_comm (beside : a.Beside b) (m : Member) :
    ((t.apply a).apply b).stateOf m = ((t.apply b).apply a).stateOf m := by
  by_cases onA : a.isOn m
  · rw [stateOf_apply_of_not_isOn (not_isOn_of_beside beside onA),
      stateOf_apply_apply_of_isOn beside onA]
  · by_cases onB : b.isOn m
    · rw [stateOf_apply_apply_of_isOn beside.symm onB, stateOf_apply_of_not_isOn onA]
    · rw [stateOf_apply_of_not_isOn onB, stateOf_apply_of_not_isOn onA,
        stateOf_apply_of_not_isOn onA, stateOf_apply_of_not_isOn onB]

theorem hasNode_apply_comm (t : SelectionTree) (a b : Selection) (m : Member) :
    ((t.apply a).apply b).hasNode m = ((t.apply b).apply a).hasNode m := by
  rw [Bool.eq_iff_iff]
  simp only [hasNode_apply, or_assoc, or_comm, or_left_comm]

theorem levelSign_apply (t : SelectionTree) (a : Selection) (k : Level) :
    (t.apply a).levelSign k = (a.levelSign? k).or (t.levelSign k) := by
  obtain ⟨s, op, m | l⟩ := a
  · rfl
  · have given : Selection.levelSign? ⟨s, op, .level l⟩ k = if k == l then some s else none := rfl
    refine (t.levelSign_onLevel s l k).trans ?_
    rw [given]
    split <;> rfl

/-- Actions that do not meet may be taken in either order. -/
theorem apply_comm_of_independent (sound : h.Sound)
    (names : (h.members.map Member.uniqueName).Nodup) (levels : (h.levels.map Level.name).Nodup)
    (reached : t.Reached h) (first : a.target.Within h) (second : b.target.Within h)
    (independent : a.Independent b) : ((t.apply a).apply b).Alike ((t.apply b).apply a) := by
  have regular : h.Regular := ⟨sound, Hierarchy.eq_of_nodup_uniqueNames names⟩
  have beside := independent.beside regular first second
  refine Reached.alike (.apply b (.apply a reached first) second)
    (.apply a (.apply b reached second) first) regular (t.hasNode_apply_comm a b)
    (funext (stateOf_apply_comm beside)) fun k => ?_
  rw [levelSign_apply, levelSign_apply, levelSign_apply, levelSign_apply]
  rcases independent.levelSign?_eq_none sound levels first second k with none | none <;>
    rw [none, Option.none_or, Option.none_or]

/-- Both actions read the one root above the two years. -/
theorem apply_comm_of_independent_calendar :
    ((overtaken.apply (.onMember .excluded .memberAndChildren .january)).apply
        (.onMember .included .descendants .february)).Alike
      ((overtaken.apply (.onMember .included .descendants .february)).apply
        (.onMember .excluded .memberAndChildren .january)) := by
  have apart : Selection.Independent (.onMember .excluded .memberAndChildren .january)
      (.onMember .included .descendants .february) := by
    simp [Selection.Independent, Selection.onMember, Member.upward, Member.january, Member.year,
      Member.february]
  exact apply_comm_of_independent Hierarchy.calendar_built.sound (by decide) (by decide)
    overtaken_reached Hierarchy.january_mem_calendar Hierarchy.february_mem_calendar apart

end SelectionTree
end CubeAxis
