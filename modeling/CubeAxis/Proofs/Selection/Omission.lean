import CubeAxis.Proofs.Selection.Node
import CubeAxis.Proofs.Selection.Order
import CubeAxis.Proofs.Selection.Replay

namespace CubeAxis
namespace SelectionState

variable {st : SelectionState} {m : Member} {a : Selection}

/-- The state without the signs that an action with the operator records. -/
def without (st : SelectionState) : Operator → SelectionState
  | .member => { st with member := none }
  | .children => { st with children := none }
  | .memberAndChildren => { st with member := none, children := none }
  | .descendants => { st with descendants := none }
  | .ancestors | .siblings => st

theorem selections_without_eq_filter (mem : a ∈ st.selections m) :
    (st.without a.operator).selections m =
      (st.selections m).filter (·.operator != a.operator) := by
  obtain ⟨member, children, descendants⟩ := st
  cases member <;> cases children <;> cases descendants <;>
    simp only [selections, Selection.onMember] at mem ⊢ <;> split at mem <;> simp_all <;>
    rcases mem with rfl | rfl | rfl <;> simp_all [without]

/-- The actions listed for a state but for one are those listed for the state without. -/
theorem selections_without {before after : List Selection}
    (split : st.selections m = before ++ a :: after) :
    (st.without a.operator).selections m = before ++ after := by
  have mem : a ∈ st.selections m := by simp [split]
  have ranks := split ▸ st.pairwise_selections m
  obtain ⟨-, rest, apart⟩ := List.pairwise_append.mp ranks
  rw [selections_without_eq_filter mem, split, List.filter_append, List.filter_cons_of_neg (by simp),
    List.filter_eq_self.mpr, List.filter_eq_self.mpr]
  · intro b later
    have less := (List.pairwise_cons.mp rest).1 b later
    refine bne_iff_ne.mpr fun same => ?_
    rw [same] at less
    exact Nat.lt_irrefl _ less
  · intro b earlier
    have less := apart b earlier a List.mem_cons_self
    refine bne_iff_ne.mpr fun same => ?_
    rw [same] at less
    exact Nat.lt_irrefl _ less

theorem children_without {op : Operator} (apart : op ≠ .children) (apart' : op ≠ .memberAndChildren) :
    (st.without op).children = st.children := by
  cases op <;> first | rfl | contradiction

end SelectionState

namespace Inherited

/-- Two ways to hand down that give the same signs. -/
@[mk_iff]
structure SameSigns (i j : Inherited) : Prop where
  children : i.childrenSign.sign = j.childrenSign.sign
  default : i.default.sign = j.default.sign

variable {i j k : Inherited} {st : SelectionState}

theorem SameSigns.refl (i : Inherited) : i.SameSigns i :=
  ⟨rfl, rfl⟩

theorem SameSigns.symm (same : i.SameSigns j) : j.SameSigns i :=
  ⟨same.children.symm, same.default.symm⟩

theorem SameSigns.trans (first : i.SameSigns j) (second : j.SameSigns k) : i.SameSigns k :=
  ⟨first.children.trans second.children, first.default.trans second.default⟩

theorem SameSigns.handDown (same : i.SameSigns j) (st : SelectionState) :
    (i.handDown st).SameSigns (j.handDown st) := by
  constructor
  · rw [sign_childrenSign_handDown, sign_childrenSign_handDown, same.default]
  · rw [sign_default_handDown, sign_default_handDown, same.default]

theorem SameSigns.memberSign (same : i.SameSigns j) (st : SelectionState) :
    (i.memberSign st).sign = (j.memberSign st).sign := by
  rw [sign_memberSign, sign_memberSign, same.children]

theorem lean_sameSigns (i : Inherited) : i.lean.SameSigns i :=
  ⟨i.childrenSign_lean, rfl⟩

/-- With either state a member has the same sign and hands down the same signs. -/
@[mk_iff]
structure SameEffect (i : Inherited) (st st' : SelectionState) : Prop where
  own : (i.memberSign st).sign = (i.memberSign st').sign
  below : (i.handDown st).SameSigns (i.handDown st')

theorem SameEffect.refl (i : Inherited) (st : SelectionState) : i.SameEffect st st :=
  ⟨rfl, .refl _⟩

/-- What an action with the operator has recorded on a node holds anyway. -/
def Idle (i : Inherited) (st : SelectionState) (s : Sign) : Operator → Prop
  | .member => st.descendants.getD i.childrenSign.sign = s
  | .children => st.descendants.getD i.default.sign = s
  | .memberAndChildren =>
    st.descendants.getD i.childrenSign.sign = s ∧ st.descendants.getD i.default.sign = s
  | .descendants => i.default.sign = s ∧ (st.member.isSome ∨ i.childrenSign.sign = s)
  | .ancestors | .siblings => True

theorem sameEffect_without_iff {s : Sign} {op : Operator} (recorded : st.Records s op) :
    i.SameEffect (st.without op) st ↔ i.Idle st s op := by
  rw [sameEffect_iff, sameSigns_iff]
  simp only [sign_memberSign, sign_childrenSign_handDown, sign_default_handDown]
  cases op with
  | member =>
    change st.member = some s at recorded
    simp [SelectionState.without, Idle, recorded]
  | children =>
    change st.children = some s at recorded
    simp [SelectionState.without, Idle, recorded]
  | memberAndChildren =>
    obtain ⟨member, children⟩ := recorded
    simp [SelectionState.without, Idle, member, children]
  | descendants =>
    change st.descendants = some s at recorded
    simp only [SelectionState.without, Idle, recorded, Option.getD_none, Option.getD_some]
    by_cases same : i.default.sign = s
    · cases st.member <;> simp [same]
    · simp [same]
  | ancestors => cases recorded
  | siblings => cases recorded

end Inherited

namespace SelectionTree

variable {h : Hierarchy} {t u : SelectionTree} {before after : List Selection} {a : Selection}
  {m k : Member}

/-- The states of a tree without what one action has recorded. -/
def stateWithout (t : SelectionTree) (a : Selection) (m : Member) : SelectionState :=
  if a.isOn m then (t.stateOf m).without a.operator else t.stateOf m

/-- The listed action says nothing that does not hold without it. -/
def Dispensable (t : SelectionTree) (a : Selection) : Prop :=
  match a.target with
  | .member m => (t.inheritedBy m).Idle (t.stateOf m) a.sign a.operator
  | .level _ => False

/-- Both trees give the same sign to every member, every member's children and subtree,
and every level. -/
structure Agrees (h : Hierarchy) (t u : SelectionTree) : Prop where
  member : ∀ m ∈ h.members, (t.resolve m).sign = (u.resolve m).sign
  below : ∀ m ∈ h.members, (t.handsDown m).SameSigns (u.handsDown m)
  level : ∀ l ∈ h.levels, t.levelSign l = u.levelSign l

/-- A sign that two trees report differently: that of a member, that of the children or
of the subtree by the node found for a member, or that of a level. -/
inductive Differs (h : Hierarchy) (t u : SelectionTree) : Prop
  | member (m : Member) : m ∈ h.members → (t.resolve m).sign ≠ (u.resolve m).sign → Differs h t u
  | children (m : Member) : m ∈ h.members →
      (t.site? (t.find m)).map (·.childrenSign.sign) ≠
        (u.site? (u.find m)).map (·.childrenSign.sign) → Differs h t u
  | subtree (m : Member) : m ∈ h.members →
      (t.site? (t.find m)).map (·.descendantsDefault.sign) ≠
        (u.site? (u.find m)).map (·.descendantsDefault.sign) → Differs h t u
  | level (l : Level) : l ∈ h.levels → t.levelSign l ≠ u.levelSign l → Differs h t u

theorem resolve_congr (t : SelectionTree) (same : k.names = m.names) : t.resolve k = t.resolve m := by
  rw [resolve, resolve, t.inheritedBy_congr_names same, t.stateOf_congr same]

theorem handsDown_congr (t : SelectionTree) (same : k.names = m.names) :
    t.handsDown k = t.handsDown m := by
  rw [handsDown, handsDown, t.inheritedBy_congr_names same, t.stateOf_congr same]

theorem hasNode_congr (t : SelectionTree) (same : k.names = m.names) : t.hasNode k = t.hasNode m := by
  rw [hasNode_eq, hasNode_eq, Forest.value?_congr same]

theorem handsDown_of_reduced {states : Member → SelectionState}
    (reduced : ∀ k, u.stateOf k = (u.inheritedBy k).reduce (states k)) (m : Member) :
    u.handsDown m = ((handed states m).handDown (states m)).lean := by
  rw [handsDown, reduced m, inheritedBy_of_reduced reduced, Inherited.reduce_lean,
    Inherited.handDown_lean]

theorem sign_resolve_of_unsigned (parent : k.parent? = some m) (unsigned : t.stateOf k = {}) :
    (t.resolve k).sign = (t.handsDown m).childrenSign.sign := by
  cases k with
  | root => cases parent
  | child p n l =>
    obtain rfl := Option.some.inj parent
    rw [resolve, unsigned, inheritedBy_child]
    rfl

/-- States of the same effect on every member hand down the same signs. -/
theorem sameSigns_handed {states : Member → SelectionState}
    (same : ∀ k, (t.inheritedBy k).SameEffect (states k) (t.stateOf k)) (m : Member) :
    (handed states m).SameSigns (t.inheritedBy m) := by
  induction m with
  | root g n l =>
    rw [inheritedBy_root]
    exact .refl _
  | child p n l ih =>
    rw [inheritedBy_child, handed]
    exact (ih.handDown (states p)).trans (same p).below

/-- Only members of the hierarchy have signs, perhaps on the node of a member of the
same names. -/
theorem Reached.exists_member_of_signed (reached : t.Reached h) (signed : t.stateOf k ≠ {}) :
    ∃ m ∈ h.members, m.names = k.names := by
  induction reached with
  | empty => exact absurd rfl signed
  | @apply t a _ within ih =>
    rw [stateOf_apply] at signed
    split at signed
    · rename_i on
      obtain ⟨m, target, same⟩ := Selection.isOn_iff.mp on
      rw [target] at within
      exact ⟨m, within, same⟩
    · exact ih signed
  | clear _ _ => exact absurd rfl signed

theorem Reached.level_mem (reached : t.Reached h) : ∀ o ∈ t.levels, o.level ∈ h.levels := by
  induction reached with
  | empty => exact nofun
  | @apply t a _ within ih =>
    obtain ⟨sign, operator, k | l⟩ := a
    · exact ih
    · intro o listed
      rcases List.mem_append.mp listed with old | new
      · exact ih o (List.mem_filter.mp old).1
      · exact List.mem_singleton.mp new ▸ within
  | clear _ _ => exact nofun

section

variable (grown : t.Grown) (split : t.selections = before ++ a :: after)

include split in
theorem mem_selections_of_split : a ∈ t.selections := by
  rw [split]
  exact List.mem_append_right _ List.mem_cons_self

include grown split

theorem Grown.orderly_omission : Orderly (before ++ after) := by
  refine grown.orderly_selections.sublist ?_
  rw [split]
  exact (List.sublist_cons_self a after).append_left before

theorem Grown.mem_selections_omitted (target : a.target = .member m) :
    a ∈ (t.stateOf m).selections m := by
  obtain ⟨o, node, own⟩ := exists_node_of_mem_selections (mem_selections_of_split split) target
  rwa [grown.stateOf_of_mem_nodes node]

theorem Grown.filter_omission (m : Member) :
    ∃ k, (before ++ after).filter (·.isOn m) = (t.stateWithout a m).selections k := by
  obtain ⟨k, -, listed⟩ := grown.filter_selections m
  refine ⟨k, ?_⟩
  rw [split, List.filter_append] at listed
  rw [stateWithout, List.filter_append]
  by_cases own : a.isOn m = true
  · rw [List.filter_cons_of_pos own] at listed
    rw [if_pos own, SelectionState.selections_without listed.symm]
  · rw [List.filter_cons_of_neg own] at listed
    rw [if_neg own, listed]

/-- The tree without the action records what the other actions have recorded, but for
the signs that hold anyway. -/
theorem Grown.reduced_omission (m : Member) :
    (ofSelections (before ++ after)).stateOf m =
      ((ofSelections (before ++ after)).inheritedBy m).reduce (t.stateWithout a m) := by
  obtain ⟨k, listed⟩ := grown.filter_omission split m
  rw [← Inherited.foldl_record_selections _ _ k, ← listed]
  exact stateOf_ofSelections (grown.orderly_omission split) m

/-- A level has its sign from one action alone. -/
theorem Grown.levelSign_omission_ne {l : Level} (target : a.target = .level l) :
    t.levelSign l ≠ (ofSelections (before ++ after)).levelSign l := by
  have orderly := grown.orderly_omission split
  obtain ⟨o, level, named, sign⟩ := exists_level_selections_iff.mp
    ⟨a, mem_selections_of_split split, target, rfl⟩
  rw [(levelSign_eq_some_iff grown.numbered).mpr ⟨o, level, named ▸ BEq.rfl, sign⟩]
  intro given
  obtain ⟨v, level', here, sign'⟩ :=
    (levelSign_eq_some_iff (grown_ofSelections _).numbered).mp given.symm
  obtain ⟨b, mem, target', -⟩ :=
    (exists_level_ofSelections_iff orderly).mp ⟨v, level', rfl, rfl⟩
  have once := split ▸ grown.orderly_selections.levels
  obtain ⟨-, later, earlier⟩ := List.pairwise_append.mp once
  rcases List.mem_append.mp mem with first | last
  · have apart := earlier b first a List.mem_cons_self _ _ target' target
    rw [apart] at here
    cases here
  · have apart := (List.pairwise_cons.mp later).1 b last _ _ target target'
    rw [BEq.comm, apart] at here
    cases here

theorem Grown.levelSign_omission_of_member (target : a.target = .member m) (l : Level) :
    t.levelSign l = (ofSelections (before ++ after)).levelSign l := by
  refine levelSign_eq_of_levels grown.numbered (grown_ofSelections _).numbered (fun l s => ?_) l
  rw [exists_level_ofSelections_iff (grown.orderly_omission split), ← exists_level_selections_iff,
    split]
  simp [target, or_and_right, exists_or]

theorem Grown.dispensable_iff (target : a.target = .member m) : t.Dispensable a ↔
    (t.inheritedBy m).SameEffect ((t.stateOf m).without a.operator) (t.stateOf m) := by
  have listed := grown.mem_selections_omitted split target
  rw [Inherited.sameEffect_without_iff (SelectionState.records_of_mem_selections listed).2]
  simp only [Dispensable, target]

end

theorem stateWithout_self (target : a.target = .member m) :
    t.stateWithout a m = (t.stateOf m).without a.operator :=
  if_pos (Selection.isOn_iff.mpr ⟨m, target, rfl⟩)

/-- Above its member the omission changes nothing. -/
theorem handed_stateWithout (target : a.target = .member m) :
    handed (t.stateWithout a) m = t.inheritedBy m := by
  rw [inheritedBy_eq]
  refine handed_congr fun x above => if_neg fun on => ?_
  obtain ⟨k, target', same⟩ := Selection.isOn_iff.mp on
  obtain rfl := SelectionTarget.member.inj (target.symm.trans target')
  exact Nat.ne_of_gt (Member.depth_lt_of_mem_ancestors above) (Member.depth_eq_of_names same)

section

variable (grown : t.Grown) (split : t.selections = before ++ a :: after)

include grown split

theorem Grown.handsDown_omission (target : a.target = .member m) :
    (ofSelections (before ++ after)).handsDown m =
      ((t.inheritedBy m).handDown ((t.stateOf m).without a.operator)).lean := by
  rw [handsDown_of_reduced (grown.reduced_omission split), handed_stateWithout target,
    stateWithout_self target]

/-- An action is dispensable if its own member does not miss it. -/
theorem Grown.dispensable_of_same (target : a.target = .member m)
    (own : (t.resolve m).sign = ((ofSelections (before ++ after)).resolve m).sign)
    (below : (t.handsDown m).SameSigns ((ofSelections (before ++ after)).handsDown m)) :
    t.Dispensable a := by
  rw [sign_resolve_of_reduced (grown.reduced_omission split), handed_stateWithout target,
    stateWithout_self target] at own
  rw [grown.handsDown_omission split target] at below
  rw [grown.dispensable_iff split target]
  exact ⟨own.symm, (below.trans (Inherited.lean_sameSigns _)).symm⟩

/-- Nobody misses a dispensable action. -/
theorem Grown.same_of_dispensable (target : a.target = .member m) (idle : t.Dispensable a)
    (k : Member) : (t.resolve k).sign = ((ofSelections (before ++ after)).resolve k).sign ∧
      (t.handsDown k).SameSigns ((ofSelections (before ++ after)).handsDown k) := by
  have effect := (grown.dispensable_iff split target).mp idle
  have effects : ∀ k, (t.inheritedBy k).SameEffect (t.stateWithout a k) (t.stateOf k) := by
    intro k
    by_cases on : a.isOn k = true
    · obtain ⟨l, target', same⟩ := Selection.isOn_iff.mp on
      obtain rfl := SelectionTarget.member.inj (target.symm.trans target')
      rwa [stateWithout, if_pos on, ← t.inheritedBy_congr_names same, ← t.stateOf_congr same]
    · rw [stateWithout, if_neg on]
      exact .refl _ _
  have handed := sameSigns_handed effects k
  constructor
  · rw [sign_resolve_of_reduced (grown.reduced_omission split), handed.memberSign, (effects k).own]
    rfl
  · rw [handsDown_of_reduced (grown.reduced_omission split)]
    exact ((Inherited.lean_sameSigns _).trans ((handed.handDown _).trans (effects k).below)).symm

/-- Where a member loses its node, nothing is recorded on its children. -/
theorem Grown.stateOf_of_not_hasNode (target : a.target = .member m) {p : Member}
    (parent : k.parent? = some p) (same : p.names = m.names)
    (absent : (ofSelections (before ++ after)).hasNode m = false) :
    t.stateOf k = {} ∧ (ofSelections (before ++ after)).stateOf k = {} := by
  have above : m.names <+: k.names := by
    rw [Member.names_of_parent? parent, same]
    exact List.prefix_append _ _
  have none : ∀ b ∈ before ++ after, ∀ l, b.target = .member l → ¬ k.names <+: l.names :=
    fun b mem l on lower => Bool.eq_false_iff.mp absent
      (hasNode_ofSelections.mpr ⟨b, mem, l, on, above.trans lower⟩)
  constructor
  · obtain ⟨l, -, listed⟩ := grown.filter_selections k
    refine SelectionState.eq_of_selections_eq_nil (m := l) (listed ▸ ?_)
    refine List.filter_eq_nil_iff.mpr fun b mem on => ?_
    obtain ⟨x, target', names⟩ := Selection.isOn_iff.mp on
    rw [split, List.mem_append, List.mem_cons] at mem
    rcases mem with first | rfl | last
    · exact none b (List.mem_append_left _ first) x target' (names ▸ List.prefix_refl _)
    · obtain rfl := SelectionTarget.member.inj (target.symm.trans target')
      have depths := Member.depth_eq_of_names (same.trans names)
      rw [Member.depth_of_parent? parent] at depths
      omega
    · exact none b (List.mem_append_right _ last) x target' (names ▸ List.prefix_refl _)
  · cases found : (ofSelections (before ++ after)).overrides.value? k.pathFromRoot with
    | none => rw [stateOf, found]; rfl
    | some o =>
      have node : (ofSelections (before ++ after)).hasNode k = true := by rw [hasNode_eq, found]; rfl
      obtain ⟨b, mem, l, on, up⟩ := hasNode_ofSelections.mp node
      exact absurd up (none b mem l on)

/-- Only an action on children changes the sign of the children alone. -/
theorem Grown.operator_of_childrenSign_ne (target : a.target = .member m)
    (subtree : (t.handsDown m).default.sign =
      ((ofSelections (before ++ after)).handsDown m).default.sign)
    (different : (t.handsDown m).childrenSign.sign ≠
      ((ofSelections (before ++ after)).handsDown m).childrenSign.sign) :
    a.operator = .children ∨ a.operator = .memberAndChildren := by
  by_contra other
  rw [not_or] at other
  rw [grown.handsDown_omission split target] at subtree different
  refine different ?_
  rw [Inherited.childrenSign_lean, handsDown, Inherited.sign_childrenSign, Inherited.sign_childrenSign]
  change _ = ((t.stateOf m).without a.operator).children.getD _
  rw [SelectionState.children_without other.1 other.2]
  exact congrArg _ subtree

end

section

variable (reached : t.Reached h) (split : t.selections = before ++ a :: after)

include reached split

theorem Reached.exists_member (target : a.target = .member k) :
    ∃ m ∈ h.members, m.names = k.names := by
  refine reached.exists_member_of_signed fun unsigned => ?_
  have listed := reached.grown.mem_selections_omitted split target
  rw [unsigned] at listed
  cases listed

theorem Reached.level_mem_of_target {l : Level} (target : a.target = .level l) : l ∈ h.levels := by
  obtain ⟨o, level, rfl⟩ := exists_level_of_mem_selections (mem_selections_of_split split) target
  obtain rfl := SelectionTarget.level.inj target
  exact reached.level_mem o level

/-- Without the action the tree gives the same signs exactly if the action says nothing
that does not hold without it. -/
theorem Reached.agrees_omission_iff :
    Agrees h t (ofSelections (before ++ after)) ↔ t.Dispensable a := by
  have grown := reached.grown
  cases target : a.target with
  | level l =>
    have within := reached.level_mem_of_target split target
    simp only [Dispensable, target, iff_false]
    exact fun same => grown.levelSign_omission_ne split target (same.level l within)
  | member k =>
    constructor
    · intro same
      obtain ⟨m, inside, names⟩ := reached.exists_member split target
      have own := same.member m inside
      have below := same.below m inside
      rw [resolve_congr _ names, resolve_congr _ names] at own
      rw [handsDown_congr _ names, handsDown_congr _ names] at below
      exact grown.dispensable_of_same split target own below
    · intro idle
      have same := grown.same_of_dispensable split target idle
      exact ⟨fun m _ => (same m).1, fun m _ => (same m).2, fun l _ =>
        grown.levelSign_omission_of_member split target l⟩

/-- Any other action leaves a difference that shows, a sign for children if there are any. -/
theorem Reached.differs_omission (needed : ¬ t.Dispensable a)
    (shown : ∀ m, a.target = .member m → a.operator = .children ∨ a.operator = .memberAndChildren →
      ∃ k ∈ h.members, ∃ p, k.parent? = some p ∧ p.names = m.names) :
    Differs h t (ofSelections (before ++ after)) := by
  have grown := reached.grown
  cases target : a.target with
  | level l =>
    exact .level l (reached.level_mem_of_target split target)
      (grown.levelSign_omission_ne split target)
  | member m =>
    obtain ⟨x, inside, names⟩ := reached.exists_member split target
    by_contra alike
    have own : (t.resolve m).sign = ((ofSelections (before ++ after)).resolve m).sign := by
      rw [← resolve_congr _ names, ← resolve_congr _ names]
      by_contra different
      exact alike (.member x inside different)
    have subtree : (t.handsDown m).default.sign =
        ((ofSelections (before ++ after)).handsDown m).default.sign := by
      rw [← handsDown_congr _ names, ← handsDown_congr _ names]
      by_contra different
      refine alike (.subtree x inside ?_)
      rwa [descendantsDefault_find, descendantsDefault_find, Ne, Option.some_inj]
    refine needed (grown.dispensable_of_same split target own ⟨?_, subtree⟩)
    by_contra different
    obtain ⟨k, child, p, parent, same⟩ := shown m target
      (grown.operator_of_childrenSign_ne split target subtree different)
    cases node : (ofSelections (before ++ after)).hasNode m with
    | true =>
      obtain ⟨o, listed, -⟩ :=
        exists_node_of_mem_selections (mem_selections_of_split split) target
      have here : t.hasNode m = true := by
        rw [hasNode_eq, grown.value?_of_mem_nodes listed]
        rfl
      refine alike (.children x inside ?_)
      rw [← hasNode_congr _ names] at node here
      rwa [childrenSign_find node, childrenSign_find here, Ne, Option.some_inj,
        handsDown_congr _ names, handsDown_congr _ names]
    | false =>
      obtain ⟨first, second⟩ := grown.stateOf_of_not_hasNode split target parent same node
      refine alike (.member k child ?_)
      rwa [sign_resolve_of_unsigned parent first, sign_resolve_of_unsigned parent second,
        handsDown_congr _ same, handsDown_congr _ same]

end

/-- Without one of its listed actions a tree gives the same signs exactly if the action is
dispensable, and otherwise the difference shows, given that an action on children has
children to show it on. -/
theorem omission_exact (reached : t.Reached h) (split : t.selections = before ++ a :: after) :
    (Agrees h t (ofSelections (before ++ after)) ↔ t.Dispensable a) ∧
      (¬ t.Dispensable a → (∀ m, a.target = .member m →
        a.operator = .children ∨ a.operator = .memberAndChildren →
          ∃ k ∈ h.members, ∃ p, k.parent? = some p ∧ p.names = m.names) →
        Differs h t (ofSelections (before ++ after))) :=
  ⟨reached.agrees_omission_iff split, reached.differs_omission split⟩

/-- A month is included before all of its year is, and stays recorded. -/
def restated : SelectionTree :=
  (empty.apply (.onMember .included .member .january)).apply (.onMember .included .descendants .year)

theorem restated_reached : restated.Reached Hierarchy.calendar :=
  .apply _ (.apply _ .empty Hierarchy.january_mem_calendar) Hierarchy.year_mem_calendar

theorem selections_restated : restated.selections =
    [.onMember .included .descendants .year, .onMember .included .member .january] :=
  rfl

theorem omission_exact_restated :
    Agrees Hierarchy.calendar restated (ofSelections [.onMember .included .descendants .year]) ∧
      Differs Hierarchy.calendar restated (ofSelections [.onMember .included .member .january]) := by
  constructor
  · have exact := omission_exact restated_reached
      (show _ = [.onMember .included .descendants .year] ++ _ :: [] from selections_restated)
    exact exact.1.mpr rfl
  · have exact := omission_exact restated_reached
      (show _ = [] ++ .onMember .included .descendants .year :: _ from selections_restated)
    refine exact.2 (fun idle => ?_) fun m _ other => ?_
    · cases idle.1
    · rcases other with other | other <;> cases other

/-- The list is not the shortest: nothing is missed without the month. -/
theorem not_irredundant_restated :
    Hierarchy.calendar.Built ∧ (Hierarchy.calendar.members.map Member.uniqueName).Nodup ∧
      restated.Reached Hierarchy.calendar ∧
      ¬ ∀ before a after, restated.selections = before ++ a :: after →
        Differs Hierarchy.calendar restated (ofSelections (before ++ after)) := by
  refine ⟨Hierarchy.calendar_built, by decide, restated_reached, fun needed => ?_⟩
  have differs := needed [.onMember .included .descendants .year]
    (.onMember .included .member .january) [] selections_restated
  cases differs with
  | member m inside different => revert m; decide
  | children m inside different => revert m; decide
  | subtree m inside different => revert m; decide
  | level l inside different => revert l; decide

end SelectionTree
end CubeAxis
