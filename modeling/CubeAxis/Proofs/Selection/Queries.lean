import CubeAxis.Proofs.Selection.Precedence

namespace CubeAxis

namespace Site

variable {s : Site} {m : Member} {i : Inherited}

theorem handsDown_of_label (label : s.label = some (m, i)) : s.handsDown = i.handDown s.state := by
  rw [handsDown, label]
  rfl

theorem effectiveSign_of_label (label : s.label = some (m, i)) (op : Operator) :
    s.effectiveSign op = s.state.effectiveSign op
      (some (if op = .member then i.childrenSign.sign else i.default.sign)) := by
  rw [effectiveSign, label]
  cases op <;> rfl

theorem effectiveSign_member_of_label (label : s.label = some (m, i)) :
    s.effectiveSign .member = some s.memberSign.sign := by
  rw [effectiveSign_of_label label, memberSign, label]
  obtain ⟨_, ⟨own, _, subtree⟩, _, _⟩ := s
  cases own <;> cases subtree <;> rfl

theorem effectiveSign_children_of_label (label : s.label = some (m, i)) :
    s.effectiveSign .children = some s.childrenSign.sign := by
  rw [effectiveSign_of_label label, childrenSign, handsDown_of_label label]
  obtain ⟨_, ⟨_, children, subtree⟩, _, _⟩ := s
  cases children <;> cases subtree <;> rfl

theorem effectiveSign_descendants_of_label (label : s.label = some (m, i)) :
    s.effectiveSign .descendants = some s.defaultSign := by
  rw [effectiveSign_of_label label, defaultSign, handsDown_of_label label]
  obtain ⟨_, ⟨_, _, subtree⟩, _, _⟩ := s
  cases subtree <;> rfl

end Site

namespace SelectionTree

variable {h : Hierarchy} {t : SelectionTree} {id p : NodeId} {s r : Site} {m : Member}

/-- What a node answers about one sign is the same whichever way it is asked. -/
structure Agreeing (t : SelectionTree) (id : NodeId) (s : Site) : Prop where
  member : s.effectiveSign .member = some s.memberSign.sign
  children : s.effectiveSign .children = some s.childrenSign.sign
  descendants : s.effectiveSign .descendants = some s.defaultSign
  default : s.defaultSign = s.descendantsDefault.sign
  climbed : t.climb id = some s.descendantsDefault
  fallback : ∀ p r, parentId? id = some p → t.site? p = some r → ∀ op,
    s.effectiveSign op = s.state.effectiveSign op
      (some (if op = .member then r.state.children.getD r.defaultSign else r.defaultSign))

theorem label_of_parentId? (parent : parentId? id = some p) (found : t.site? id = some s)
    (upper : t.site? p = some r) : ∃ m, s.label = some (m, r.handsDown) := by
  obtain ⟨k, below⟩ := exists_siteAt?_of_parentId? parent found upper
  have label := Forest.label_siteAt?_singleton r.handsDown r.children k
  rw [below, Option.map_some] at label
  obtain ⟨m, -, same⟩ := Option.map_eq_some_iff.mp label.symm
  exact ⟨m, same.symm⟩

theorem climb_of_parentId? (parent : parentId? id = some p) (found : t.site? id = some s)
    (member : s.member?.isSome) : t.climb id =
      (s.state.descendants.map (⟨·, .descendants⟩)).or (t.climb p) := by
  rw [climb, found, Option.bind_eq_bind, Option.bind_some, if_pos member]
  cases s.state.descendants with
  | some sign => rfl
  | none =>
    dsimp only
    rw [Option.map_none, Option.none_or]
    split
    · rename_i q above
      obtain rfl : q = p := Option.some.inj (above.symm.trans parent)
      rfl
    · rename_i above
      rw [parent] at above
      cases above

/-- Climbing up comes to the sign that is handed down. -/
theorem climb_eq (found : t.site? id = some s) : t.climb id = some s.descendantsDefault := by
  obtain ⟨epoch, place⟩ := id
  induction place using List.reverseRecOn generalizing s with
  | nil =>
    cases found
    rw [climb]
    rfl
  | append_singleton place k ih =>
    have parent : parentId? ⟨epoch, place ++ [k]⟩ = some ⟨epoch, place⟩ :=
      parentId?_eq_some_iff.mpr ⟨k, rfl⟩
    obtain ⟨r, upper⟩ := exists_site?_of_parentId? parent found
    obtain ⟨m, label⟩ := label_of_parentId? parent found upper
    have member : s.member?.isSome := by
      rw [Site.member?, label]
      rfl
    have down : s.descendantsDefault = (r.handsDown.handDown s.state).default := by
      rw [Site.descendantsDefault, Site.handsDown_of_label label]
    rw [climb_of_parentId? parent found member, ih upper, down, Inherited.handDown]
    cases s.state.descendants <;> rfl

/-- A node other than the root stands for a member. -/
theorem exists_label (found : t.site? id = some s) (below : id.place ≠ []) :
    ∃ m i, s.label = some (m, i) := by
  obtain ⟨-, here⟩ := (site?_eq_some_iff below).mp found
  obtain ⟨m, o, -, member, -⟩ := Forest.exists_node_of_siteAt? here
  obtain ⟨⟨l, i⟩, label, -⟩ := Option.map_eq_some_iff.mp member
  exact ⟨l, i, label⟩

theorem children_handsDown (found : t.site? id = some s) :
    s.handsDown.children = s.state.children := by
  by_cases root : id.place = []
  · rw [site?_of_place_eq_nil root] at found
    cases found
    rfl
  · obtain ⟨m, i, label⟩ := exists_label found root
    rw [Site.handsDown_of_label label]
    rfl

theorem effectiveSign_eq_fallback (parent : parentId? id = some p) (found : t.site? id = some s)
    (upper : t.site? p = some r) (op : Operator) :
    s.effectiveSign op = s.state.effectiveSign op
      (some (if op = .member then r.state.children.getD r.defaultSign else r.defaultSign)) := by
  obtain ⟨m, label⟩ := label_of_parentId? parent found upper
  rw [Site.effectiveSign_of_label label, Inherited.sign_childrenSign, children_handsDown upper]
  rfl

theorem agreeing_of_site? (found : t.site? id = some s) : t.Agreeing id s := by
  have climbed := climb_eq found
  have fallback : ∀ p r, parentId? id = some p → t.site? p = some r → ∀ op, _ :=
    fun p r parent upper => effectiveSign_eq_fallback parent found upper
  by_cases root : id.place = []
  · rw [site?_of_place_eq_nil root] at found
    cases found
    exact ⟨rfl, rfl, rfl, rfl, climbed, fallback⟩
  · obtain ⟨m, i, label⟩ := exists_label found root
    exact ⟨Site.effectiveSign_member_of_label label, Site.effectiveSign_children_of_label label,
      Site.effectiveSign_descendants_of_label label, rfl, climbed, fallback⟩

/-- The node found for a member knows its sign: as its own if it stands for the member, else as
that for its children if it stands right above, else as that for all below. -/
structure Answering (t : SelectionTree) (m : Member) (s : Site) : Prop where
  own : t.hasNode m = true → s.member? = some m ∧ t.resolve m = s.memberSign
  child : t.hasNode m = false → s.member? = m.parent? → t.resolve m = s.childrenSign
  deeper : t.hasNode m = false → s.member? ≠ m.parent? → t.resolve m = s.descendantsDefault

section

variable (regular : h.Regular) (reached : t.Reached h)

include regular reached

theorem Reached.mem_of_member? (found : t.site? id = some s) (member : s.member? = some m) :
    m ∈ h.members := by
  rcases site?_cases found with ⟨-, rfl⟩ | ⟨-, -, below⟩
  · cases member
  · obtain ⟨k, inside, same, -⟩ := (reached.hung regular).of_siteAt? below
    obtain rfl : k = m := Option.some.inj (same.symm.trans member)
    exact inside

theorem Reached.member?_beq_parent?_iff (found : t.site? id = some s) (inside : m ∈ h.members) :
    (s.member? == m.parent?) = true ↔ s.member? = m.parent? := by
  cases member : s.member? with
  | none => cases m.parent? <;> simp
  | some l =>
    cases parent : m.parent? with
    | none => simp
    | some k =>
      have upper := regular.parent_mem m inside k parent
      have same := regular.beq_iff (reached.mem_of_member? regular found member) upper
      rw [Option.some_beq_some, same, Option.some.injEq]

theorem Reached.answering (found : t.site? (t.find m) = some s) (inside : m ∈ h.members) :
    t.Answering m s := by
  have sign := t.foundSign?_eq m
  rw [foundSign?, found, Option.map_some, Option.some.injEq] at sign
  have beside := reached.member?_beq_parent?_iff regular found inside
  refine ⟨fun node => ?_, fun absent same => ?_, fun absent other => ?_⟩
  · have member := (reached.hasNode_iff_find regular inside).mp node
    rw [found, Option.bind_some] at member
    rw [member, if_pos BEq.rfl] at sign
    exact ⟨member, sign.symm⟩
  · rw [if_neg (not_beq_of_no_node absent found), if_pos (beside.mpr same)] at sign
    exact sign.symm
  · rw [if_neg (not_beq_of_no_node absent found),
      if_neg fun same => other (beside.mp same)] at sign
    exact sign.symm

end

/-- All ways to ask for a sign agree, on every node of any tree and for every member of the
hierarchy that a tree is about. -/
theorem queries_agree (t : SelectionTree) :
    (∀ id s, t.site? id = some s → t.Agreeing id s) ∧
      ∀ h : Hierarchy, h.Sound → (h.members.map Member.uniqueName).Nodup → t.Reached h →
        ∀ m ∈ h.members, ∃ s, t.site? (t.find m) = some s ∧ t.Answering m s := by
  refine ⟨fun _ _ => agreeing_of_site?, fun h sound names reached m inside => ?_⟩
  have regular : h.Regular := ⟨sound, Hierarchy.eq_of_nodup_uniqueNames names⟩
  obtain ⟨s, found, -⟩ := t.site?_find m
  exact ⟨s, found, reached.answering regular found inside⟩

/-- The year of the overtaken month has a second node for that month. -/
def doubled : SelectionTree :=
  (overtaken.createChild (overtaken.find .year) .january).2

theorem queries_agree_overtaken :
    (∀ id s, doubled.site? id = some s → doubled.Agreeing id s) ∧
      ∃ s, overtaken.site? (overtaken.find .january) = some s ∧ overtaken.Answering .january s :=
  ⟨(queries_agree doubled).1,
    (queries_agree overtaken).2 _ Hierarchy.calendar_built.sound (by decide) overtaken_reached _
      Hierarchy.january_mem_calendar⟩

end SelectionTree
end CubeAxis
