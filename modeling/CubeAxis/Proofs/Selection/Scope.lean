import CubeAxis.Proofs.Selection.Precedence

namespace CubeAxis
namespace Inherited

variable (i : Inherited) (st : SelectionState) (s : Sign)

theorem record_member : i.record st s .member =
    { st with member := (some s).filter (· != st.descendants.getD i.childrenSign.sign) } := by
  rw [record, SelectionState.apply, recorded_eq]

theorem record_children : i.record st s .children =
    { st with children := (some s).filter (· != st.descendants.getD i.default.sign) } := by
  simp only [record, SelectionState.apply, recorded_eq]

theorem record_memberAndChildren : i.record st s .memberAndChildren =
    { st with
      member := (some s).filter (· != st.descendants.getD i.childrenSign.sign)
      children := (some s).filter (· != st.descendants.getD i.default.sign) } := by
  simp only [record, SelectionState.apply, recorded_eq]

variable {op : Operator}

/-- The sign is what the member gets even where it is not recorded, because it holds anyway. -/
theorem sign_memberSign_record (own : op = .member ∨ op = .memberAndChildren) :
    (i.memberSign (i.record st s op)).sign = s := by
  rw [sign_memberSign]
  rcases own with rfl | rfl
  · rw [record_member]
    exact getD_filter_bne (some s) _
  · rw [record_memberAndChildren]
    exact getD_filter_bne (some s) _

theorem sign_childrenSign_record (beside : op = .children ∨ op = .memberAndChildren) :
    (i.handDown (i.record st s op)).childrenSign.sign = s := by
  rw [sign_childrenSign_handDown]
  rcases beside with rfl | rfl
  · rw [record_children]
    exact getD_filter_bne (some s) _
  · rw [record_memberAndChildren]
    exact getD_filter_bne (some s) _

end Inherited

namespace SelectionTree

variable {h : Hierarchy} {t u : SelectionTree} {s : Sign} {op : Operator} {m x : Member}

/-- The node of the member has no sign that decides the member by itself. -/
structure Unsigned (t : SelectionTree) (x : Member) : Prop where
  member : (t.stateOf x).member = none
  descendants : (t.stateOf x).descendants = none

/-- A subtree sign of `m` would come down to `x`: nothing on the way gives another sign. -/
structure Exposed (t : SelectionTree) (m x : Member) : Prop extends t.Unsigned x where
  below : m ∈ x.ancestors
  beside : x.parent? ≠ some m → t.siblingSign x = none
  between : ∀ a ∈ x.ancestors, m ∈ a.ancestors → (t.stateOf a).descendants = none

/-- The members that an action on `m` gives its sign. -/
def Reaches (t : SelectionTree) (m x : Member) : Operator → Prop
  | .member => x = m
  | .children => x.parent? = some m ∧ t.Unsigned x
  | .memberAndChildren => x = m ∨ x.parent? = some m ∧ t.Unsigned x
  | .descendants => x = m ∨ t.Exposed m x
  | .ancestors | .siblings => False

/-- From `t` to `u` the members that the action reaches have got its sign. Nothing else has
changed. -/
structure Effect (h : Hierarchy) (t : SelectionTree) (s : Sign) (op : Operator) (m : Member)
    (u : SelectionTree) : Prop where
  signed : ∀ x ∈ h.members, t.Reaches m x op → (u.resolve x).sign = s
  subtree : op = .descendants → ∀ x ∈ h.members, t.Reaches m x op →
    u.resolve x = ⟨s, .descendants⟩
  kept : ∀ x ∈ h.members, ¬ t.Reaches m x op → u.resolve x = t.resolve x
  levels : ∀ l, u.levelSign l = t.levelSign l

/-- Apart from the sign of the level nothing has changed from `t` to `u`. -/
structure LevelEffect (h : Hierarchy) (t : SelectionTree) (s : Sign) (l : Level)
    (u : SelectionTree) : Prop where
  signed : u.levelSign l = some s
  others : ∀ k ∈ h.levels, k ≠ l → u.levelSign k = t.levelSign k
  kept : ∀ x, u.resolve x = t.resolve x

/-- The children that are not decided by themselves have the sign of their parent for them. -/
theorem sign_resolve_child (parent : x.parent? = some m) (unsigned : t.Unsigned x) :
    (t.resolve x).sign = (t.handsDown m).childrenSign.sign := by
  cases x with
  | root => cases parent
  | child p n l =>
    cases parent
    rw [resolve, Inherited.sign_memberSign, unsigned.member, unsigned.descendants, inheritedBy_child]
    rfl

/-- What decides a member by itself makes the rest irrelevant. -/
theorem resolve_of_same (member : (u.stateOf x).member = (t.stateOf x).member)
    (descendants : (u.stateOf x).descendants = (t.stateOf x).descendants)
    (beside : t.Unsigned x → u.siblingSign x = t.siblingSign x)
    (above : t.Unsigned x → t.siblingSign x = none → u.nearestSign x = t.nearestSign x) :
    u.resolve x = t.resolve x := by
  rw [resolve_eq_ruled, resolve_eq_ruled, ruled, ruled, member, descendants]
  cases own : (t.stateOf x).member with
  | some s => rfl
  | none =>
    cases subtree : (t.stateOf x).descendants with
    | some s => rfl
    | none =>
      have siblings : u.siblingSign x = t.siblingSign x := beside ⟨own, subtree⟩
      have nearest := above ⟨own, subtree⟩
      rw [← siblingSign, ← siblingSign, ← nearestSign, ← nearestSign, siblings]
      cases given : t.siblingSign x with
      | some s => rfl
      | none => rw [nearest given]

theorem stateOf_onMember (t : SelectionTree) (s : Sign) (op : Operator) (m : Member) :
    (t.apply (.onMember s op m)).stateOf m = (t.inheritedBy m).record (t.stateOf m) s op := by
  rw [stateOf_apply, if_pos (Selection.isOn_iff.mpr ⟨m, rfl, rfl⟩)]
  rfl

theorem stateOf_onMember_off (op : Operator) (regular : h.Regular) (acted : m ∈ h.members) :
    ∀ x ∈ h.members, x ≠ m → (t.apply (.onMember s op m)).stateOf x = t.stateOf x := by
  intro x inside other
  rw [stateOf_apply, if_neg]
  intro on
  obtain ⟨k, target, same⟩ := Selection.isOn_iff.mp on
  obtain rfl : m = k := SelectionTarget.member.inj target
  have named := Member.uniqueName_of_path_beq (Member.list_beq_iff.mpr same)
  exact other (regular.unique m acted x inside named).symm

section

variable (regular : h.Regular) (off : ∀ x ∈ h.members, x ≠ m → u.stateOf x = t.stateOf x)

include regular off

theorem siblingSign_of_off (inside : x ∈ h.members)
    (same : x.parent? = some m → (u.stateOf m).children = (t.stateOf m).children) :
    u.siblingSign x = t.siblingSign x := by
  rw [siblingSign, siblingSign]
  cases parent : x.parent? with
  | none => rfl
  | some p =>
    by_cases here : p = m
    · subst here
      exact same parent
    · rw [Option.bind_some, Option.bind_some, off p (regular.parent_mem x inside p parent) here]

theorem nearestSign_of_off (inside : x ∈ h.members)
    (same : m ∈ x.ancestors → (u.stateOf m).descendants = (t.stateOf m).descendants) :
    u.nearestSign x = t.nearestSign x := by
  induction x with
  | root => rfl
  | child p n l ih =>
    have parent := regular.parent_mem _ inside p rfl
    have own : (u.stateOf p).descendants = (t.stateOf p).descendants := by
      by_cases here : p = m
      · subst here
        exact same p.mem_upward_self
      · rw [off p parent here]
    rw [nearestSign_child, nearestSign_child, own,
      ih parent fun above => same (Member.mem_upward_of_ancestors above)]

/-- A change of `m` that leaves its subtree sign shows on `m` and its children at most. -/
theorem resolve_of_off (inside : x ∈ h.members)
    (subtree : (u.stateOf m).descendants = (t.stateOf m).descendants)
    (own : x = m → (u.stateOf m).member = (t.stateOf m).member)
    (beside : x.parent? = some m → t.Unsigned x →
      (u.stateOf m).children = (t.stateOf m).children) : u.resolve x = t.resolve x := by
  have parts : (u.stateOf x).member = (t.stateOf x).member ∧
      (u.stateOf x).descendants = (t.stateOf x).descendants := by
    by_cases here : x = m
    · subst here
      exact ⟨own rfl, subtree⟩
    · rw [off x inside here]
      exact ⟨rfl, rfl⟩
  exact resolve_of_same parts.1 parts.2
    (fun unsigned => siblingSign_of_off regular off inside fun parent => beside parent unsigned)
    (fun _ _ => nearestSign_of_off regular off inside fun _ => subtree)

/-- The subtree sign of `m` comes down to `x` exactly if there is no other in between. -/
theorem nearestSign_below (subtree : (u.stateOf m).descendants = some s) (inside : x ∈ h.members)
    (below : m ∈ x.ancestors) :
    (∀ a ∈ x.ancestors, m ∈ a.ancestors → (t.stateOf a).descendants = none) ∧
        u.nearestSign x = some s ∨
      (∃ a ∈ x.ancestors, m ∈ a.ancestors ∧ (t.stateOf a).descendants ≠ none) ∧
        u.nearestSign x = t.nearestSign x := by
  induction x with
  | root => exact absurd below List.not_mem_nil
  | child p n l ih =>
    have parent := regular.parent_mem _ inside p rfl
    rw [nearestSign_child, nearestSign_child]
    rcases Member.mem_upward_iff.mp below with rfl | higher
    · refine Or.inl ⟨fun a above deeper => ?_, by rw [subtree, Option.some_or]⟩
      exact absurd deeper (Member.not_mem_ancestors_of_upward above)
    · -- the parent is in between and has kept its signs
      have other : p ≠ m := by
        rintro rfl
        exact Member.not_mem_ancestors_of_upward p.mem_upward_self higher
      rw [off p parent other]
      cases own : (t.stateOf p).descendants with
      | some v => exact Or.inr ⟨⟨p, p.mem_upward_self, higher, own ▸ nofun⟩, rfl⟩
      | none =>
        rw [Option.none_or, Option.none_or]
        rcases ih parent higher with ⟨clear, sign⟩ | ⟨⟨a, above, deeper, signed⟩, same⟩
        · refine Or.inl ⟨fun a above deeper => ?_, sign⟩
          rcases Member.mem_upward_iff.mp above with rfl | further
          · exact own
          · exact clear a further deeper
        · exact Or.inr ⟨⟨a, Member.mem_upward_of_ancestors above, deeper, signed⟩, same⟩

end

theorem inheritedBy_onMember (t : SelectionTree) (s : Sign) (op : Operator) (m : Member) :
    (t.apply (.onMember s op m)).inheritedBy m = t.inheritedBy m := by
  refine inheritedBy_apply fun k target above => ?_
  obtain rfl : m = k := SelectionTarget.member.inj target
  exact Nat.lt_irrefl _ above.2

theorem sign_onMember (own : op = .member ∨ op = .memberAndChildren) :
    ((t.apply (.onMember s op m)).resolve m).sign = s := by
  rw [resolve, inheritedBy_onMember, stateOf_onMember]
  exact Inherited.sign_memberSign_record _ _ _ own

theorem resolve_onDescendants (t : SelectionTree) (s : Sign) (m : Member) :
    (t.apply (.onMember s .descendants m)).resolve m = ⟨s, .descendants⟩ := by
  rw [resolve, stateOf_onMember]
  rfl

section

variable (regular : h.Regular) (acted : m ∈ h.members) (inside : x ∈ h.members)

include regular acted inside

theorem sign_onChildren_child (beside : op = .children ∨ op = .memberAndChildren)
    (parent : x.parent? = some m) (unsigned : t.Unsigned x) :
    ((t.apply (.onMember s op m)).resolve x).sign = s := by
  have other : x ≠ m := by
    rintro rfl
    exact absurd (Member.depth_of_parent? parent) (Nat.ne_of_lt (Nat.lt_succ_self _))
  have same : (t.apply (.onMember s op m)).stateOf x = t.stateOf x :=
    stateOf_onMember_off op regular acted x inside other
  rw [sign_resolve_child parent ⟨same ▸ unsigned.member, same ▸ unsigned.descendants⟩,
    handsDown, inheritedBy_onMember, stateOf_onMember]
  exact Inherited.sign_childrenSign_record _ _ _ beside

theorem resolve_of_exposed (exposed : t.Exposed m x) :
    (t.apply (.onMember s .descendants m)).resolve x = ⟨s, .descendants⟩ := by
  have off := stateOf_onMember_off (t := t) (s := s) (m := m) .descendants regular acted
  have own : (t.apply (.onMember s .descendants m)).stateOf m = .withDescendants s :=
    t.stateOf_onMember s .descendants m
  generalize t.apply (.onMember s .descendants m) = u at *
  have other : x ≠ m := by
    rintro rfl
    exact Member.not_mem_ancestors_of_upward x.mem_upward_self exposed.below
  have beside : u.siblingSign x = none := by
    by_cases parent : x.parent? = some m
    · rw [siblingSign, parent, Option.bind_some, own]
      rfl
    · rw [siblingSign_of_off regular off inside fun yes => absurd yes parent]
      exact exposed.beside parent
  have nearest : u.nearestSign x = some s := by
    have subtree : (u.stateOf m).descendants = some s := by rw [own]; rfl
    rcases nearestSign_below regular off subtree inside exposed.below with ⟨-, sign⟩ | shielded
    · exact sign
    · obtain ⟨⟨a, above, deeper, signed⟩, -⟩ := shielded
      exact absurd (exposed.between a above deeper) signed
  rw [resolve_eq_ruled, ruled, off x inside other, exposed.member, exposed.descendants,
    ← siblingSign, beside, ← nearestSign, nearest]

theorem resolve_of_not_exposed (other : x ≠ m) (hidden : ¬ t.Exposed m x) :
    (t.apply (.onMember s .descendants m)).resolve x = t.resolve x := by
  have off := stateOf_onMember_off (t := t) (s := s) (m := m) .descendants regular acted
  have own := t.stateOf_onMember s .descendants m
  generalize t.apply (.onMember s .descendants m) = u at *
  have parent : t.Unsigned x → x.parent? ≠ some m := fun unsigned parent => by
    refine hidden ⟨unsigned, Member.parent_mem_ancestors parent, absurd parent, ?_⟩
    intro a above deeper
    rw [Member.ancestors_of_parent? parent] at above
    exact absurd deeper (Member.not_mem_ancestors_of_upward above)
  have beside : t.Unsigned x → u.siblingSign x = t.siblingSign x := fun unsigned =>
    siblingSign_of_off regular off inside fun yes => absurd yes (parent unsigned)
  have nearest : t.Unsigned x → t.siblingSign x = none → u.nearestSign x = t.nearestSign x := by
    intro unsigned none
    by_cases below : m ∈ x.ancestors
    · have subtree := congrArg SelectionState.descendants own
      rcases nearestSign_below regular off subtree inside below with ⟨clear, -⟩ | shielded
      · exact absurd ⟨unsigned, below, fun _ => none, clear⟩ hidden
      · exact shielded.2
    · exact nearestSign_of_off regular off inside fun yes => absurd yes below
  exact resolve_of_same (by rw [off x inside other]) (by rw [off x inside other]) beside nearest

theorem resolve_of_not_reaches (out : ¬ t.Reaches m x op) :
    (t.apply (.onMember s op m)).resolve x = t.resolve x := by
  have off := stateOf_onMember_off (t := t) (s := s) (m := m) op regular acted
  have own := t.stateOf_onMember s op m
  cases op with
  | member =>
    rw [Inherited.record_member] at own
    exact resolve_of_off regular off inside (by rw [own]) (fun here => absurd here out)
      fun _ _ => by rw [own]
  | children =>
    rw [Inherited.record_children] at own
    exact resolve_of_off regular off inside (by rw [own]) (fun _ => by rw [own])
      fun parent unsigned => absurd ⟨parent, unsigned⟩ out
  | memberAndChildren =>
    rw [Inherited.record_memberAndChildren] at own
    exact resolve_of_off regular off inside (by rw [own])
      (fun here => absurd (Or.inl here) out)
      fun parent unsigned => absurd (Or.inr ⟨parent, unsigned⟩) out
  | descendants =>
    obtain ⟨other, hidden⟩ := not_or.mp out
    exact resolve_of_not_exposed regular acted inside other hidden
  | ancestors | siblings =>
    exact resolve_of_off regular off inside (by rw [own]; rfl) (fun _ => by rw [own]; rfl)
      fun _ _ => by rw [own]; rfl

end

theorem levelSign_onLevel (t : SelectionTree) (s : Sign) (l k : Level) :
    (t.apply (.onLevel s l)).levelSign k = if k == l then some s else t.levelSign k := by
  have parts : (t.apply (.onLevel s l)).levels =
      t.levels.filter (fun o => !(o.level == l)) ++ [⟨l, s, t.nextSequence⟩] := rfl
  rw [levelSign, parts, List.find?_append, List.find?_filter]
  by_cases same : (k == l) = true
  · have gone : t.levels.find? (fun o => !(o.level == l) && o.level == k) = none := by
      refine List.find?_eq_none.mpr fun o _ => ?_
      rw [BEq.congr_right same, Bool.not_and_self]
      exact Bool.false_ne_true
    simp [gone, same, BEq.symm same]
  · have kept (o : LevelOverride) : (!(o.level == l) && o.level == k) = (o.level == k) := by
      by_cases here : (o.level == k) = true
      · have other : (o.level == l) = false :=
          Bool.eq_false_iff.mpr fun yes => same (BEq.trans (BEq.symm here) yes)
        simp [here, other]
      · simp [here]
    have last : (l == k) = false := Bool.eq_false_iff.mpr fun yes => same (BEq.symm yes)
    simp [kept, same, last, levelSign]

/-- An action gives its sign to what it reaches, and changes nothing else. -/
theorem apply_effect (sound : h.Sound) (names : (h.members.map Member.uniqueName).Nodup)
    (levels : (h.levels.map Level.name).Nodup) (t : SelectionTree) (s : Sign) :
    (∀ m ∈ h.members, ∀ op, Effect h t s op m (t.apply (.onMember s op m))) ∧
      ∀ l ∈ h.levels, LevelEffect h t s l (t.apply (.onLevel s l)) := by
  have regular : h.Regular := ⟨sound, Hierarchy.eq_of_nodup_uniqueNames names⟩
  constructor
  · intro m acted op
    have subtree : op = .descendants → ∀ x ∈ h.members, t.Reaches m x op →
        (t.apply (.onMember s op m)).resolve x = ⟨s, .descendants⟩ := by
      rintro rfl x inside (rfl | exposed)
      · exact t.resolve_onDescendants s x
      · exact resolve_of_exposed regular acted inside exposed
    refine ⟨fun x inside reached => ?_, subtree,
      fun x inside out => resolve_of_not_reaches regular acted inside out, fun _ => rfl⟩
    cases op with
    | member =>
      obtain rfl : x = m := reached
      exact sign_onMember (Or.inl rfl)
    | children =>
      exact sign_onChildren_child regular acted inside (Or.inl rfl) reached.1 reached.2
    | memberAndChildren =>
      rcases reached with rfl | ⟨parent, unsigned⟩
      · exact sign_onMember (Or.inr rfl)
      · exact sign_onChildren_child regular acted inside (Or.inr rfl) parent unsigned
    | descendants => rw [subtree rfl x inside reached]
    | ancestors | siblings => exact absurd reached id
  · intro l listed
    refine ⟨?_, fun k level other => ?_, fun _ => rfl⟩
    · rw [levelSign_onLevel, if_pos BEq.rfl]
    · rw [levelSign_onLevel, if_neg fun same => other (sound.level_eq levels level listed same)]

theorem apply_effect_overtaken :
    (∀ m ∈ Hierarchy.calendar.members, ∀ op,
        Effect Hierarchy.calendar overtaken .excluded op m
          (overtaken.apply (.onMember .excluded op m))) ∧
      ∀ l ∈ Hierarchy.calendar.levels, LevelEffect Hierarchy.calendar overtaken .excluded l
        (overtaken.apply (.onLevel .excluded l)) :=
  apply_effect Hierarchy.calendar_built.sound (by decide) (by decide) overtaken .excluded

/-- The sign that a member has from subtrees alone: its own subtree sign or else, if its parent
has no sign for the children, the nearest above. -/
def subtreeSign? (t : SelectionTree) (m : Member) : Option Sign :=
  (t.stateOf m).descendants.or <|
    match t.siblingSign m with
    | some _ => none
    | none => some ((t.nearestSign m).getD .excluded)

/-- The member has the sign from subtrees anyway, but its level has the opposite one. -/
def Overruled (t : SelectionTree) (s : Sign) (m : Member) : Prop :=
  t.subtreeSign? m = some s ∧ t.levelSign m.level = some s.opposite

theorem subtreeSign?_eq_some_iff : t.subtreeSign? m = some s ↔
    (t.stateOf m).descendants.getD (t.inheritedBy m).childrenSign.sign = s ∧
      ¬ ((t.stateOf m).descendants = none ∧ (t.inheritedBy m).children.isSome) := by
  rw [subtreeSign?, Inherited.sign_childrenSign, children_inheritedBy, sign_default_inheritedBy]
  cases (t.stateOf m).descendants <;> cases t.siblingSign m <;> simp

/-- After an action on a member its sign is not explicit exactly if the member had the sign from
subtrees anyway. -/
theorem source_onMember : ((t.apply (.onMember s .member m)).resolve m).source ≠ .explicit ↔
    t.subtreeSign? m = some s := by
  rw [resolve, inheritedBy_onMember, stateOf_onMember, Inherited.record_member, ne_eq,
    Inherited.source_memberSign (t.default_source_inheritedBy m), subtreeSign?_eq_some_iff, not_or]
  refine and_congr_left fun _ => ?_
  rw [Option.filter_some]
  split
  · rename_i other
    exact iff_of_false (fun absent => absent rfl) fun same => by simp [same] at other
  · rename_i same
    refine iff_of_true (by simp) (Eq.symm ?_)
    simpa using same

/-- After an action on a member the member has its sign unless the level overrules it. -/
theorem isIncluded_onMember_iff (t : SelectionTree) (s : Sign) (m : Member) :
    (t.apply (.onMember s .member m)).isIncluded m = s.isIncluded ↔ ¬ t.Overruled s m := by
  have sign : ((t.apply (.onMember s .member m)).resolve m).sign = s := sign_onMember (Or.inl rfl)
  have level : (t.apply (.onMember s .member m)).levelSign m.level = t.levelSign m.level := rfl
  rw [isIncluded, level, Sign.isIncluded_inj, Overruled, ← source_onMember]
  by_cases explicit : ((t.apply (.onMember s .member m)).resolve m).source = .explicit
  · rw [ResolvedSign.withLevel_of_explicit explicit]
    exact iff_of_true sign fun both => both.1 explicit
  · rw [ResolvedSign.withLevel_of_not_explicit explicit, sign, and_iff_right explicit]
    cases t.levelSign m.level with
    | none => simp
    | some v => cases v <;> cases s <;> simp [Sign.opposite]

/-- The overtaken month is included, and so is its year with all below. Included once more, it
has no sign of its own left, and so the excluded level prevails. -/
theorem not_isIncluded_onMember_overtaken :
    Hierarchy.calendar.Built ∧ (Hierarchy.calendar.members.map Member.uniqueName).Nodup ∧
      (Hierarchy.calendar.levels.map Level.name).Nodup ∧
      overtaken.Reached Hierarchy.calendar ∧ .january ∈ Hierarchy.calendar.members ∧
      ¬ ((overtaken.apply (.onMember .included .member .january)).isIncluded .january =
        Sign.included.isIncluded) :=
  ⟨Hierarchy.calendar_built, by decide, by decide, overtaken_reached,
    Hierarchy.january_mem_calendar, by decide⟩

end SelectionTree
end CubeAxis
