import CubeAxis.Proofs.Forest
import CubeAxis.Selection.Tree

namespace CubeAxis

/-- Below a node stand children of its member, above all nodes root members. -/
def Hierarchy.lineage (h : Hierarchy) : Forest.Rule (Option Member) where
  allows parent m := m ∈ h.members ∧ m.parent? = parent
  below _ m := some m

theorem Hierarchy.Regular.lineage_faithful {h : Hierarchy} (regular : h.Regular) :
    h.lineage.Faithful :=
  fun _ _ _ left right same => congrArg some ((regular.beq_iff left.1 right.1).mp same)

theorem Hierarchy.Sound.follows_pathFromRoot {h : Hierarchy} (sound : h.Sound) {m : Member}
    (inside : m ∈ h.members) :
    h.lineage.Follows none m.pathFromRoot ∧ h.lineage.after none m.pathFromRoot = some m := by
  induction m with
  | root _ n l => exact ⟨⟨⟨inside, rfl⟩, trivial⟩, rfl⟩
  | child p n l ih =>
    obtain ⟨path, last⟩ := ih (sound.parent_mem _ inside p rfl)
    rw [Member.pathFromRoot_of_parent? (p := p) rfl, Forest.Rule.follows_append,
      Forest.Rule.after_append, last]
    exact ⟨⟨path, ⟨inside, rfl⟩, trivial⟩, rfl⟩

/-- The nodes follow the hierarchy, below the node of `parent` or from the roots on. -/
def Forest.Hung {α : Type} (h : Hierarchy) (parent : Option Member) (f : Forest α) : Prop :=
  f.Obeys h.lineage (fun _ _ => True) parent

/-- The action is about a member or a level of the hierarchy. -/
def SelectionTarget.Within (h : Hierarchy) : SelectionTarget → Prop
  | member m => m ∈ h.members
  | level l => l ∈ h.levels

namespace SelectionTree

/-- The trees that actions on members and levels of a hierarchy lead to. -/
inductive Reached (h : Hierarchy) : SelectionTree → Prop
  | empty : Reached h .empty
  | apply {t : SelectionTree} (a : Selection) : Reached h t → a.target.Within h →
      Reached h (t.apply a)
  | clear {t : SelectionTree} : Reached h t → Reached h t.clear

/-- The trees that any actions lead to. -/
inductive Grown : SelectionTree → Prop
  | empty : Grown .empty
  | apply {t : SelectionTree} (a : Selection) : Grown t → Grown (t.apply a)
  | clear {t : SelectionTree} : Grown t → Grown t.clear

theorem Reached.grown {h : Hierarchy} {t : SelectionTree} (reached : t.Reached h) : t.Grown := by
  induction reached with
  | empty => exact .empty
  | apply a _ _ ih => exact .apply a ih
  | clear _ ih => exact .clear ih

theorem Reached.hung {h : Hierarchy} (regular : h.Regular) {t : SelectionTree}
    (reached : t.Reached h) : t.overrides.Hung h none := by
  induction reached with
  | empty => trivial
  | @apply t a _ within ih =>
    obtain ⟨sign, operator, target⟩ := a
    cases target with
    | member m =>
      obtain ⟨follows, _⟩ := regular.follows_pathFromRoot within
      exact ih.upsert regular.lineage_faithful (fun _ _ => trivial) follows (fun _ _ => trivial)
    | level l => exact ih
  | clear _ _ => trivial

end SelectionTree

theorem Sign.isIncluded_inj {s r : Sign} : s.isIncluded = r.isIncluded ↔ s = r := by
  cases s <;> cases r <;> decide

namespace ResolvedSign

variable {r : ResolvedSign}

theorem withLevel_of_explicit (explicit : r.source = .explicit) (o : Option Sign) :
    r.withLevel o = r.sign := by
  unfold withLevel
  rw [explicit]

theorem withLevel_of_not_explicit (plain : r.source ≠ .explicit) (o : Option Sign) :
    r.withLevel o = o.getD r.sign := by
  obtain ⟨sign, source⟩ := r
  cases source with
  | explicit => exact absurd rfl plain
  | descendants => cases o <;> rfl
  | root => cases o <;> rfl

end ResolvedSign

namespace Inherited

theorem sign_childrenSign (i : Inherited) :
    i.childrenSign.sign = i.children.getD i.default.sign := by
  obtain ⟨_ | s, d⟩ := i <;> rfl

theorem sign_memberSign (i : Inherited) (st : SelectionState) :
    (i.memberSign st).sign = st.member.getD (st.descendants.getD i.childrenSign.sign) := by
  obtain ⟨_ | s, children, _ | d⟩ := st <;> rfl

theorem source_memberSign {i : Inherited} {st : SelectionState}
    (plain : i.default.source ≠ .explicit) : (i.memberSign st).source = .explicit ↔
      st.member.isSome ∨ st.descendants = none ∧ i.children.isSome := by
  obtain ⟨_ | s, children, _ | d⟩ := st <;> obtain ⟨_ | c, default⟩ := i <;>
    simp_all [memberSign, childrenSign]

theorem sign_default_handDown (i : Inherited) (st : SelectionState) :
    (i.handDown st).default.sign = st.descendants.getD i.default.sign := by
  obtain ⟨member, children, _ | d⟩ := st <;> rfl

theorem sign_childrenSign_handDown (i : Inherited) (st : SelectionState) :
    (i.handDown st).childrenSign.sign =
      st.children.getD (st.descendants.getD i.default.sign) := by
  rw [sign_childrenSign, sign_default_handDown]
  rfl

end Inherited

/-- What the member at the end of a path is handed, and what its node records. -/
def Forest.lookup (i : Inherited) (f : Forest Override) (path : List Member) :
    Inherited × SelectionState :=
  (f.inherited i path, (f.value? path).elim {} (·.state))

namespace Forest

variable {i : Inherited} {m k : Member} {o : Override} {children siblings f : Forest Override}
  {path : List Member}

theorem lookup_fst : (f.lookup i path).1 = f.inherited i path := rfl

theorem lookup_node : (cons m o children siblings).lookup i [m] = (i, o.state) := by
  simp [lookup, inherited, value?, find?]

theorem lookup_below :
    (cons m o children siblings).lookup i (m :: k :: path) =
      children.lookup (i.handDown o.state) (k :: path) := by
  simp [lookup, inherited, value?, find?]

theorem lookup_siblings (different : (k == m) = false) :
    (cons k o children siblings).lookup i (m :: path) = siblings.lookup i (m :: path) := by
  have state : (cons k o children siblings).value? (m :: path) = siblings.value? (m :: path) := by
    simp [value?, find?, different]
  have handed : (cons k o children siblings).inherited i (m :: path) =
      siblings.inherited i (m :: path) := by
    cases path <;> simp [inherited, different]
  rw [lookup, lookup, state, handed]

/-- No node stands on the path: the member records nothing, and what it is handed
depends on its distance alone. -/
theorem lookup_of_not_label (absent : ∀ l ∈ f.labels, (l == m) = false) :
    f.lookup i (m :: path) = (if path.isEmpty then i else ⟨none, i.default⟩, {}) := by
  induction f with
  | nil => cases path <;> rfl
  | cons k o children siblings _ ih =>
    rw [lookup_siblings (absent k List.mem_cons_self)]
    exact ih fun l mem => absent l (List.mem_cons_of_mem _ mem)

/-- What is handed down along a path with one more member. -/
theorem inherited_append (f : Forest Override) (any : path ≠ []) (m : Member) :
    f.inherited i (path ++ [m]) =
      (f.inherited i path).handDown ((f.value? path).elim {} (·.state)) := by
  induction f generalizing i path with
  | nil => rcases path with _ | ⟨k, _ | ⟨l, path⟩⟩ <;> first | exact absurd rfl any | rfl
  | cons k o children siblings ihBelow ihBeside =>
    obtain ⟨a, path, rfl⟩ := List.exists_cons_of_ne_nil any
    rw [value?_cons]
    by_cases here : (k == a) = true
    · rcases path with _ | ⟨b, path⟩
      · cases children <;> simp [inherited, here]
      · simpa [inherited, here] using ihBelow (List.cons_ne_nil b path)
    · have beside := ihBeside (i := i) any
      rcases path with _ | ⟨b, path⟩
      · cases siblings <;> simp_all [inherited]
      · simpa [inherited, here] using beside

end Forest

namespace SelectionTree

theorem inheritedBy_root (t : SelectionTree) (h n l : String) :
    t.inheritedBy (.root h n l) = .top := by
  rw [inheritedBy]
  cases t.overrides <;> rfl

theorem inheritedBy_child (t : SelectionTree) (p : Member) (n l : String) :
    t.inheritedBy (.child p n l) = (t.inheritedBy p).handDown (t.stateOf p) := by
  rw [inheritedBy, Member.pathFromRoot_of_parent? (p := p) rfl]
  exact t.overrides.inherited_append p.pathFromRoot_ne_nil _

/-- What a member records and is handed depends on the names on its path alone. -/
theorem stateOf_congr (t : SelectionTree) {k m : Member} (same : k.names = m.names) :
    t.stateOf k = t.stateOf m := by
  rw [stateOf, stateOf, Forest.value?_congr same]

theorem inheritedBy_congr_names (t : SelectionTree) {k m : Member} (same : k.names = m.names) :
    t.inheritedBy k = t.inheritedBy m := by
  have depths := Member.depth_eq_of_names same
  induction m generalizing k with
  | root g n l =>
    cases k with
    | root => rw [inheritedBy_root, inheritedBy_root]
    | child => cases depths
  | child p n l ih =>
    cases k with
    | root => cases depths
    | child q a b =>
      rw [Member.names_of_parent? (m := .child q a b) rfl,
        Member.names_of_parent? (m := .child p n l) rfl] at same
      obtain ⟨parents, -⟩ := List.append_inj' same rfl
      rw [inheritedBy_child, inheritedBy_child, ih parents (Nat.succ.inj depths),
        t.stateOf_congr parents]

theorem hasNode_eq (t : SelectionTree) (m : Member) :
    t.hasNode m = (t.overrides.value? m.pathFromRoot).isSome := by
  rw [hasNode, Forest.value?, Option.isSome_map]

/-- An action on a member changes the state of that member alone. -/
theorem stateOf_applyMember (t : SelectionTree) (s : Sign) (op : Operator) (m k : Member) :
    (t.applyMember s op m).stateOf k = if k.pathFromRoot == m.pathFromRoot then
      (t.inheritedBy m).record (t.stateOf k) s op else t.stateOf k := by
  have any := k.pathFromRoot_ne_nil
  rw [Forest.beq_eq_isPrefixOf_and_length]
  cases on : k.pathFromRoot.isPrefixOf m.pathFromRoot with
  | false =>
    rw [Bool.false_and, if_neg Bool.false_ne_true, stateOf, applyMember,
      Forest.value?_upsert_of_not_prefix on]
    rfl
  | true =>
    rw [Bool.true_and, stateOf, applyMember, Forest.value?_upsert_of_prefix any on, stateOf]
    by_cases same : k.pathFromRoot.length = m.pathFromRoot.length
    · cases t.overrides.value? k.pathFromRoot <;> simp [same, Override.fresh]
    · cases t.overrides.value? k.pathFromRoot <;> simp [same, Override.fresh]

theorem levelSign_congr (t : SelectionTree) {k l : Level} (same : (k == l) = true) :
    t.levelSign k = t.levelSign l := by
  simp only [levelSign, BEq.congr_right same]

theorem resolve_eq (t : SelectionTree) (m : Member) :
    t.resolve m = (t.overrides.lookup .top m.pathFromRoot).1.memberSign
      (t.overrides.lookup .top m.pathFromRoot).2 :=
  rfl

/-- The member has a sign of its own or one from its parent, so that a level-wide
sign does not reach it. -/
def isSpecial (t : SelectionTree) (m : Member) : Bool :=
  (t.stateOf m).member.isSome || (t.inheritedBy m).children.isSome

end SelectionTree

/-- What is handed down for a subtree never counts as explicit. -/
theorem Forest.default_source_inherited {i : Inherited} (plain : i.default.source ≠ .explicit)
    (f : Forest Override) (path : List Member) :
    (f.inherited i path).default.source ≠ .explicit := by
  induction f generalizing i path with
  | nil => rcases path with _ | ⟨m, _ | ⟨k, path⟩⟩ <;> exact plain
  | cons k o children siblings ihBelow ihBeside =>
    rcases path with _ | ⟨m, _ | ⟨n, path⟩⟩
    · exact plain
    · exact plain
    · rw [inherited]
      split
      · refine ihBelow ?_ _
        rw [Inherited.handDown]
        cases o.state.descendants with
        | none => exact plain
        | some s => exact SignSource.noConfusion
      · exact ihBeside plain _

theorem SelectionTree.default_source_inheritedBy (t : SelectionTree) (m : Member) :
    (t.inheritedBy m).default.source ≠ .explicit :=
  t.overrides.default_source_inherited (i := .top) SignSource.noConfusion _

/-- A level-wide sign decides wherever nothing special is recorded. -/
theorem SelectionTree.isIncluded_of_levelSign {t : SelectionTree} {m : Member} {s : Sign}
    (plain : t.isSpecial m = false) (signed : t.levelSign m.level = some s) :
    t.isIncluded m = s.isIncluded := by
  rw [isSpecial, Bool.or_eq_false_iff] at plain
  have source : (t.resolve m).source ≠ .explicit := by
    rw [resolve, Ne, Inherited.source_memberSign (t.default_source_inheritedBy m), plain.1, plain.2]
    simp
  rw [isIncluded, signed, ResolvedSign.withLevel_of_not_explicit source]
  rfl

end CubeAxis
