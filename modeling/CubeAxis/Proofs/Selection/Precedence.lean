import CubeAxis.Proofs.Selection.Normal
import CubeAxis.Proofs.Selection.Placement

namespace CubeAxis

/-- The sign that precedence gives a member when `states` is what the nodes record: the
member's own sign, its subtree sign, the sign of its parent for the children, then the nearest
subtree sign above. Without any of these the member is excluded. -/
def ruled (states : Member → SelectionState) (m : Member) : ResolvedSign :=
  match (states m).member, (states m).descendants,
    m.parent?.bind (fun p => (states p).children),
    m.ancestors.findSome? (fun a => (states a).descendants) with
  | some s, _, _, _ => ⟨s, .explicit⟩
  | none, some s, _, _ => ⟨s, .descendants⟩
  | none, none, some s, _ => ⟨s, .explicit⟩
  | none, none, none, some s => ⟨s, .descendants⟩
  | none, none, none, none => ⟨.excluded, .root⟩

/-- What a member is handed for its subtree is the nearest subtree sign above. -/
theorem default_handed (states : Member → SelectionState) (m : Member) :
    (handed states m).default =
      (m.ancestors.findSome? fun a => (states a).descendants).elim Inherited.top.default
        (⟨·, .descendants⟩) := by
  induction m with
  | root => rfl
  | child p n l ih =>
    rw [handed, Inherited.handDown, ih, Member.ancestors, Member.upward_eq, List.findSome?_cons]
    cases (states p).descendants <;> rfl

theorem memberSign_handed (states : Member → SelectionState) (m : Member) :
    (handed states m).memberSign (states m) = ruled states m := by
  have beside : (handed states m).children = m.parent?.bind fun p => (states p).children := by
    cases m <;> rfl
  have default := default_handed states m
  rw [ruled, Inherited.memberSign, Inherited.childrenSign, beside, default]
  cases (states m).member with
  | some s => rfl
  | none =>
    cases (states m).descendants with
    | some s => rfl
    | none =>
      cases m.parent?.bind fun p => (states p).children with
      | some s => rfl
      | none => cases m.ancestors.findSome? fun a => (states a).descendants <;> rfl

theorem ruled_congr {states others : Member → SelectionState} {m : Member}
    (same : ∀ a ∈ m.upward, states a = others a) : ruled states m = ruled others m := by
  have above : handed states m = handed others m :=
    handed_congr fun a higher => same a (Member.mem_upward_of_ancestors higher)
  rw [← memberSign_handed, ← memberSign_handed, above, same m m.mem_upward_self]

namespace Forest

variable {i : Inherited} {f : Forest Override} {path : List Member} {o : Override} {s : Site}
  {l m : Member}

theorem locate_nil {α : Type} (f : Forest α) (n : Nat) : f.locate n [] = [] := by
  cases f <;> rfl

theorem siteAt?_cons_succ {place : List Nat} (any : place ≠ []) (k : Member) (v : Override)
    (children siblings : Forest Override) :
    (cons k v children siblings).siteAt? i (place.modifyHead (· + 1)) =
      siblings.siteAt? i place := by
  obtain ⟨x, rest, rfl⟩ := List.exists_cons_of_ne_nil any
  rfl

/-- A node is located at the end of its path, and shows what is handed down there. -/
theorem siteAt?_locate_of_value? (found : f.value? path = some o) :
    ∃ s l, f.siteAt? i (f.locate 0 path) = some s ∧ s.label = some (l, f.inherited i path) ∧
      s.state = o.state ∧ (some l == path.getLast?) = true := by
  induction f generalizing i path with
  | nil => cases found
  | cons k v children siblings ihBelow ihBeside =>
    rcases path with _ | ⟨m, path⟩
    · cases found
    · rw [value?_cons] at found
      by_cases here : (k == m) = true
      · rw [if_pos here] at found
        rw [locate, if_pos here]
        rcases path with _ | ⟨n, path⟩
        · cases found
          rw [locate_nil]
          exact ⟨⟨some (k, i), o.state, o.sequence, children⟩, k, rfl, rfl, rfl, here⟩
        · obtain ⟨s, l, site, label, state, last⟩ := ihBelow (i := i.handDown v.state) found
          refine ⟨s, l, ?_, ?_, state, by rwa [List.getLast?_cons_cons]⟩
          · rwa [siteAt?_cons_zero _ _ _ _ (ne_nil_of_siteAt? site)]
          · rwa [inherited, if_pos here]
      · rw [if_neg here] at found
        obtain ⟨s, l, site, label, state, last⟩ := ihBeside (i := i) found
        refine ⟨s, l, ?_, ?_, state, last⟩
        · rwa [locate, if_neg here, locate_eq, siteAt?_cons_succ (ne_nil_of_siteAt? site)]
        · rw [label]
          cases path <;> simp [inherited, here]

/-- A path without a node at its end is located where the path before its end is. -/
theorem locate_concat_of_value? (absent : f.value? (path ++ [m]) = none) (n : Nat) :
    f.locate n (path ++ [m]) = f.locate n path := by
  induction f generalizing path n with
  | nil => rfl
  | cons k v children siblings ihBelow ihBeside =>
    rcases path with _ | ⟨a, path⟩
    · rw [List.nil_append, value?_cons] at absent
      by_cases here : (k == m) = true
      · simp [here] at absent
      · rw [if_neg here] at absent
        rw [List.nil_append, locate_nil, locate, if_neg here, ← locate_nil siblings (n + 1)]
        exact @ihBeside [] absent (n + 1)
    · rw [List.cons_append, value?_cons] at absent
      rw [List.cons_append, locate, locate]
      by_cases here : (k == a) = true
      · rw [if_pos here, if_neg (by simp)] at absent
        rw [if_pos here, if_pos here, ihBelow absent]
      · rw [if_neg here] at absent
        rw [if_neg here, if_neg here]
        exact @ihBeside (a :: path) absent (n + 1)

/-- Going on from where a path leads never leads back up. -/
theorem locate_prefix_append (f : Forest Override) (n : Nat) (path rest : List Member) :
    f.locate n path <+: f.locate n (path ++ rest) := by
  induction f generalizing n path with
  | nil => exact List.prefix_rfl
  | cons k o children siblings ihBelow ihBeside =>
    rcases path with _ | ⟨m, path⟩
    · exact List.nil_prefix
    · rw [List.cons_append, locate, locate]
      by_cases here : (k == m) = true
      · rw [if_pos here, if_pos here, List.cons_prefix_cons]
        exact ⟨rfl, ihBelow 0 path⟩
      · rw [if_neg here, if_neg here]
        exact ihBeside (n + 1) (m :: path)

/-- The nodes on the way to where a path is located are for members of the path. -/
theorem label_siteAt?_of_prefix {place : List Nat} (on : place <+: f.locate 0 path)
    (found : f.siteAt? i place = some s) (member : s.member? = some l) :
    ∃ x ∈ path, (l == x) = true := by
  induction f generalizing i path place with
  | nil => cases found
  | cons k v children siblings ihBelow ihBeside =>
    rcases path with _ | ⟨a, path⟩
    · rw [locate, List.prefix_nil] at on
      rw [on] at found
      cases found
    · rw [locate] at on
      by_cases here : (k == a) = true
      · rw [if_pos here] at on
        rcases place with _ | ⟨n, place⟩
        · cases found
        · obtain ⟨rfl, below⟩ := List.cons_prefix_cons.mp on
          by_cases last : place = []
          · rw [last] at found
            cases found
            cases member
            exact ⟨a, List.mem_cons_self, here⟩
          · rw [siteAt?_cons_zero _ _ _ _ last] at found
            obtain ⟨x, mem, same⟩ := ihBelow below found
            exact ⟨x, List.mem_cons_of_mem _ mem, same⟩
      · rw [if_neg here, locate_eq] at on
        rcases place with _ | ⟨n, place⟩
        · cases found
        · cases further : siblings.locate 0 (a :: path) with
          | nil =>
            rw [further, List.modifyHead_nil, List.prefix_nil] at on
            cases on
          | cons b rest =>
            rw [further, List.modifyHead_cons, List.cons_prefix_cons] at on
            obtain ⟨rfl, below⟩ := on
            have later : b :: place <+: siblings.locate 0 (a :: path) := by
              rw [further]
              exact List.cons_prefix_cons.mpr ⟨rfl, below⟩
            exact ihBeside later found

end Forest

namespace SelectionTree

variable {h : Hierarchy} {t : SelectionTree} {m : Member}

theorem resolve_eq_ruled (t : SelectionTree) (m : Member) : t.resolve m = ruled t.stateOf m := by
  rw [resolve, inheritedBy_eq, memberSign_handed]

/-- The node that stands for a member, wherever in the tree it is. -/
def nodeFor? (t : SelectionTree) (m : Member) : Option Site :=
  (t.preorder.filterMap t.site?).find? (·.member? == some m)

/-- The signs recorded for a member; nothing if no node stands for it. -/
def recordFor (t : SelectionTree) (m : Member) : SelectionState :=
  (t.nodeFor? m).elim {} (·.state)

theorem member?_site?_find {s : Site} {l : Member} (site : t.site? (t.find m) = some s)
    (member : s.member? = some l) : ∃ x ∈ m.upward, (l == x) = true := by
  rcases site?_cases site with ⟨-, rfl⟩ | ⟨-, -, below⟩
  · cases member
  · obtain ⟨x, mem, same⟩ := Forest.label_siteAt?_of_prefix List.prefix_rfl below member
    exact ⟨x, Member.mem_pathFromRoot.mp mem, same⟩

/-- The node of a member is found, and shows what the member is handed and records. -/
theorem exists_site?_find (node : t.hasNode m = true) : ∃ s l, t.site? (t.find m) = some s ∧
    s.label = some (l, t.inheritedBy m) ∧ s.state = t.stateOf m ∧
      (s.member? == some m) = true := by
  rw [hasNode_eq] at node
  obtain ⟨o, found⟩ := Option.isSome_iff_exists.mp node
  obtain ⟨s, l, site, label, state, last⟩ := Forest.siteAt?_locate_of_value? (i := .top) found
  refine ⟨s, l, ?_, label, ?_, ?_⟩
  · exact (site?_eq_some_iff (Forest.ne_nil_of_siteAt? site)).mpr ⟨rfl, site⟩
  · rw [state, stateOf, found]
    rfl
  · rw [Member.getLast?_pathFromRoot] at last
    rwa [Site.member?, label]

theorem value?_of_no_node (absent : t.hasNode m = false) :
    t.overrides.value? m.pathFromRoot = none := by
  rwa [hasNode_eq, Option.isSome_eq_false_iff, Option.isNone_iff_eq_none] at absent

theorem stateOf_of_no_node (absent : t.hasNode m = false) : t.stateOf m = {} := by
  rw [stateOf, value?_of_no_node absent]
  rfl

theorem find_root_of_no_node {g n k : String} (absent : t.hasNode (.root g n k) = false) :
    t.find (.root g n k) = t.rootId := by
  have above : t.overrides.locate 0 ([] ++ [.root g n k]) = t.overrides.locate 0 [] :=
    Forest.locate_concat_of_value? (value?_of_no_node absent) 0
  exact congrArg (NodeId.mk t.epoch) (above.trans (Forest.locate_nil _ _))

theorem find_child_of_no_node {p : Member} {n k : String}
    (absent : t.hasNode (.child p n k) = false) : t.find (.child p n k) = t.find p := by
  have path := Member.pathFromRoot_of_parent? (m := .child p n k) (p := p) rfl
  rw [find, path, Forest.locate_concat_of_value? (path ▸ value?_of_no_node absent), find]

/-- The node found for a member without one is the root or for a member further up. -/
theorem not_beq_of_no_node {s : Site} (absent : t.hasNode m = false)
    (site : t.site? (t.find m) = some s) : ¬ (s.member? == some m) = true := by
  intro own
  cases member : s.member? with
  | none =>
    rw [member] at own
    cases own
  | some l =>
    rw [member] at own
    have name : l.uniqueName = m.uniqueName := Member.beq_iff.mp own
    cases m with
    | root g n k =>
      rw [find_root_of_no_node absent] at site
      cases site
      cases member
    | child p n k =>
      rw [find_child_of_no_node absent] at site
      obtain ⟨x, above, same⟩ := member?_site?_find site member
      have shorter := Member.uniqueName_lt_of_mem_ancestors (m := .child p n k) above
      rw [← Member.beq_iff.mp same, name] at shorter
      exact Nat.lt_irrefl _ shorter

theorem foundSign?_of_node (node : t.hasNode m = true) :
    t.foundSign? m = some (t.resolve m) := by
  obtain ⟨s, l, site, label, state, own⟩ := exists_site?_find node
  rw [foundSign?, site, Option.map_some, if_pos own, Site.memberSign, label, state]
  rfl

theorem foundSign?_of_no_node (absent : t.hasNode m = false) :
    t.foundSign? m = some (t.resolve m) := by
  obtain ⟨s, site, down⟩ := t.site?_find m
  rw [foundSign?, site, Option.map_some, if_neg (not_beq_of_no_node absent site), resolve,
    stateOf_of_no_node absent]
  cases m with
  | root g n k =>
    rw [find_root_of_no_node absent] at site
    cases site
    rw [inheritedBy_root]
    rfl
  | child p n k =>
    have parent := find_child_of_no_node absent
    rw [Member.parent?]
    cases node : t.hasNode p with
    | true =>
      obtain ⟨r, l, same, label, state, own⟩ := exists_site?_find node
      obtain rfl : s = r := Option.some.inj (site.symm.trans (parent ▸ same))
      rw [if_pos own, Site.childrenSign, Site.handsDown, label, state, inheritedBy_child]
      rfl
    | false =>
      -- the parent records nothing for its children, so what is handed down for all is left
      rw [if_neg (not_beq_of_no_node node (parent ▸ site)), Site.descendantsDefault, down,
        Forest.default_reported]
      change some ((t.inheritedBy (.child p n k)).handDown (t.stateOf (.child p n k))).default = _
      rw [stateOf_of_no_node absent, inheritedBy_child, stateOf_of_no_node node]
      rfl

/-- Wherever the walk down to a member ends, it comes to the sign of the member. -/
theorem foundSign?_eq (t : SelectionTree) (m : Member) : t.foundSign? m = some (t.resolve m) := by
  cases node : t.hasNode m with
  | true => exact foundSign?_of_node node
  | false => exact foundSign?_of_no_node node

theorem Reached.recordFor_eq (reached : t.Reached h) (regular : h.Regular)
    (inside : m ∈ h.members) : t.recordFor m = t.stateOf m := by
  rw [recordFor]
  cases found : t.nodeFor? m with
  | some s =>
    obtain ⟨id, _, site⟩ := List.mem_filterMap.mp (List.mem_of_find?_eq_some found)
    have member := List.find?_some found
    rcases site?_cases site with ⟨-, rfl⟩ | ⟨-, -, below⟩
    · cases member
    · obtain ⟨k, listed, same, -⟩ := (reached.hung regular).of_siteAt? below
      rw [same] at member
      obtain rfl : k = m := (regular.beq_iff listed inside).mp member
      obtain ⟨l, o, node, label, state, -⟩ := Forest.exists_node_of_siteAt? below
      obtain rfl : l = k := Option.some.inj (label.symm.trans same)
      rw [reached.grown.stateOf_of_mem_nodes node]
      exact state
  | none =>
    have absent : t.hasNode m = false := by
      refine Bool.eq_false_iff.mpr fun node => ?_
      obtain ⟨id, listed, stands⟩ := (reached.hasNode_iff_exists regular inside).mp node
      obtain ⟨s, site, member⟩ := Option.bind_eq_some_iff.mp stands
      have missed := List.find?_eq_none.mp found s (List.mem_filterMap.mpr ⟨id, listed, site⟩)
      exact missed (by rw [member]; exact BEq.rfl)
    rw [stateOf_of_no_node absent]
    rfl

/-- A member has the sign that precedence gives it when a member without a node records
nothing, and the walk down to its deepest node comes to the same. -/
theorem resolve_eq_precedence (sound : h.Sound) (names : (h.members.map Member.uniqueName).Nodup)
    (reached : t.Reached h) (inside : m ∈ h.members) :
    t.resolve m = ruled t.recordFor m ∧ t.foundSign? m = some (t.resolve m) := by
  have regular : h.Regular := ⟨sound, Hierarchy.eq_of_nodup_uniqueNames names⟩
  have recorded : ∀ a ∈ m.upward, t.stateOf a = t.recordFor a := fun a above =>
    (reached.recordFor_eq regular (regular.upward_mem inside above)).symm
  exact ⟨(t.resolve_eq_ruled m).trans (ruled_congr recorded), t.foundSign?_eq m⟩

theorem resolve_eq_precedence_overtaken :
    overtaken.resolve .january = ruled overtaken.recordFor .january ∧
      overtaken.foundSign? .january = some (overtaken.resolve .january) :=
  resolve_eq_precedence Hierarchy.calendar_built.sound (by decide) overtaken_reached
    Hierarchy.january_mem_calendar

end SelectionTree
end CubeAxis
