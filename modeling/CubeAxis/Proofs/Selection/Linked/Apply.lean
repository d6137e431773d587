import CubeAxis.Proofs.Selection.Linked.Steps

namespace CubeAxis

namespace Forest

variable {ι : Type} {f g : Forest (ι × Override)} {upper c : ι} {n : Nat} {m : Member}
  {done : List Member}

/-- The node that a path lacked is at its end once it is made. -/
theorem indexAt?_of_upsert (absent : f.missing (done ++ [m]) ≠ 0)
    (made : f.upsert (fun n => (c, Override.fresh n)) id n (done ++ [m]) = g) :
    g.indexAt? upper (g.locate 0 (done ++ [m])) = some c := by
  have any : done ++ [m] ≠ [] := by simp
  have none : f.value? (done ++ [m]) = none := by
    rwa [Ne, missing_eq_zero_iff any, Bool.not_eq_true, Option.isSome_eq_false_iff,
      Option.isNone_iff_eq_none] at absent
  rw [← made, indexAt?_locate upper (missing_upsert f id _) any, value?_upsert_of_prefix any
    (Member.isPrefixOf_iff.mpr List.prefix_rfl), none]
  simp

theorem indices_adjust (update : SelectionState → SelectionState) (f : Forest (ι × Override))
    (path : List Member) : (f.adjust (Override.restated update) path).indices = f.indices := by
  induction f generalizing path with
  | nil => rfl
  | cons l w children siblings ihBelow ihBeside =>
    cases path with
    | nil => rfl
    | cons m path =>
      rw [Forest.adjust]
      split
      · split
        · rw [indices_cons, indices_cons]
          rfl
        · rw [indices_cons, indices_cons, ihBelow]
      · rw [indices_cons, indices_cons, ihBeside]

/-- After an update the node at the end of a path is the one that it was. -/
theorem indexAt?_locate_adjust (update : SelectionState → SelectionState) (upper : ι)
    {path : List Member} (there : f.missing path = 0) (any : path ≠ []) :
    let g := f.adjust (Override.restated update) path
    g.missing path = 0 ∧
      g.indexAt? upper (g.locate 0 path) = f.indexAt? upper (f.locate 0 path) := by
  intro g
  have node : g.value? path = (f.value? path).map (Override.restated update) := by
    rw [value?_adjust any, if_pos BEq.rfl]
  have still : g.missing path = 0 := by
    rw [missing_eq_zero_iff any, node, Option.isSome_map]
    exact (missing_eq_zero_iff any).mp there
  refine ⟨still, ?_⟩
  rw [indexAt?_locate upper still any, indexAt?_locate upper there any, node, Option.map_map]
  rfl

theorem adjust_adjust {α : Type} {first second : α → α} (f : Forest α) (path : List Member) :
    (f.adjust first path).adjust second path = f.adjust (second ∘ first) path := by
  induction f generalizing path with
  | nil => rfl
  | cons l w children siblings ihBelow ihBeside =>
    cases path with
    | nil => rfl
    | cons m path =>
      rw [Forest.adjust, Forest.adjust]
      split
      · rename_i here
        split
        · rename_i last
          rw [Forest.adjust, if_pos here, if_pos last]
          rfl
        · rename_i further
          rw [Forest.adjust, if_pos here, if_neg further, ihBelow]
      · rename_i other
        rw [Forest.adjust, if_neg other, ihBeside]

theorem inherited_adjust {update : Override → Override} (i : Inherited) (f : Forest Override)
    (path : List Member) : (f.adjust update path).inherited i path = f.inherited i path := by
  induction f generalizing i path with
  | nil => rfl
  | cons l o children siblings ihBelow ihBeside =>
    rcases path with _ | ⟨m, _ | ⟨k, path⟩⟩
    · rfl
    · simp [inherited]
    · rw [Forest.adjust, inherited]
      split
      · rename_i here
        rw [if_neg (by simp), inherited, if_pos here, ihBelow]
      · rename_i other
        rw [inherited, if_neg other, ihBeside]

end Forest

namespace SelectionTree

variable {s : SelectionTree} {done : List Member}

/-- The tree with the nodes on a path made that are missing. -/
def ensured (s : SelectionTree) (path : List Member) : SelectionTree :=
  { s with
    overrides := s.overrides.upsert Override.fresh id s.nextSequence path
    nextSequence := s.nextSequence + s.overrides.missing path }

/-- With the first missing node made, the others are left to be made. -/
theorem ensured_createChild {m : Member} (there : s.overrides.missing done = 0)
    (absent : s.overrides.missing (done ++ [m]) ≠ 0)
    (live : (s.site? ⟨s.epoch, s.overrides.locate 0 done⟩).isSome) (path : List Member) :
    ensured (s.createChild ⟨s.epoch, s.overrides.locate 0 done⟩ m).2 (done ++ m :: path) =
      ensured s (done ++ m :: path) := by
  obtain ⟨r, overrides, -, made, same⟩ := SelectionTree.createChild_eq m live
  rw [Forest.appendAt?_locate Override.fresh there absent] at made
  obtain rfl := Option.some.inj made
  obtain ⟨nodes, count⟩ :=
    Forest.upsert_upsert_append (n := s.nextSequence) Override.fresh there absent path
  rw [same]
  simp only [ensured]
  rw [nodes, count, Nat.add_assoc, Nat.add_comm 1]

/-- The tree with another state on the node at the end of a path. -/
def withState (s : SelectionTree) (update : SelectionState → SelectionState)
    (path : List Member) : SelectionTree :=
  { s with overrides := s.overrides.adjust (fun o => { o with state := update o.state }) path }

theorem withState_withState (s : SelectionTree) (first second : SelectionState → SelectionState)
    (path : List Member) :
    (s.withState first path).withState second path = s.withState (second ∘ first) path :=
  congrArg (fun f => { s with overrides := f }) (Forest.adjust_adjust _ _)

/-- An action on a member makes its path and then records on the last node. -/
theorem applyMember_eq (s : SelectionTree) (v : Sign) (op : Operator) (m : Member) :
    s.applyMember v op m = (s.ensured m.pathFromRoot).withState
      ((s.inheritedBy m).record · v op) m.pathFromRoot := by
  rw [applyMember, Forest.upsert_eq_adjust]
  rfl

theorem inheritedBy_ensured (s : SelectionTree) (m : Member) :
    (s.ensured m.pathFromRoot).inheritedBy m = s.inheritedBy m := by
  have made := s.inheritedBy_onMember .included .member m
  change (s.applyMember .included .member m).inheritedBy m = _ at made
  rw [applyMember_eq] at made
  exact (Forest.inherited_adjust .top _ _).symm.trans made

end SelectionTree

namespace LinkedTree

open SelectionTree

section

variable {σ ι : Type} [Arena σ ι (LinkedNode ι)] {t : LinkedTree σ ι} {f : Forest (ι × Override)}
  {i upper : ι}

/-- The children are searched in their order for the first that stands for the member. -/
theorem findM?_heads (stored : f.Stored t.node? upper) (m : Member) :
    (f.heads.findM? fun c => do
      let child ← t.node? c
      return child.member? == some m) =
      some (if f.missing [m] = 0 then f.indexAt? upper (f.locate 0 [m]) else none) := by
  induction f with
  | nil => rfl
  | cons l v children siblings _ ihBeside =>
    obtain ⟨here, -, beside⟩ := stored
    have own : (l == m) = (some l == some m) := (Option.some_beq_some).symm
    rw [Forest.heads, List.findM?, here, Forest.missing, Forest.locate]
    simp only [Option.bind_eq_bind, Option.bind_some, Forest.entry, ← own]
    cases label : l == m with
    | true =>
      simp only [if_true, Forest.locate_nil, Forest.missing_nil]
      exact congrArg some (Forest.indexAt?_nil v.1 children).symm
    | false =>
      simp only [Bool.false_eq_true, if_false]
      refine (ihBeside beside).trans ?_
      split
      · rename_i there
        obtain ⟨k, place, located, further⟩ :=
          Forest.exists_locate_eq there (List.cons_ne_nil m [])
        rw [further, located]
        rfl
      · rfl

theorem applyMember_of_ensure {u : LinkedTree σ ι} {m : Member}
    (ensured : t.ensure t.root m.pathFromRoot = some (i, u)) (v : Sign) (op : Operator) :
    t.applyMember v op m =
      if op = .memberAndChildren then
        (u.record i v .member).bind fun w => w.record i v .children
      else u.record i v op := by
  rw [applyMember, ensured]
  cases op <;> rfl

theorem childFor?_eq (held : f.Held t.node? i) (m : Member) : t.childFor? i m =
    some (if f.missing [m] = 0 then f.indexAt? i (f.locate 0 [m]) else none) := by
  obtain ⟨node, here, children⟩ := held.linked
  rw [childFor?, here, Option.bind_eq_bind, Option.bind_some, children]
  exact findM?_heads held.stored m

end

variable {σ ι : Type} [Arena σ ι (LinkedNode ι)] [DecidableEq ι] [Arena.Lawful σ]
  {t : LinkedTree σ ι} {g : Forest (ι × Override)} {s : SelectionTree} {i : ι}
  {path done : List Member}

theorem Represents.ensure (represents : t.Represents g s) (there : g.missing done = 0)
    (found : g.indexAt? t.root (g.locate 0 done) = some i) (path : List Member) :
    ∃ j u h, t.ensure i path = some (j, u) ∧ t.Extends u ∧ g.Keeps h ∧
      u.Represents h (ensured s (done ++ path)) ∧ h.missing (done ++ path) = 0 ∧
      h.indexAt? u.root (h.locate 0 (done ++ path)) = some j := by
  induction path generalizing t g s i done with
  | nil =>
    have same : ensured s done = s := by
      have nodes := there
      rw [← g.missing_map Prod.snd, represents.overrides] at nodes
      rw [ensured, Forest.upsert_of_there _ _ nodes, Forest.adjust_id, nodes]
      rfl
    rw [List.append_nil, same]
    exact ⟨i, t, g, rfl, .refl t, fun _ _ _ same => same, represents, there, found⟩
  | cons m path ih =>
    have held := represents.held.under found
    have child := childFor?_eq held m
    have lower := Forest.missing_append there [m]
    have whole : done ++ m :: path = done ++ [m] ++ path := by simp
    by_cases present : (g.under (g.locate 0 done)).missing [m] = 0
    · -- the node is there, and the walk goes on from it
      have node := (Forest.missing_eq_zero_iff (List.cons_ne_nil m [])).mp present
      obtain ⟨v, value⟩ := Option.isSome_iff_exists.mp node
      have below := Forest.indexAt?_locate i present (List.cons_ne_nil m [])
      rw [value, Option.map_some] at below
      rw [if_pos present, below] at child
      have next : t.ensure i (m :: path) = t.ensure v.1 path := by
        rw [LinkedTree.ensure, child]
        rfl
      rw [next, whole]
      refine ih represents (lower.trans present) ?_
      rw [Forest.locate_append there, Forest.indexAt?_append, found]
      exact below
    · -- the node is made, and it takes the number that its place in the path would give it
      rw [if_neg present] at child
      obtain ⟨c, u, h, made, work, grown, further⟩ := represents.createChild found m
      have next : t.ensure i (m :: path) = u.ensure c path := by
        rw [LinkedTree.ensure, child]
        simp only [Option.bind_eq_bind, Option.bind_some, made]
      have absent : g.missing (done ++ [m]) ≠ 0 := fun none => present (lower.symm.trans none)
      have kept := Forest.keeps_of_appendAt? grown
      rw [Forest.appendAt?_locate (fun n => (c, Override.fresh n)) there absent] at grown
      have shape := Option.some.inj grown
      have complete : h.missing (done ++ [m]) = 0 := shape ▸ Forest.missing_upsert g id _
      obtain ⟨j, w, k, ensured, more, later, result⟩ :=
        ih further complete (Forest.indexAt?_of_upsert absent shape)
      refine ⟨j, w, k, next.trans ensured, work.trans more, kept.trans later, ?_⟩
      obtain ⟨r, site, -, -⟩ := represents.exists_site? found
      have same : s.overrides = g.map Prod.snd := represents.overrides.symm
      have way : g.locate 0 done = s.overrides.locate 0 done := by rw [same, Forest.locate_map]
      rw [way] at site result
      rw [← whole, ensured_createChild (by rwa [same, Forest.missing_map])
        (by rwa [same, Forest.missing_map]) (by rw [site]; rfl)] at result
      exact result

/-- Another state on the node at the end of a path. -/
theorem Represents.modify (represents : t.Represents g s) (there : g.missing path = 0)
    (any : path ≠ []) (found : g.indexAt? t.root (g.locate 0 path) = some i)
    (change : SignSets → SignSets) (update : SelectionState → SelectionState)
    (same : ∀ st : SelectionState, change st.toSets = (update st).toSets) :
    let u := t.modify i fun node => { node with state := change node.state }
    t.Extends u ∧
      u.Represents (g.adjust (Override.restated update) path) (s.withState update path) := by
  intro u
  obtain ⟨given, run⟩ := represents.run
  have inside := Forest.mem_indices_of_indexAt? found (Forest.locate_ne_nil there any)
  have apart := List.nodup_cons.mp represents.once
  have left : ∀ j, u.node? j = if j = i then
      (t.node? j).map fun node => { node with state := change node.state } else t.node? j :=
    fun j => Arena.Lawful.get?_modify _ _ _ _
  refine ⟨⟨⟨_, Arena.Leads.refl.modify i _⟩, rfl⟩, {
    run := ⟨_, run.modify i _⟩
    root := ?_
    stored := ?_
    once := by rw [Forest.indices_adjust]; exact represents.once
    live := fun j here => ?_
    size := ?_
    overrides := ?_
    levels := represents.levels
    nextSequence := represents.nextSequence
    strays := represents.strays }⟩
  · have top : t.root ≠ i := fun same => apart.1 (same ▸ inside)
    rw [Forest.heads_adjust]
    exact (left t.root).trans ((if_neg top).trans represents.root)
  · refine represents.stored.adjust there any found apart.2 (fun node here => ?_)
      (fun j other => (left j).trans (if_neg other)) same
    rw [left, if_pos rfl, here]
    rfl
  · rw [Forest.indices_adjust]
    refine represents.live j ?_
    rw [left] at here
    split at here
    · rwa [Option.isSome_map] at here
    · exact here
  · refine (Arena.Lawful.size_modify _ _ _).trans (represents.size.trans ?_)
    rw [← Forest.length_indices, ← Forest.length_indices, Forest.indices_adjust]
  · exact (Forest.adjust_map Prod.snd (fun _ => rfl) g path).symm.trans
      (congrArg (Forest.adjust _ · path) represents.overrides)

/-- An action recorded on the node at the end of a path falls back on what is handed down
there. -/
theorem Represents.record (represents : t.Represents g s) (there : g.missing path = 0)
    (any : path ≠ []) (found : g.indexAt? t.root (g.locate 0 path) = some i) (v : Sign)
    {op : Operator} (simple : op ≠ .memberAndChildren) {handed : Inherited}
    (down : s.overrides.inherited .top path = handed) :
    let update st := handed.record st v op
    ∃ u, t.record i v op = some u ∧ t.Extends u ∧
      u.Represents (g.adjust (Override.restated update) path) (s.withState update path) := by
  intro update
  have same : g.map Prod.snd = s.overrides := represents.overrides
  have nodes : s.overrides.missing path = 0 := by rwa [← same, Forest.missing_map]
  have way : g.locate 0 path = s.overrides.locate 0 path := by rw [← same, Forest.locate_map]
  obtain ⟨o, value⟩ := Option.isSome_iff_exists.mp ((Forest.missing_eq_zero_iff any).mp nodes)
  obtain ⟨r, l, below, label, -, -⟩ := Forest.siteAt?_locate_of_value? (i := .top) value
  have site : s.site? ⟨s.epoch, g.locate 0 path⟩ = some r :=
    (site?_eq_some_iff (Forest.locate_ne_nil there any)).mpr ⟨rfl, way ▸ below⟩
  obtain ⟨node, here⟩ := Option.isSome_iff_exists.mp (represents.isSome_node? found)
  have inherited := represents.inheritedSign_eq here found site op
  rw [label, down, Option.map_some] at inherited
  obtain ⟨fallback, falls, recorded⟩ : ∃ fallback, t.inheritedSign node op = some (some fallback) ∧
      ∀ st : SelectionState, st.apply v op (some fallback) = update st := by
    refine ⟨_, inherited, fun st => ?_⟩
    cases op <;> first | rfl | exact absurd rfl simple
  have done : t.record i v op = some (t.modify i fun node =>
      { node with state := node.state.apply v op (some fallback) }) := by
    rw [LinkedTree.record, here, Option.bind_eq_bind, Option.bind_some, falls]
    rfl
  have same (st : SelectionState) :
      st.toSets.apply v op (some fallback) = (update st).toSets := by
    rw [SignSets.apply_toSets, recorded]
  exact ⟨_, done, represents.modify there any found (·.apply v op (some fallback)) update same⟩

/-- An action on a member makes the nodes on its path and then records on the last of them. -/
theorem Represents.applyMember (represents : t.Represents g s) (v : Sign) (op : Operator)
    (m : Member) : ∃ u h, t.applyMember v op m = some u ∧ t.Extends u ∧ g.Keeps h ∧
      u.Represents h (s.applyMember v op m) := by
  have root : g.indexAt? t.root (g.locate 0 []) = some t.root := by
    rw [Forest.locate_nil, Forest.indexAt?_nil]
  obtain ⟨i, u, h, ensured, work, kept, made, there, found⟩ :=
    represents.ensure (Forest.missing_nil g) root m.pathFromRoot
  rw [List.nil_append] at made there found
  have any := m.pathFromRoot_ne_nil
  have down := s.inheritedBy_ensured m
  rw [applyMember_of_ensure ensured, SelectionTree.applyMember_eq]
  split
  · rename_i both
    subst both
    have onMember : Operator.member ≠ .memberAndChildren := nofun
    have onChildren : Operator.children ≠ .memberAndChildren := nofun
    obtain ⟨w, recorded, further, first⟩ := made.record there any found v onMember down
    obtain ⟨still, same⟩ :=
      Forest.indexAt?_locate_adjust ((s.inheritedBy m).record · v .member) w.root there any
    obtain ⟨x, again, last, second⟩ := first.record still any (same.trans (further.root ▸ found)) v
      onChildren ((Forest.inherited_adjust .top _ _).trans down)
    rw [recorded]
    rw [withState_withState] at second
    exact ⟨x, _, again, (work.trans further).trans last,
      (kept.trans (h.keeps_adjust _ _)).trans (Forest.keeps_adjust _ _ _), second⟩
  · rename_i simple
    obtain ⟨w, recorded, further, last⟩ := made.record there any found v simple down
    exact ⟨w, _, recorded, work.trans further, kept.trans (h.keeps_adjust _ _), last⟩

/-- No step fails on a tree that represents one. -/
theorem Represents.apply (represents : t.Represents g s) (a : Selection) :
    ∃ u h, t.apply a = some u ∧ t.Extends u ∧ g.Keeps h ∧ u.Represents h (s.apply a) := by
  obtain ⟨v, op, m | l⟩ := a
  · exact represents.applyMember v op m
  · exact ⟨_, g, rfl, ⟨⟨_, .refl⟩, rfl⟩, fun _ _ _ same => same, represents.applyLevel v l⟩

end LinkedTree
end CubeAxis
