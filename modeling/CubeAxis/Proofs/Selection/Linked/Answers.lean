import CubeAxis.Proofs.Selection.Linked.Apply

namespace CubeAxis

namespace Forest

variable {ι : Type} {f : Forest (ι × Override)} {node? : ι → Option (LinkedNode ι)} {upper : ι}

/-- All nodes in pre-order, as they are stored. -/
def entries (upper : ι) : Forest (ι × Override) → List (LinkedNode ι)
  | nil => []
  | cons m v children siblings =>
    entry m v upper children :: (children.entries v.1 ++ siblings.entries upper)

theorem mapM_indices (stored : f.Stored node? upper) :
    f.indices.mapM node? = some (f.entries upper) := by
  induction f generalizing upper with
  | nil => rfl
  | cons m v children siblings ihBelow ihBeside =>
    obtain ⟨here, below, beside⟩ := stored
    rw [indices_cons, List.mapM_cons, List.mapM_append, here, ihBelow below, ihBeside beside]
    rfl

theorem numberedSelections_map (upper : ι) (f : Forest (ι × Override)) :
    (f.map Prod.snd).numberedSelections =
      (f.entries upper).flatMap fun node => node.selections.map (node.sequence, ·) := by
  induction f generalizing upper with
  | nil => rfl
  | cons m v children siblings ihBelow ihBeside =>
    rw [map, numberedSelections, entries, List.flatMap_cons, List.flatMap_append,
      ← ihBelow, ← ihBeside, LinkedNode.selections, entry, Option.elim_some,
      SignSets.selections_toSets]

end Forest

namespace LinkedTree

open SelectionTree

variable {σ ι : Type} [Arena σ ι (LinkedNode ι)] {t : LinkedTree σ ι} {f g : Forest (ι × Override)}
  {s : SelectionTree} {i upper : ι} {m : Member}

/-- The walk down a path ends at the deepest node on it. -/
theorem descend_eq (held : f.Held t.node? i) (path : List Member) :
    t.descend i path = f.indexAt? i (f.locate 0 path) := by
  induction path generalizing f i with
  | nil => rw [descend, Forest.locate_nil, Forest.indexAt?_nil]
  | cons m path ih =>
    have child := childFor?_eq held m
    rw [descend]
    by_cases there : f.missing [m] = 0
    · have single := Forest.locate_append there path
      have known := (Forest.missing_eq_zero_iff (List.cons_ne_nil m [])).mp there
      obtain ⟨v, value⟩ := Option.isSome_iff_exists.mp known
      have found := Forest.indexAt?_locate i there (List.cons_ne_nil m [])
      rw [value, Option.map_some] at found
      rw [if_pos there, found] at child
      rw [child, ← List.singleton_append, single, Forest.indexAt?_append, found]
      exact ih (held.under found)
    · rw [if_neg there] at child
      rw [child, Forest.locate_cons_of_missing there, Forest.indexAt?_nil]
      rfl

theorem Represents.find_eq (represents : t.Represents g s) (m : Member) :
    t.find m = g.indexAt? t.root (s.find m).place := by
  rw [find, descend_eq represents.held, SelectionTree.find, ← represents.overrides,
    Forest.locate_map]

theorem Represents.exists_find (represents : t.Represents g s) (m : Member) : ∃ i r,
    t.find m = some i ∧ g.indexAt? t.root (s.find m).place = some i ∧
      s.site? (s.find m) = some r := by
  obtain ⟨r, site, -⟩ := s.site?_find m
  have there : s.site? ⟨s.epoch, (s.find m).place⟩ = some r := site
  obtain ⟨i, found⟩ := represents.exists_indexAt? there
  exact ⟨i, r, (represents.find_eq m).trans found, found, site⟩

/-- A node stands for exactly a member if the member has one. -/
theorem Represents.findExact?_eq (represents : t.Represents g s) (m : Member) :
    t.findExact? m = some (if s.hasNode m then t.find m else none) := by
  obtain ⟨i, r, found, at?, site⟩ := represents.exists_find m
  simp only [findExact?, found, represents.node?_eq at? site, Option.bind_eq_bind, Option.bind_some]
  cases node : s.hasNode m with
  | true =>
    obtain ⟨r', -, site', -, -, own⟩ := exists_site?_find node
    obtain rfl : r = r' := Option.some.inj (site.symm.trans site')
    rw [own]
    rfl
  | false =>
    rw [if_neg (not_beq_of_no_node node site)]
    rfl

theorem Represents.resolve_eq (represents : t.Represents g s) (m : Member) :
    t.resolve m = some (s.resolve m) := by
  obtain ⟨i, r, found, at?, site⟩ := represents.exists_find m
  have sign := s.foundSign?_eq m
  rw [foundSign?, site, Option.map_some] at sign
  rw [← sign]
  simp only [resolve, found, represents.node?_eq at? site, Option.bind_eq_bind,
    Option.bind_some]
  split
  · exact represents.memberSign_eq at? site
  · split
    · exact represents.childrenSign_eq at? site
    · exact (represents.defaults at? site).1

theorem Represents.levelSign_eq (represents : t.Represents g s) (l : Level) :
    t.levelSign l = s.levelSign l := by
  rw [levelSign, SelectionTree.levelSign, represents.levels]

theorem Represents.isIncluded_eq (represents : t.Represents g s) (m : Member) :
    t.isIncluded m = some (s.isIncluded m) := by
  rw [isIncluded, represents.resolve_eq, represents.levelSign_eq]
  rfl

/-- Nodes leave the stack with all below them, in pre-order. -/
theorem unstack_heads (stored : f.Stored t.node? upper) (order stack : List ι) :
    t.unstack (order, f.heads ++ stack) = t.unstack (order ++ f.indices, stack) := by
  induction f generalizing upper order stack with
  | nil => rw [Forest.indices, Forest.nodes, List.map_nil, List.append_nil]; rfl
  | cons m v children siblings ihBelow ihBeside =>
    obtain ⟨here, below, beside⟩ := stored
    -- one turn of the loop puts the children in front of what waits
    have step : t.unstack (order, v.1 :: (siblings.heads ++ stack)) =
        t.unstack (order ++ [v.1], children.heads ++ (siblings.heads ++ stack)) := by
      rw [unstack, repeatM_eq_of_monadTail]
      simp only [repeatM.body, here, Option.bind_eq_bind, Option.bind_some]
      rfl
    refine step.trans ?_
    rw [ihBelow below, ihBeside beside, Forest.indices_cons]
    simp only [List.append_assoc, List.cons_append, List.nil_append]

theorem Represents.preorder_eq (represents : t.Represents g s) :
    t.preorder = some (t.root :: g.indices) := by
  have first : t.preorder = t.unstack ([t.root], g.heads ++ []) := by
    rw [preorder, unstack, repeatM_eq_of_monadTail]
    simp only [repeatM.body, represents.root, Option.bind_eq_bind, Option.bind_some]
    rfl
  rw [first, unstack_heads represents.stored, unstack, repeatM_eq_of_monadTail]
  rfl

theorem Represents.numberedSelections_eq (represents : t.Represents g s) :
    t.numberedSelections = some s.numberedSelections := by
  have nodes : (t.root :: g.indices).mapM t.node? =
      some (⟨none, .withDescendants .excluded, none, g.heads, 0⟩ :: g.entries t.root) := by
    rw [List.mapM_cons, represents.root, Forest.mapM_indices represents.stored]
    rfl
  simp only [numberedSelections, represents.preorder_eq, nodes, Option.bind_eq_bind,
    Option.bind_some, SelectionTree.numberedSelections, ← represents.overrides,
    Forest.numberedSelections_map t.root, represents.levels]
  rfl

theorem Represents.selections_eq (represents : t.Represents g s) :
    t.selections = some s.selections := by
  rw [selections, represents.numberedSelections_eq]
  rfl

theorem Represents.size_eq (represents : t.Represents g s) : t.size = s.size := by
  rw [LinkedTree.size, represents.size, SelectionTree.size, represents.strays, ← represents.overrides,
    Forest.size_map]
  rfl

theorem Represents.isVoid_eq (represents : t.Represents g s) : t.isVoid = some s.isVoid := by
  have tops : g.heads.isEmpty = (g.map Prod.snd).isEmpty := by cases g <;> rfl
  rw [isVoid, represents.root, SelectionTree.isVoid, ← represents.overrides, ← tops,
    represents.levels]
  rfl

/-- Siblings leave the stack with all that is drawn below them. -/
theorem branches_hang (stored : f.Stored t.node? upper) (rail : String) (lines : List String)
    (stack : List (String × ι × Bool)) :
    t.branches (lines, hang rail f.heads ++ stack) =
      t.branches (lines ++ (f.map Prod.snd).drawing rail, stack) := by
  induction f generalizing upper rail lines stack with
  | nil => rw [Forest.map, Forest.drawing, List.append_nil]; rfl
  | cons m v children siblings ihBelow ihBeside =>
    obtain ⟨here, below, beside⟩ := stored
    have last : siblings.heads.isEmpty = (siblings.map Prod.snd).isEmpty := by
      cases siblings <;> rfl
    have caption : (Forest.entry m v upper children).caption = v.2.state.caption m.name :=
      SignSets.caption_toSets _ _
    rw [Forest.heads, hang, List.cons_append, branches, repeatM_eq_of_monadTail]
    simp only [repeatM.body, here, Option.bind_eq_bind, Option.bind_some, caption, last]
    refine (ihBelow below _ _ _).trans ?_
    rw [ihBeside beside, Forest.map, Forest.drawing]
    simp only [List.append_assoc, List.cons_append, List.nil_append]
    rfl

theorem Represents.drawing_eq (represents : t.Represents g s) :
    t.drawing = some s.drawing := by
  have lines := branches_hang represents.stored "" [] []
  rw [List.append_nil, List.nil_append] at lines
  have done : t.branches ((g.map Prod.snd).drawing "", []) = some ((g.map Prod.snd).drawing "") := by
    rw [branches, repeatM_eq_of_monadTail]
    rfl
  rw [drawing, represents.root, Option.bind_eq_bind, Option.bind_some, lines, done]
  rw [SelectionTree.drawing, ← represents.overrides, LinkedNode.caption,
    SignSets.withDescendants_eq, SignSets.caption_toSets]
  rfl

end LinkedTree
end CubeAxis
