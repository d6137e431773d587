import CubeAxis.Proofs.Selection.Linked.Placement

namespace CubeAxis

/-- What a node shows but for the indices in its links. -/
def LinkedNode.shown {ι : Type} (node : LinkedNode ι) : Option Member × SignSets × Nat × Nat :=
  (node.member?, node.state, node.sequence, node.children.length)

/-- Both have an answer, and the same one. -/
def Agree {α : Type} (a b : Option α) : Prop :=
  ∃ v, a = some v ∧ b = some v

namespace LinkedTree

open SelectionTree

section

variable {σ ι : Type} [Arena σ ι (LinkedNode ι)]

/-- The index of the node at a place, by way of the children. -/
def indexAt? (t : LinkedTree σ ι) (place : List Nat) : Option ι :=
  place.foldlM (fun i k => (t.node? i).bind fun node => node.children[k]?) t.root

/-- Two trees look alike if nothing tells them apart but the indices of their nodes: not the
nodes at any place, nor the levels, nor what is asked of the whole tree. -/
structure LooksLike (t u : LinkedTree σ ι) : Prop where
  node : ∀ place, ((t.indexAt? place).bind t.node?).map LinkedNode.shown =
    ((u.indexAt? place).bind u.node?).map LinkedNode.shown
  preorder : ∃ (places : List (List Nat)) (order other : List ι),
    t.preorder = some order ∧ u.preorder = some other ∧
    order.map some = places.map t.indexAt? ∧ other.map some = places.map u.indexAt?
  find : ∀ m, ∃ place i j, t.find m = some i ∧ u.find m = some j ∧
    t.indexAt? place = some i ∧ u.indexAt? place = some j
  findExact : ∀ m, Agree ((t.findExact? m).map (·.isSome)) ((u.findExact? m).map (·.isSome))
  levels : t.levels = u.levels
  nextSequence : t.nextSequence = u.nextSequence
  selections : Agree t.selections u.selections
  resolve : ∀ m, Agree (t.resolve m) (u.resolve m)
  isIncluded : ∀ m, Agree (t.isIncluded m) (u.isIncluded m)
  size : t.size = u.size
  isVoid : Agree t.isVoid u.isVoid
  drawing : Agree t.drawing u.drawing

variable {t u : LinkedTree σ ι} {g h : Forest (ι × Override)} {s : SelectionTree}

theorem Represents.indexAt?_eq (represents : t.Represents g s) (place : List Nat) :
    t.indexAt? place = g.indexAt? t.root place := by
  induction place using List.reverseRecOn with
  | nil => exact (Forest.indexAt?_nil t.root g).symm
  | append_singleton place k ih =>
    rw [indexAt?] at ih ⊢
    rw [List.foldlM_append, ih, Forest.indexAt?_append]
    cases found : g.indexAt? t.root place with
    | none => rfl
    | some i =>
      obtain ⟨r, -, -, shown⟩ := represents.exists_site? found
      simp only [Option.bind_eq_bind, Option.bind_some, List.foldlM_cons, List.foldlM_nil, shown,
        Forest.heads_getElem? _ i]
      exact Option.bind_fun_some _

theorem Represents.shown_eq (represents : t.Represents g s) (place : List Nat) :
    ((t.indexAt? place).bind t.node?).map LinkedNode.shown =
      (s.site? ⟨s.epoch, place⟩).map fun r =>
        (r.member?, r.state.toSets, r.sequence, r.children.labels.length) := by
  rw [represents.indexAt?_eq]
  cases found : g.indexAt? t.root place with
  | none =>
    cases site : s.site? ⟨s.epoch, place⟩ with
    | none => rfl
    | some r =>
      obtain ⟨i, there⟩ := represents.exists_indexAt? site
      rw [there] at found
      cases found
  | some i =>
    obtain ⟨r, site, lower, shown⟩ := represents.exists_site? found
    have heads (f : Forest (ι × Override)) : f.heads.length = f.labels.length := by
      induction f with
      | nil => rfl
      | cons m v children siblings _ ih => exact congrArg (· + 1) ih
    rw [Option.bind_some, shown, site, Option.map_some, Option.map_some, LinkedNode.shown, lower,
      Forest.labels_map, heads]

theorem Represents.map_indexAt? (represents : t.Represents g s) :
    (t.root :: g.indices).map some = ([] :: s.overrides.places 0).map t.indexAt? := by
  rw [← represents.overrides, Forest.places_map, List.map_cons, List.map_cons,
    ← Forest.map_indexAt?_places t.root g, funext represents.indexAt?_eq, Forest.indexAt?_nil]

/-- Nothing is left of the names when no node is. -/
theorem Represents.empty (represents : t.Represents .nil s.clear) : t.Represents .nil .empty :=
  { represents with strays := rfl }

/-- Trees that stand for the same look alike. -/
theorem Represents.looksLike (first : t.Represents g s) (second : u.Represents h s) :
    t.LooksLike u where
  node place := (first.shown_eq place).trans (second.shown_eq place).symm
  preorder := ⟨_, _, _, first.preorder_eq, second.preorder_eq, first.map_indexAt?,
    second.map_indexAt?⟩
  find m := by
    obtain ⟨i, -, found, here, -⟩ := first.exists_find m
    obtain ⟨j, -, other, there, -⟩ := second.exists_find m
    exact ⟨_, i, j, found, other, (first.indexAt?_eq _).trans here,
      (second.indexAt?_eq _).trans there⟩
  findExact m := by
    obtain ⟨i, -, found, -⟩ := first.exists_find m
    obtain ⟨j, -, other, -⟩ := second.exists_find m
    rw [first.findExact?_eq, second.findExact?_eq, found, other]
    exact ⟨s.hasNode m, by cases s.hasNode m <;> rfl, by cases s.hasNode m <;> rfl⟩
  levels := first.levels.trans second.levels.symm
  nextSequence := first.nextSequence.trans second.nextSequence.symm
  selections := ⟨_, first.selections_eq, second.selections_eq⟩
  resolve m := ⟨_, first.resolve_eq m, second.resolve_eq m⟩
  isIncluded m := ⟨_, first.isIncluded_eq m, second.isIncluded_eq m⟩
  size := first.size_eq.trans second.size_eq.symm
  isVoid := ⟨_, first.isVoid_eq, second.isVoid_eq⟩
  drawing := ⟨_, first.drawing_eq, second.drawing_eq⟩

end

variable {σ ι : Type} [Arena σ ι (LinkedNode ι)] [DecidableEq ι] [Arena.Lawful σ]
  {t : LinkedTree σ ι}

/-- A cleared tree goes on like a new one, whatever is done to it, and no index of a node from
before it was cleared, that of the root aside, is ever one of a node again. -/
theorem looksLike_of_clear (leads : new.Leads t) : ∃ c, t.clear = some c ∧
    (∀ as : List Selection, ∃ u v : LinkedTree σ ι,
      as.foldlM LinkedTree.apply c = some u ∧ ofSelections as = some v ∧ u.LooksLike v) ∧
    ∀ w i u, new.Leads w → w.Leads t → (w.node? i).isSome → i ≠ w.root → c.Leads u →
      u.node? i = none := by
  obtain ⟨g, s, follows⟩ := represents_new.follows leads
  obtain ⟨c, cleared, work, represents⟩ := follows.represents.clear
  refine ⟨c, cleared, fun as => ?_, fun w i u before between live below after => ?_⟩
  · -- both stand for what the actions make of an empty tree
    obtain ⟨u, h, left, first⟩ := represents.empty.exists_foldlM as
    obtain ⟨v, k, right, second⟩ := (represents_new (σ := σ)).exists_foldlM as
    exact ⟨u, v, left, right, first.looksLike second⟩
  · -- the clearing leaves the root alone, and an index that is gone stays gone
    obtain ⟨_, _, start⟩ := represents_new.follows before
    obtain ⟨_, _, middle⟩ := start.represents.follows between
    obtain ⟨_, _, last⟩ := represents.follows after
    have root : c.root = w.root := work.root.trans middle.work.root
    have gone : c.node? i = none := Option.not_isSome_iff_eq_none.mp fun there =>
      below ((List.mem_singleton.mp (represents.live i there)).trans root)
    exact start.represents.node?_eq_none live (middle.work.trans work) gone last.work

/-- A month is excluded after the overtaken one, its year and its second node were cleared. -/
theorem looksLike_of_clear_overtaking :
    ∃ (t c u v : LinkedTree (Slots (LinkedNode SlotId)) SlotId) (year : SlotId),
      ofSelections overtaking = some t ∧ t.find .year = some year ∧ (t.node? year).isSome ∧
        (t.createChild year .january).2.clear = some c ∧
        [.onLevel .included ⟨"Time", "Year", 0⟩, .onMember .excluded .member .january].foldlM
          LinkedTree.apply c = some u ∧
        ofSelections [.onLevel .included ⟨"Time", "Year", 0⟩,
          .onMember .excluded .member .january] = some v ∧
        u.LooksLike v ∧ u.size = 2 ∧ u.node? year = none := by
  obtain ⟨t, g, done, represents⟩ :=
    (represents_new (σ := Slots (LinkedNode SlotId))).exists_foldlM overtaking
  obtain ⟨year, r, found, at?, -⟩ := represents.exists_find .year
  have live := represents.isSome_node? at?
  have below : year ≠ t.root := fun same =>
    absurd ((represents.isRoot_iff at?).mpr same) (by decide)
  have leads := leads_of_foldlM done
  obtain ⟨c, cleared, later, gone⟩ := looksLike_of_clear (.createChild .january leads live)
  obtain ⟨u, v, after, alone, same⟩ := later
    [.onLevel .included ⟨"Time", "Year", 0⟩, .onMember .excluded .member .january]
  obtain ⟨w, k, right, other⟩ := (represents_new (σ := Slots (LinkedNode SlotId))).exists_foldlM
    [.onLevel .included ⟨"Time", "Year", 0⟩, .onMember .excluded .member .january]
  obtain rfl : w = v := Option.some.inj (right.symm.trans alone)
  exact ⟨t, c, u, w, year, done, found, live, cleared, after, alone, same,
    same.size.trans (other.size_eq.trans (by decide)),
    gone t year u leads (.createChild .january .refl live) live below (leads_of_foldlM after)⟩

end LinkedTree
end CubeAxis
