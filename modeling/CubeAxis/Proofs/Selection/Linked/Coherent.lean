import CubeAxis.Proofs.Selection.Linked.Run

namespace CubeAxis

namespace Forest

variable {ι : Type} {f : Forest (ι × Override)} {upper i : ι}

theorem heads_getElem? (f : Forest (ι × Override)) (upper : ι) (k : Nat) :
    f.heads[k]? = f.indexAt? upper [k] := by
  induction f generalizing k with
  | nil => rfl
  | cons m v children siblings _ ihBeside =>
    cases k with
    | zero => exact (indexAt?_nil v.1 children).symm
    | succ k => exact ihBeside k

theorem map_sequence_entries (upper : ι) (f : Forest (ι × Override)) :
    (f.entries upper).map (·.sequence) = (f.map Prod.snd).numbers := by
  induction f generalizing upper with
  | nil => rfl
  | cons m v children siblings ihBelow ihBeside =>
    rw [entries, map, numbers_cons, List.map_cons, List.map_append, ihBelow, ihBeside]
    rfl

end Forest

theorem SelectionState.mem_toSets (st : SelectionState) (op : Operator) :
    (op ∈ st.toSets.included ↔ st.sign op = some .included) ∧
      (op ∈ st.toSets.excluded ↔ st.sign op = some .excluded) :=
  ⟨mem_having, mem_having⟩

namespace LinkedTree

open SelectionTree

section

variable {σ ι : Type} [Arena σ ι (LinkedNode ι)] {t : LinkedTree σ ι} {g : Forest (ι × Override)}
  {s : SelectionTree} {i q : ι} {place upper : List Nat} {node : LinkedNode ι}

/-- The index that a node has for its parent, if there is such a node and it has a parent. -/
def parentOf? (t : LinkedTree σ ι) (i : ι) : Option ι :=
  (t.node? i).bind (·.parent?)

/-- The numbers of all nodes in pre-order and of all level-wide signs. -/
def sequences (t : LinkedTree σ ι) : Option (List Nat) := do
  let order ← t.preorder
  let nodes ← order.mapM t.node?
  return nodes.map (·.sequence) ++ t.levels.map (·.sequence)

/-- The nodes, their links, their numbers and what they record fit together, and no step fails.
Every node but the root stands once among the children of its parent and among those of no
other, and the pre-order runs through all nodes once from the top down. -/
structure Coherent [DecidableEq ι] (t : LinkedTree σ ι) : Prop where
  root : ∃ node, t.node? t.root = some node ∧
    ∀ op, op ∉ node.state.included ∧ (op ∈ node.state.excluded ↔ op = .descendants)
  member : ∀ i node, t.node? i = some node → (node.member? = none ↔ i = t.root)
  orphan : ∀ i, (t.node? i).isSome → (t.parentOf? i = none ↔ i = t.root)
  parent : ∀ i p, t.parentOf? i = some p → (t.node? p).isSome
  linked : ∀ q upper, t.node? q = some upper →
    ∀ i, upper.children.count i = if t.parentOf? i = some q then 1 else 0
  preorder : ∃ order, t.preorder = some order ∧
    (∀ i, order.count i = if (t.node? i).isSome then 1 else 0) ∧
    order.Pairwise (fun a b => t.parentOf? a ≠ some b) ∧ order.length = t.size + 1
  numbers : ∃ numbers, t.sequences = some numbers ∧ numbers.Nodup ∧
    ∀ n ∈ numbers, n < t.nextSequence
  rising : ∀ i p node upper, t.node? i = some node → t.parentOf? i = some p →
    t.node? p = some upper → upper.sequence < node.sequence
  levels : t.levels.Pairwise fun a b => (a.level == b.level) = false
  signs : ∀ i node, t.node? i = some node → ∀ op,
    ¬ (op ∈ node.state.included ∧ op ∈ node.state.excluded) ∧
      (op ∈ node.state.included ∨ op ∈ node.state.excluded →
        op = .member ∨ op = .children ∨ op = .descendants)
  settled : ∀ i node, t.node? i = some node → ∀ v, node.state.sign .descendants = some v →
    node.state.sign .member ≠ some v ∧ node.state.sign .children ≠ some v
  apply : ∀ a, (t.apply a).isSome
  clear : t.clear.isSome
  createChild : ∀ i m, (t.node? i).isSome → (t.createChild i m).1.isSome

theorem isSome_of_parentOf? (t : LinkedTree σ ι) (linked : t.parentOf? i = some q) :
    (t.node? i).isSome := by
  rw [parentOf?, Option.bind_eq_some_iff] at linked
  obtain ⟨node, here, -⟩ := linked
  rw [here]
  rfl

theorem Represents.exists_place_of_node? (represents : t.Represents g s)
    (here : t.node? i = some node) : ∃ place r, g.indexAt? t.root place = some i ∧
      s.site? ⟨s.epoch, place⟩ = some r ∧
      node = ⟨r.member?, r.state.toSets,
        if place = [] then none else g.indexAt? t.root place.dropLast, (g.under place).heads,
        r.sequence⟩ := by
  obtain ⟨place, found⟩ := represents.exists_place (by rw [here]; rfl)
  obtain ⟨r, site, -, shown⟩ := represents.exists_site? found
  exact ⟨place, r, found, site, Option.some.inj (here.symm.trans shown)⟩

/-- The link to a parent is the one to the place above. -/
theorem Represents.parentOf?_eq (represents : t.Represents g s)
    (found : g.indexAt? t.root place = some i) :
    t.parentOf? i = if place = [] then none else g.indexAt? t.root place.dropLast := by
  obtain ⟨r, -, -, shown⟩ := represents.exists_site? found
  rw [parentOf?, shown]
  rfl

theorem Represents.parentOf?_eq_some_iff (represents : t.Represents g s)
    (found : g.indexAt? t.root place = some i) (above : g.indexAt? t.root upper = some q) :
    t.parentOf? i = some q ↔ ∃ k, place = upper ++ [k] := by
  rw [represents.parentOf?_eq found]
  constructor
  · intro linked
    split at linked
    · cases linked
    · rename_i below
      obtain rfl := Forest.eq_of_indexAt? represents.once linked above
      exact ⟨_, (List.dropLast_append_getLast below).symm⟩
  · rintro ⟨k, rfl⟩
    rw [if_neg (by simp), List.dropLast_concat, above]

theorem Represents.parentOf?_cases (represents : t.Represents g s)
    (found : g.indexAt? t.root place = some i) : place = [] ∧ t.parentOf? i = none ∨
      ∃ upper k p, place = upper ++ [k] ∧ g.indexAt? t.root upper = some p ∧
        t.parentOf? i = some p := by
  rcases List.eq_nil_or_concat' place with rfl | ⟨upper, k, rfl⟩
  · exact Or.inl ⟨rfl, represents.parentOf?_eq found⟩
  · obtain ⟨r, site, -, -⟩ := represents.exists_site? found
    obtain ⟨p, -, -, above, -⟩ := represents.exists_parent found site
    exact Or.inr ⟨upper, k, p, rfl, above,
      (represents.parentOf?_eq_some_iff found above).mpr ⟨k, rfl⟩⟩

theorem Represents.isRoot_iff (represents : t.Represents g s)
    (found : g.indexAt? t.root place = some i) : place = [] ↔ i = t.root := by
  constructor
  · rintro rfl
    rw [Forest.indexAt?_nil] at found
    exact (Option.some.inj found).symm
  · rintro rfl
    exact Forest.eq_of_indexAt? represents.once found (Forest.indexAt?_nil t.root g)

theorem Represents.sequences_eq (represents : t.Represents g s) :
    t.sequences = some s.sequences := by
  have nodes : (t.root :: g.indices).mapM t.node? =
      some (⟨none, .withDescendants .excluded, none, g.heads, 0⟩ :: g.entries t.root) := by
    rw [List.mapM_cons, represents.root, Forest.mapM_indices represents.stored]
    rfl
  simp only [LinkedTree.sequences, represents.preorder_eq, nodes, Option.bind_eq_bind,
    Option.bind_some, SelectionTree.sequences_eq, ← represents.overrides, represents.levels,
    ← Forest.map_sequence_entries t.root]
  rfl

theorem Represents.count_children (represents : t.Represents g s) (here : t.node? q = some node)
    [DecidableEq ι] (i : ι) : node.children.count i = if t.parentOf? i = some q then 1 else 0 := by
  obtain ⟨upper, r, above, -, rfl⟩ := represents.exists_place_of_node? here
  have child (k : Nat) : (g.under upper).heads[k]? = g.indexAt? t.root (upper ++ [k]) := by
    rw [Forest.heads_getElem? _ q, Forest.indexAt?_append, above]
    rfl
  have nodup : (g.under upper).heads.Nodup := by
    refine List.nodup_iff_getElem?_ne_getElem?.mpr fun a b less bound same => ?_
    rw [child, child] at same
    have found := (child b).symm.trans (List.getElem?_eq_getElem bound)
    have places := Forest.eq_of_indexAt? represents.once (same.trans found) found
    exact Nat.ne_of_lt less (by simpa using places)
  have listed : i ∈ (g.under upper).heads ↔ t.parentOf? i = some q := by
    rw [List.mem_iff_getElem?]
    simp only [child]
    constructor
    · rintro ⟨k, found⟩
      exact (represents.parentOf?_eq_some_iff found above).mpr ⟨k, rfl⟩
    · intro linked
      obtain ⟨place, found⟩ := represents.exists_place (t.isSome_of_parentOf? linked)
      obtain ⟨k, rfl⟩ := (represents.parentOf?_eq_some_iff found above).mp linked
      exact ⟨k, found⟩
  rw [nodup.count]
  simp only [listed]

end

variable {σ ι : Type} [Arena σ ι (LinkedNode ι)] [DecidableEq ι] {t : LinkedTree σ ι}
  {g : Forest (ι × Override)} {s : SelectionTree}

theorem Represents.coherent_preorder (represents : t.Represents g s) :
    ∃ order, t.preorder = some order ∧
      (∀ i, order.count i = if (t.node? i).isSome then 1 else 0) ∧
      order.Pairwise (fun a b => t.parentOf? a ≠ some b) ∧ order.length = t.size + 1 := by
  refine ⟨_, represents.preorder_eq, fun i => ?_, ?_, ?_⟩
  · have live : i ∈ t.root :: g.indices ↔ (t.node? i).isSome :=
      ⟨represents.isSome_of_mem, represents.live i⟩
    rw [represents.once.count]
    simp only [live]
  · -- the order is that of the places, among which none stands before the one above it
    have places : (t.root :: g.indices).map some =
        s.preorder.map fun id => g.indexAt? t.root id.place := by
      rw [SelectionTree.preorder, ← represents.overrides, Forest.places_map]
      simp only [List.map_cons, List.map_map, Function.comp_def, rootId, Forest.indexAt?_nil]
      rw [← Forest.map_indexAt?_places t.root g]
    have pairs : (s.preorder.map fun id => g.indexAt? t.root id.place).Pairwise
        fun a b => ∀ i j, a = some i → b = some j → t.parentOf? i ≠ some j := by
      refine List.pairwise_map.mpr (s.pairwise_preorder.imp_of_mem ?_)
      intro a b first second apart i j left right linked
      obtain ⟨k, below⟩ := (represents.parentOf?_eq_some_iff left right).mp linked
      refine apart.2 (parentId?_eq_some_iff.mpr ⟨k, ?_⟩)
      rw [← below, (mem_preorder_iff.mp second).1, ← (mem_preorder_iff.mp first).1]
    rw [← places, List.pairwise_map] at pairs
    exact pairs.imp fun apart => apart _ _ rfl rfl
  · rw [List.length_cons, Forest.length_indices, LinkedTree.size, represents.size]
    rfl

/-- What stands for a tree whose nodes fit together fits together with its links. -/
theorem Represents.coherent [Arena.Lawful σ] (represents : t.Represents g s) (sound : s.Sound) :
    t.Coherent where
  root := by
    refine ⟨_, represents.root, fun op => ?_⟩
    have marked := SelectionState.mem_toSets (.withDescendants .excluded) op
    rw [SignSets.withDescendants_eq, marked.1, marked.2]
    cases op <;> simp [SelectionState.sign, SelectionState.withDescendants]
  member i node here := by
    obtain ⟨place, r, found, site, rfl⟩ := represents.exists_place_of_node? here
    exact (member?_eq_none_iff site).trans (represents.isRoot_iff found)
  orphan i live := by
    obtain ⟨place, found⟩ := represents.exists_place live
    rw [← represents.isRoot_iff found]
    rcases represents.parentOf?_cases found with ⟨top, none⟩ | ⟨upper, k, p, rfl, -, linked⟩
    · exact iff_of_true none top
    · rw [linked]
      exact iff_of_false (Option.some_ne_none p) (by simp)
  parent i p linked := by
    obtain ⟨place, found⟩ := represents.exists_place (t.isSome_of_parentOf? linked)
    rcases represents.parentOf?_cases found with ⟨-, none⟩ | ⟨upper, k, q, -, above, same⟩
    · rw [none] at linked
      cases linked
    · obtain rfl : p = q := Option.some.inj (linked.symm.trans same)
      exact represents.isSome_node? above
  linked q upper here := represents.count_children here
  preorder := represents.coherent_preorder
  numbers := ⟨_, represents.sequences_eq, sound.nodup_sequences, by
    rw [represents.nextSequence]
    exact sound.lt_nextSequence⟩
  rising i p node upper here linked above := by
    obtain ⟨place, r, found, site, rfl⟩ := represents.exists_place_of_node? here
    obtain ⟨top, u, higher, high, rfl⟩ := represents.exists_place_of_node? above
    obtain ⟨k, rfl⟩ := (represents.parentOf?_eq_some_iff found higher).mp linked
    exact sound.rising_parent (parentId?_eq_some_iff.mpr ⟨k, rfl⟩) site high
  levels := represents.levels ▸ sound.levels
  signs i node here op := by
    obtain ⟨place, r, found, site, rfl⟩ := represents.exists_place_of_node? here
    rw [(r.state.mem_toSets op).1, (r.state.mem_toSets op).2]
    refine ⟨fun both => ?_, fun either => ?_⟩
    · cases both.1.symm.trans both.2
    · cases op <;> simp_all [SelectionState.sign]
  settled i node here v := by
    obtain ⟨place, r, found, site, rfl⟩ := represents.exists_place_of_node? here
    simp only [SignSets.sign_toSets]
    exact sound.settled_state site v
  apply a := by
    obtain ⟨u, h, step, -⟩ := represents.apply a
    rw [step]
    rfl
  clear := by
    obtain ⟨u, step, -⟩ := represents.clear
    rw [step]
    rfl
  createChild i m live := by
    obtain ⟨place, found⟩ := represents.exists_place live
    obtain ⟨c, u, h, made, -⟩ := represents.createChild found m
    rw [made]
    rfl

end LinkedTree
end CubeAxis
