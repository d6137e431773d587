import CubeAxis.Proofs.Arena
import CubeAxis.Proofs.Selection.Linked.Below
import CubeAxis.Proofs.Selection.SignSets
import CubeAxis.Selection.Linked

namespace CubeAxis

/-- A node with its index for which another state is recorded. -/
def Override.restated {ι : Type} (update : SelectionState → SelectionState) (v : ι × Override) :
    ι × Override :=
  (v.1, { v.2 with state := update v.2.state })

namespace Forest

variable {ι : Type} {f g children siblings : Forest (ι × Override)} {m : Member} {v : ι × Override}
  {node? after : ι → Option (LinkedNode ι)} {upper i c : ι} {place rest : List Nat}
  {path : List Member}

/-- The indices of the top nodes. -/
def heads : Forest (ι × Override) → List ι
  | nil => []
  | cons _ v _ siblings => v.1 :: siblings.heads

/-- The indices of all nodes in pre-order. -/
def indices (f : Forest (ι × Override)) : List ι :=
  f.nodes.map (·.2.1)

/-- A node as it is stored below `upper`. -/
def entry (m : Member) (v : ι × Override) (upper : ι) (children : Forest (ι × Override)) :
    LinkedNode ι :=
  ⟨some m, v.2.state.toSets, some upper, children.heads, v.2.sequence⟩

/-- All nodes are stored, each linked to its parent and to its children, the top nodes to
`upper`. -/
def Stored (node? : ι → Option (LinkedNode ι)) (upper : ι) : Forest (ι × Override) → Prop
  | nil => True
  | cons m v children siblings =>
    node? v.1 = some (entry m v upper children) ∧ children.Stored node? v.1 ∧
      siblings.Stored node? upper

/-- All nodes are stored, and `upper` is linked to the top nodes. -/
structure Held (node? : ι → Option (LinkedNode ι)) (upper : ι) (f : Forest (ι × Override)) :
    Prop where
  linked : ∃ node, node? upper = some node ∧ node.children = f.heads
  stored : f.Stored node? upper

/-- The index of the node at a place, `upper` at the top. -/
def indexAt? (upper : ι) : Forest (ι × Override) → List Nat → Option ι
  | _, [] => some upper
  | nil, _ :: _ => none
  | cons _ v children _, 0 :: place => children.indexAt? v.1 place
  | cons _ _ _ siblings, (k + 1) :: place => siblings.indexAt? upper (k :: place)

theorem indices_cons (m : Member) (v : ι × Override) (children siblings : Forest (ι × Override)) :
    (cons m v children siblings).indices = v.1 :: (children.indices ++ siblings.indices) := by
  simp [indices, nodes]

theorem length_indices (f : Forest (ι × Override)) : f.indices.length = f.size := by
  induction f with
  | nil => rfl
  | cons m v children siblings ihBelow ihBeside =>
    rw [indices_cons, List.length_cons, List.length_append, ihBelow, ihBeside, size]

theorem nodup_indices_cons : (cons m v children siblings).indices.Nodup ↔
    (v.1 ∉ children.indices ∧ v.1 ∉ siblings.indices) ∧ children.indices.Nodup ∧
      siblings.indices.Nodup ∧ ∀ i ∈ children.indices, ∀ j ∈ siblings.indices, i ≠ j := by
  rw [indices_cons, List.nodup_cons, List.nodup_append, List.mem_append, not_or]

theorem Stored.congr (stored : f.Stored node? upper) (same : ∀ i ∈ f.indices, after i = node? i) :
    f.Stored after upper := by
  induction f generalizing upper with
  | nil => trivial
  | cons m v children siblings ihBelow ihBeside =>
    obtain ⟨here, below, beside⟩ := stored
    simp only [indices_cons, List.forall_mem_cons, List.forall_mem_append] at same
    exact ⟨same.1.trans here, ihBelow below same.2.1, ihBeside beside same.2.2⟩

@[simp]
theorem indexAt?_nil (upper : ι) (f : Forest (ι × Override)) : f.indexAt? upper [] = some upper := by
  cases f <;> rfl

theorem indexAt?_append (f : Forest (ι × Override)) (place rest : List Nat) :
    f.indexAt? upper (place ++ rest) =
      (f.indexAt? upper place).bind fun i => (f.under place).indexAt? i rest := by
  induction f generalizing upper place with
  | nil => cases place <;> rfl
  | cons m v children siblings ihBelow ihBeside =>
    rcases place with _ | ⟨_ | k, place⟩
    · rfl
    · exact ihBelow place
    · exact ihBeside (k :: place)

theorem indexAt?_eq_nodeAt? (upper : ι) (f : Forest (ι × Override)) (any : place ≠ []) :
    f.indexAt? upper place = (f.nodeAt? place).map (·.2.1) := by
  induction f generalizing upper place with
  | nil =>
    obtain ⟨k, place, rfl⟩ := List.exists_cons_of_ne_nil any
    rfl
  | cons m v children siblings ihBelow ihBeside =>
    rcases place with _ | ⟨_ | k, place⟩
    · exact absurd rfl any
    · cases place with
      | nil => exact indexAt?_nil v.1 children
      | cons l place => exact ihBelow v.1 (List.cons_ne_nil l place)
    · exact ihBeside upper (List.cons_ne_nil k place)

/-- The places in pre-order are those of the indices, in the same order. -/
theorem map_indexAt?_places (upper : ι) (f : Forest (ι × Override)) :
    (f.places 0).map (f.indexAt? upper) = f.indices.map some := by
  induction f generalizing upper with
  | nil => rfl
  | cons m v children siblings ihBelow ihBeside =>
    rw [map_places_cons, indices_cons, List.map_cons, List.map_append, ← ihBelow v.1,
      ← ihBeside upper]
    congr 1
    · exact indexAt?_nil v.1 children
    · congr 1
      exact siblings.map_places_congr (fun _ _ => by rfl) 0

theorem mem_places_of_indexAt? (found : f.indexAt? upper place = some i) (any : place ≠ []) :
    place ∈ f.places 0 := by
  rw [indexAt?_eq_nodeAt? upper f any] at found
  obtain ⟨node, here, -⟩ := Option.map_eq_some_iff.mp found
  exact mem_places_iff_nodeAt?.mpr ⟨node, here⟩

theorem mem_indices_of_indexAt? (found : f.indexAt? upper place = some i) (any : place ≠ []) :
    i ∈ f.indices := by
  have image := List.mem_map_of_mem (f := f.indexAt? upper) (mem_places_of_indexAt? found any)
  rw [map_indexAt?_places, found] at image
  obtain ⟨j, mem, same⟩ := List.mem_map.mp image
  exact Option.some.inj same ▸ mem

theorem mem_cons_indices_of_indexAt? (found : f.indexAt? upper place = some i) :
    i ∈ upper :: f.indices := by
  by_cases top : place = []
  · rw [top, indexAt?_nil] at found
    exact List.mem_cons.mpr (Or.inl (Option.some.inj found).symm)
  · exact List.mem_cons_of_mem _ (mem_indices_of_indexAt? found top)

theorem exists_indexAt? (upper : ι) (mem : i ∈ f.indices) :
    ∃ k place, f.indexAt? upper (k :: place) = some i := by
  have image := List.mem_map_of_mem (f := some) mem
  rw [← map_indexAt?_places upper] at image
  obtain ⟨place, listed, found⟩ := List.mem_map.mp image
  obtain ⟨k, rest, rfl, -⟩ := exists_le_of_mem_places listed
  exact ⟨k, rest, found⟩

/-- No index stands at two places. -/
theorem eq_of_indexAt? (once : (upper :: f.indices).Nodup)
    (first : f.indexAt? upper place = some i) (second : f.indexAt? upper rest = some i) :
    place = rest := by
  have whole : ([] :: f.places 0).map (f.indexAt? upper) = (upper :: f.indices).map some := by
    rw [List.map_cons, List.map_cons, map_indexAt?_places, indexAt?_nil]
  have apart := once.map fun _ _ => Option.some.inj
  rw [← whole] at apart
  have listed : ∀ {p}, f.indexAt? upper p = some i → p ∈ [] :: f.places 0 := fun found =>
    List.mem_cons.mpr (or_iff_not_imp_left.mpr (mem_places_of_indexAt? found))
  exact List.inj_on_of_nodup_map apart (listed first) (listed second) (first.trans second.symm)

theorem indexAt?_locate (upper : ι) (there : f.missing path = 0) (any : path ≠ []) :
    f.indexAt? upper (f.locate 0 path) = (f.value? path).map Prod.fst := by
  induction f generalizing upper path with
  | nil =>
    obtain ⟨m, path, rfl⟩ := List.exists_cons_of_ne_nil any
    cases there
  | cons l w children siblings ihBelow ihBeside =>
    obtain ⟨m, path, rfl⟩ := List.exists_cons_of_ne_nil any
    rw [missing] at there
    rw [locate, value?_cons]
    split at there
    · rename_i here
      rw [if_pos here, if_pos here]
      change children.indexAt? w.1 (children.locate 0 path) = _
      cases path with
      | nil =>
        rw [locate_nil, indexAt?_nil]
        rfl
      | cons k path => exact ihBelow w.1 there (List.cons_ne_nil k path)
    · rename_i other
      obtain ⟨k, place, located, further⟩ := exists_locate_eq there any
      have beside := ihBeside upper there any
      rw [located] at beside
      rw [if_neg other, if_neg other, further]
      exact beside

/-- Every node is still at its place in the other forest. -/
def Keeps (f g : Forest (ι × Override)) : Prop :=
  ∀ upper place i, f.indexAt? upper place = some i → g.indexAt? upper place = some i

theorem Keeps.trans {h : Forest (ι × Override)} (first : f.Keeps g) (second : g.Keeps h) :
    f.Keeps h :=
  fun upper place i found => second upper place i (first upper place i found)

theorem keeps_of_appendAt? (made : f.appendAt? m v rest = some g) : f.Keeps g := by
  intro upper place i found
  by_cases top : place = []
  · rw [top, indexAt?_nil] at found ⊢
    exact found
  · rw [indexAt?_eq_nodeAt? upper _ top] at found ⊢
    obtain ⟨⟨k, w⟩, here, same⟩ := Option.map_eq_some_iff.mp found
    rw [nodeAt?_appendAt? made here, Option.map_some]
    exact congrArg some same

theorem indexAt?_adjust (update : SelectionState → SelectionState) (upper : ι)
    (f : Forest (ι × Override)) (path : List Member) (place : List Nat) :
    (f.adjust (Override.restated update) path).indexAt? upper place = f.indexAt? upper place := by
  induction f generalizing upper path place with
  | nil => rfl
  | cons l w children siblings ihBelow ihBeside =>
    cases path with
    | nil => rfl
    | cons m path =>
      rw [Forest.adjust]
      rcases place with _ | ⟨_ | k, place⟩
      · rw [indexAt?_nil, indexAt?_nil]
      · split
        · split
          · rfl
          · exact ihBelow w.1 path place
        · rfl
      · split
        · split <;> rfl
        · exact ihBeside upper (m :: path) (k :: place)

theorem keeps_adjust (update : SelectionState → SelectionState) (f : Forest (ι × Override))
    (path : List Member) : f.Keeps (f.adjust (Override.restated update) path) :=
  fun upper place _ found => (indexAt?_adjust update upper f path place).trans found

theorem Held.under (held : f.Held node? upper) (found : f.indexAt? upper place = some i) :
    (f.under place).Held node? i := by
  by_cases top : place = []
  · subst top
    rw [indexAt?_nil] at found
    cases found
    rwa [under_nil]
  · have stored := held.stored
    clear held
    induction f generalizing upper place with
    | nil =>
      obtain ⟨k, place, rfl⟩ := List.exists_cons_of_ne_nil top
      cases found
    | cons m v children siblings ihBelow ihBeside =>
      obtain ⟨here, below, beside⟩ := stored
      rcases place with _ | ⟨_ | k, place⟩
      · exact absurd rfl top
      · cases place with
        | nil =>
          change children.indexAt? v.1 [] = some i at found
          rw [indexAt?_nil] at found
          cases found
          change (children.under []).Held node? v.1
          rw [under_nil]
          exact ⟨⟨_, here, rfl⟩, below⟩
        | cons l place => exact ihBelow found (List.cons_ne_nil l place) below
      · exact ihBeside found (List.cons_ne_nil k place) beside

theorem heads_appendAt? (made : f.appendAt? m v place = some g) :
    g.heads = f.heads ++ if place = [] then [v.1] else [] := by
  induction f generalizing place g with
  | nil =>
    cases place with
    | nil => cases made; rfl
    | cons k place => cases made
  | cons l w children siblings _ ihBeside =>
    rcases place with _ | ⟨_ | k, place⟩
    · obtain ⟨siblings', step, rfl⟩ := Option.map_eq_some_iff.mp made
      exact congrArg (w.1 :: ·) (ihBeside step)
    · obtain ⟨children', -, rfl⟩ := Option.map_eq_some_iff.mp made
      exact (List.append_nil _).symm
    · obtain ⟨siblings', step, rfl⟩ := Option.map_eq_some_iff.mp made
      have tops := ihBeside step
      rw [if_neg (List.cons_ne_nil k place)] at tops
      exact congrArg (w.1 :: ·) tops

/-- A new node at the end of the children of a stored one is stored with the rest. -/
theorem Stored.appendAt? {o : Override} (stored : f.Stored node? upper)
    (made : f.appendAt? m (c, o) place = some g) (target : f.indexAt? upper place = some i)
    (once : (upper :: f.indices).Nodup) (fresh : c ∉ upper :: f.indices)
    (new : after c = some (entry m (c, o) i nil))
    (parent : ∀ node, node? i = some node →
      after i = some { node with children := node.children ++ [c] })
    (others : ∀ j, j ≠ c → j ≠ i → after j = node? j) : g.Stored after upper := by
  induction f generalizing upper place g with
  | nil =>
    cases place with
    | nil =>
      cases made
      cases target
      exact ⟨new, trivial, trivial⟩
    | cons k place => cases made
  | cons l w children siblings ihBelow ihBeside =>
    obtain ⟨here, below, beside⟩ := stored
    rw [List.nodup_cons, nodup_indices_cons] at once
    simp only [indices_cons, List.mem_cons, List.mem_append, not_or] at once fresh
    obtain ⟨⟨notHere, notBelow, notBeside⟩, ⟨ownBelow, ownBeside⟩, onceBelow, onceBeside, apart⟩ :=
      once
    obtain ⟨newUpper, newHere, newBelow, newBeside⟩ := fresh
    have untouched : ∀ {h : Forest (ι × Override)} {p : ι}, h.Stored node? p → c ∉ h.indices →
        i ∉ h.indices → h.Stored after p := fun kept absent other => kept.congr fun j mem =>
      others j (fun same => absent (same ▸ mem)) fun same => other (same ▸ mem)
    rcases place with _ | ⟨_ | k, place⟩
    · -- the new node stands behind the last sibling
      obtain rfl : upper = i := Option.some.inj target
      obtain ⟨siblings', step, rfl⟩ := Option.map_eq_some_iff.mp made
      have whole := ihBeside beside step (indexAt?_nil upper siblings)
        (List.nodup_cons.mpr ⟨notBeside, onceBeside⟩) (by simp [newUpper, newBeside])
      have kept := others w.1 (Ne.symm newHere) (Ne.symm notHere)
      exact ⟨kept.trans here, untouched below newBelow notBelow, whole⟩
    · obtain ⟨children', step, rfl⟩ := Option.map_eq_some_iff.mp made
      have outside : i ∉ siblings.indices := by
        rcases List.mem_cons.mp (mem_cons_indices_of_indexAt? (f := children) target) with rfl | low
        · exact ownBeside
        · exact fun further => apart i low i further rfl
      have whole := ihBelow below step target
        (List.nodup_cons.mpr ⟨ownBelow, onceBelow⟩) (by simp [newHere, newBelow])
      refine ⟨?_, whole, untouched beside newBeside outside⟩
      rw [entry, heads_appendAt? step]
      cases place with
      | nil =>
        -- the first sibling is the parent itself
        obtain rfl : w.1 = i := Option.some.inj ((indexAt?_nil w.1 children).symm.trans target)
        exact parent _ here
      | cons n place =>
        have low := mem_indices_of_indexAt? (f := children) target (List.cons_ne_nil n place)
        rw [if_neg (List.cons_ne_nil n place), List.append_nil]
        exact (others w.1 (Ne.symm newHere) fun same => ownBelow (same ▸ low)).trans here
    · obtain ⟨siblings', step, rfl⟩ := Option.map_eq_some_iff.mp made
      have low := mem_indices_of_indexAt? (f := siblings) target (List.cons_ne_nil k place)
      have whole := ihBeside beside step target
        (List.nodup_cons.mpr ⟨notBeside, onceBeside⟩) (by simp [newUpper, newBeside])
      have kept := others w.1 (Ne.symm newHere) fun same => ownBeside (same ▸ low)
      exact ⟨kept.trans here, untouched below newBelow fun high => apart i high i low rfl, whole⟩

theorem heads_adjust (update : SelectionState → SelectionState) (f : Forest (ι × Override))
    (path : List Member) : (f.adjust (Override.restated update) path).heads = f.heads := by
  induction f generalizing path with
  | nil => rfl
  | cons l w children siblings _ ihBeside =>
    cases path with
    | nil => rfl
    | cons m path =>
      rw [Forest.adjust]
      split
      · split <;> rfl
      · rw [heads, heads, ihBeside]

/-- Another state of one stored node leaves all nodes stored. -/
theorem Stored.adjust {change : SignSets → SignSets} {update : SelectionState → SelectionState}
    (stored : f.Stored node? upper) (there : f.missing path = 0) (any : path ≠ [])
    (target : f.indexAt? upper (f.locate 0 path) = some i) (once : f.indices.Nodup)
    (own : ∀ node, node? i = some node → after i = some { node with state := change node.state })
    (others : ∀ j, j ≠ i → after j = node? j)
    (same : ∀ st : SelectionState, change st.toSets = (update st).toSets) :
    (f.adjust (Override.restated update) path).Stored after upper := by
  induction f generalizing upper path with
  | nil =>
    obtain ⟨m, path, rfl⟩ := List.exists_cons_of_ne_nil any
    cases there
  | cons l w children siblings ihBelow ihBeside =>
    obtain ⟨here, below, beside⟩ := stored
    obtain ⟨⟨ownBelow, ownBeside⟩, onceBelow, onceBeside, apart⟩ := nodup_indices_cons.mp once
    have untouched : ∀ {h : Forest (ι × Override)} {p : ι}, h.Stored node? p →
        i ∉ h.indices → h.Stored after p := fun kept other => kept.congr fun j mem =>
      others j fun same => other (same ▸ mem)
    obtain ⟨m, path, rfl⟩ := List.exists_cons_of_ne_nil any
    rw [missing] at there
    rw [locate] at target
    rw [Forest.adjust]
    split at there
    · rename_i label
      rw [if_pos label] at target
      rw [if_pos label]
      have found : children.indexAt? w.1 (children.locate 0 path) = some i := target
      cases path with
      | nil =>
        rw [locate_nil, indexAt?_nil] at found
        obtain rfl : w.1 = i := Option.some.inj found
        refine ⟨?_, untouched below ownBelow, untouched beside ownBeside⟩
        rw [Override.restated, own _ here, entry, entry, same]
      | cons k path =>
        have low := mem_indices_of_indexAt? found (locate_ne_nil there (List.cons_ne_nil k path))
        have kept := others w.1 fun same => ownBelow (same ▸ low)
        rw [if_neg (by simp)]
        refine ⟨?_, ihBelow below there (List.cons_ne_nil k path) found onceBelow,
          untouched beside fun further => apart i low i further rfl⟩
        rw [kept, here, entry, entry, heads_adjust]
    · rename_i other
      obtain ⟨k, place, located, further⟩ := exists_locate_eq there (List.cons_ne_nil m path)
      rw [if_neg other, further] at target
      rw [if_neg other]
      have found : siblings.indexAt? upper (k :: place) = some i := target
      have low := mem_indices_of_indexAt? found (List.cons_ne_nil k place)
      have kept := others w.1 fun same => ownBeside (same ▸ low)
      rw [← located] at found
      exact ⟨kept.trans here, untouched below fun high => apart i high i low rfl,
        ihBeside beside there (List.cons_ne_nil m path) found onceBeside⟩

/-- What is stored for a node is what it shows at its place, with the links to its parent and
to its children. -/
theorem Stored.exists_siteAt? (stored : f.Stored node? upper)
    (found : f.indexAt? upper place = some i) (any : place ≠ []) (inherited : Inherited) :
    ∃ s, (f.map Prod.snd).siteAt? inherited place = some s ∧
      s.children = (f.under place).map Prod.snd ∧
      node? i = some ⟨s.member?, s.state.toSets, f.indexAt? upper place.dropLast,
        (f.under place).heads, s.sequence⟩ := by
  induction f generalizing upper place inherited with
  | nil =>
    obtain ⟨k, place, rfl⟩ := List.exists_cons_of_ne_nil any
    cases found
  | cons m v children siblings ihBelow ihBeside =>
    obtain ⟨here, below, beside⟩ := stored
    rcases place with _ | ⟨_ | k, place⟩
    · exact absurd rfl any
    · cases place with
      | nil =>
        obtain rfl : v.1 = i := Option.some.inj ((indexAt?_nil v.1 children).symm.trans found)
        refine ⟨⟨some (m, inherited), v.2.state, v.2.sequence, children.map Prod.snd⟩, rfl,
          congrArg (map Prod.snd) (under_nil children).symm, ?_⟩
        change _ = some (LinkedNode.mk _ _ _ (children.under []).heads _)
        rw [here, under_nil]
        rfl
      | cons l place => exact ihBelow below found (List.cons_ne_nil l place) _
    · obtain ⟨s, site, lower, shown⟩ :=
        ihBeside beside found (List.cons_ne_nil k place) inherited
      refine ⟨s, site, lower, shown.trans ?_⟩
      cases place with
      | nil =>
        rw [List.dropLast_singleton, List.dropLast_singleton, indexAt?_nil, indexAt?_nil]
        rfl
      | cons l place => rfl

theorem exists_indexAt?_of_siteAt? {inherited : Inherited} {s : Site}
    (site : (f.map Prod.snd).siteAt? inherited place = some s) (upper : ι) :
    ∃ i, f.indexAt? upper place = some i := by
  have listed := (mem_places_iff inherited).mpr ⟨s, site⟩
  rw [places_map] at listed
  have image := List.mem_map_of_mem (f := f.indexAt? upper) listed
  rw [map_indexAt?_places] at image
  obtain ⟨i, -, found⟩ := List.mem_map.mp image
  exact ⟨i, found.symm⟩

end Forest
end CubeAxis
