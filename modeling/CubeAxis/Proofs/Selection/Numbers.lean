import CubeAxis.Proofs.Selection

namespace CubeAxis
namespace Forest

/-- All nodes in pre-order, each as label and value. -/
def nodes {α : Type} : Forest α → List (Member × α)
  | nil => []
  | cons m v children siblings => (m, v) :: (children.nodes ++ siblings.nodes)

/-- The numbers of all nodes in pre-order. -/
def numbers (f : Forest Override) : List Nat :=
  f.nodes.map (·.2.sequence)

theorem numbers_cons (m : Member) (o : Override) (children siblings : Forest Override) :
    (cons m o children siblings).numbers = o.sequence :: (children.numbers ++ siblings.numbers) := by
  simp [numbers, nodes]

/-- Numbers go up from each node to the nodes below, starting above `low`. -/
def Rising : Nat → Forest Override → Prop
  | _, nil => True
  | low, cons _ o children siblings =>
    low < o.sequence ∧ children.Rising o.sequence ∧ siblings.Rising low

variable {f : Forest Override} {update : Override → Override} {low n : Nat} {path : List Member}

theorem numbers_branch (keeps : ∀ o, (update o).sequence = o.sequence) :
    (branch Override.fresh update path n).numbers = List.range' n path.length := by
  induction path generalizing n with
  | nil => rfl
  | cons m path ih =>
    rcases path with _ | ⟨k, path⟩
    · simp [branch, numbers, nodes, keeps, Override.fresh]
    · have rest := ih (n := n + 1)
      rw [branch, numbers_cons, rest]
      · simp [numbers, nodes, Override.fresh, List.range'_succ]
      · exact List.cons_ne_nil k path

/-- An update makes as many new nodes as are missing, numbered in a row. -/
theorem numbers_upsert (keeps : ∀ o, (update o).sequence = o.sequence) :
    (f.upsert Override.fresh update n path).numbers.Perm
      (f.numbers ++ List.range' n (f.missing path)) := by
  induction f generalizing path with
  | nil =>
    rw [upsert, numbers_branch keeps]
    cases path <;> exact .refl _
  | cons k o children siblings ihBelow ihBeside =>
    rcases path with _ | ⟨m, path⟩
    · simp [upsert, missing]
    · rw [upsert, missing]
      split
      · split
        · rename_i empty
          obtain rfl := List.isEmpty_iff.mp empty
          simp [numbers_cons, keeps, missing]
        · rw [numbers_cons, numbers_cons, List.cons_append, List.append_assoc]
          refine ((ihBelow.append_right _).cons _).trans (.cons _ ?_)
          rw [List.append_assoc]
          exact List.perm_append_comm.append_left _
      · rw [numbers_cons, numbers_cons, List.cons_append, List.append_assoc]
        exact (ihBeside.append_left _).cons _

theorem rising_branch (keeps : ∀ o, (update o).sequence = o.sequence) (bound : low < n) :
    (branch Override.fresh update path n).Rising low := by
  induction path generalizing low n with
  | nil => trivial
  | cons m path ih =>
    rcases path with _ | ⟨k, path⟩
    · exact ⟨(keeps _).symm ▸ bound, trivial, trivial⟩
    · exact ⟨bound, ih (Nat.lt_succ_self n), trivial⟩

theorem Rising.upsert (keeps : ∀ o, (update o).sequence = o.sequence) (rising : f.Rising low)
    (bound : low < n) (used : ∀ k ∈ f.numbers, k < n) :
    (f.upsert Override.fresh update n path).Rising low := by
  induction f generalizing low path with
  | nil => exact rising_branch keeps bound
  | cons k o children siblings ihBelow ihBeside =>
    obtain ⟨above, below, beside⟩ := rising
    simp only [numbers_cons, List.mem_cons, List.mem_append] at used
    rcases path with _ | ⟨m, path⟩
    · exact ⟨above, below, beside⟩
    · rw [Forest.upsert]
      split
      · split
        · refine ⟨(keeps o).symm ▸ above, ?_, beside⟩
          rwa [keeps]
        · refine ⟨above, ihBelow below (used _ (Or.inl rfl)) fun x mem => ?_, beside⟩
          exact used x (Or.inr (Or.inl mem))
      · exact ⟨above, below, ihBeside beside bound fun x mem => used x (Or.inr (Or.inr mem))⟩

theorem Rising.lt_sequence (rising : f.Rising low) {o : Override} (found : f.value? path = some o) :
    low < o.sequence := by
  induction f generalizing low path with
  | nil => cases found
  | cons k v children siblings ihBelow ihBeside =>
    obtain ⟨above, below, beside⟩ := rising
    rcases path with _ | ⟨m, path⟩
    · cases found
    · rw [value?_cons] at found
      split at found
      · split at found
        · cases found
          exact above
        · exact Nat.lt_trans above (ihBelow below found)
      · exact ihBeside beside found

/-- Further down a path the numbers are larger. -/
theorem Rising.sequence_lt (rising : f.Rising low) {rest : List Member} {o v : Override}
    (any : rest ≠ []) (upper : f.value? path = some o) (lower : f.value? (path ++ rest) = some v) :
    o.sequence < v.sequence := by
  induction f generalizing low path with
  | nil => cases upper
  | cons k w children siblings ihBelow ihBeside =>
    obtain ⟨_, below, beside⟩ := rising
    rcases path with _ | ⟨m, path⟩
    · cases upper
    · rw [List.cons_append, value?_cons] at lower
      rw [value?_cons] at upper
      split at upper
      · rename_i here
        rw [if_pos here] at lower
        split at upper
        · rename_i empty
          obtain rfl := List.isEmpty_iff.mp empty
          cases upper
          rw [List.nil_append, if_neg (by simpa using any)] at lower
          exact below.lt_sequence lower
        · rw [if_neg (by simp [any])] at lower
          exact ihBelow below upper lower
      · rename_i different
        rw [if_neg different] at lower
        exact ihBeside beside upper lower

end Forest

namespace SelectionTree

/-- How a tree is numbered: from the top down, each number once, and none that is
still to be given. A level has at most one sign. -/
structure Numbered (t : SelectionTree) : Prop where
  positive : 0 < t.nextSequence
  used : ∀ n ∈ t.overrides.numbers ++ t.levels.map (·.sequence), n < t.nextSequence
  once : (t.overrides.numbers ++ t.levels.map (·.sequence)).Nodup
  rising : t.overrides.Rising 0
  levels : t.levels.Pairwise fun a b => (a.level == b.level) = false

variable {t : SelectionTree}

theorem numbered_empty : SelectionTree.empty.Numbered :=
  ⟨Nat.one_pos, nofun, .nil, trivial, .nil⟩

theorem numbered_clear (t : SelectionTree) : t.clear.Numbered :=
  ⟨Nat.one_pos, nofun, .nil, trivial, .nil⟩

theorem Numbered.applyMember (numbered : t.Numbered) (s : Sign) (op : Operator) (m : Member) :
    (t.applyMember s op m).Numbered := by
  have keeps : ∀ o : Override, ({ o with
    state := (t.inheritedBy m).record o.state s op } : Override).sequence = o.sequence := fun _ => rfl
  have perm : ((t.applyMember s op m).overrides.numbers ++ t.levels.map (·.sequence)).Perm
      (t.overrides.numbers ++ t.levels.map (·.sequence) ++
        List.range' t.nextSequence (t.overrides.missing m.pathFromRoot)) := by
    refine ((Forest.numbers_upsert keeps).append_right _).trans ?_
    rw [List.append_assoc, List.append_assoc]
    exact List.perm_append_comm.append_left _
  refine ⟨Nat.lt_of_lt_of_le numbered.positive (Nat.le_add_right _ _), fun n mem => ?_, ?_, ?_,
    numbered.levels⟩
  · rcases List.mem_append.mp (perm.mem_iff.mp mem) with old | new
    · exact Nat.lt_of_lt_of_le (numbered.used n old) (Nat.le_add_right _ _)
    · exact (List.mem_range'_1.mp new).2
  · refine perm.nodup_iff.mpr (List.nodup_append.mpr ⟨numbered.once, List.nodup_range', ?_⟩)
    rintro n old k new rfl
    exact Nat.lt_irrefl _ (Nat.lt_of_lt_of_le (numbered.used n old) (List.mem_range'_1.mp new).1)
  · exact numbered.rising.upsert keeps numbered.positive fun n mem =>
      numbered.used n (List.mem_append_left _ mem)

theorem Numbered.applyLevel (numbered : t.Numbered) (s : Sign) (l : Level) :
    (t.applyLevel s l).Numbered := by
  have kept : (t.levels.filter fun o => !(o.level == l)).Sublist t.levels := List.filter_sublist
  have numbers := (List.Sublist.refl t.overrides.numbers).append (kept.map (·.sequence))
  have listed : t.overrides.numbers ++ (t.applyLevel s l).levels.map (·.sequence) =
      t.overrides.numbers ++ (t.levels.filter fun o => !(o.level == l)).map (·.sequence) ++
        [t.nextSequence] := by
    simp [SelectionTree.applyLevel]
  refine ⟨Nat.succ_pos _, fun n mem => ?_, ?_, numbered.rising, ?_⟩
  · change n ∈ t.overrides.numbers ++ _ at mem
    rw [listed] at mem
    rcases List.mem_append.mp mem with old | new
    · exact Nat.lt_succ_of_lt (numbered.used n (numbers.subset old))
    · exact List.mem_singleton.mp new ▸ Nat.lt_succ_self _
  · change (t.overrides.numbers ++ _).Nodup
    rw [listed]
    refine List.nodup_append.mpr ⟨numbered.once.sublist numbers, List.nodup_singleton _, ?_⟩
    rintro n old k new rfl
    exact Nat.lt_irrefl _ (List.mem_singleton.mp new ▸ numbered.used n (numbers.subset old))
  · refine List.pairwise_append.mpr ⟨numbered.levels.sublist kept, List.pairwise_singleton _ _, ?_⟩
    rintro o old _ new
    obtain rfl := List.mem_singleton.mp new
    simpa using (List.mem_filter.mp old).2

theorem Grown.numbered (grown : t.Grown) : t.Numbered := by
  induction grown with
  | empty => exact numbered_empty
  | @apply t a _ ih =>
    obtain ⟨sign, operator, target⟩ := a
    cases target with
    | member m => exact ih.applyMember sign operator m
    | level l => exact ih.applyLevel sign l
  | clear _ _ => exact numbered_clear _

end SelectionTree
end CubeAxis
