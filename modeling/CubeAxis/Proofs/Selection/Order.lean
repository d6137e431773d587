import CubeAxis.Proofs.Selection.Run

namespace CubeAxis
namespace Forest

variable {α : Type} {make : Nat → α} {update : α → α} {n : Nat} {path : List Member} {f : Forest α}
  {k : Member} {v : α}

theorem exists_mem_nodes_branch (last : path.getLast? = some k) :
    ∃ v, (k, v) ∈ (branch make update path n).nodes := by
  induction path generalizing n with
  | nil => cases last
  | cons m path ih =>
    rcases path with _ | ⟨a, path⟩
    · cases last
      exact ⟨_, List.mem_cons_self⟩
    · obtain ⟨v, mem⟩ := ih (n := n + 1) (by simpa using last)
      exact ⟨v, List.mem_cons_of_mem _ (List.mem_append_left _ mem)⟩

/-- An update keeps the members of the nodes. -/
theorem exists_mem_nodes_upsert (mem : (k, v) ∈ f.nodes) :
    ∃ w, (k, w) ∈ (f.upsert make update n path).nodes := by
  induction f generalizing path with
  | nil => cases mem
  | cons l w children siblings ihBelow ihBeside =>
    rcases path with _ | ⟨m, path⟩
    · exact ⟨v, mem⟩
    · simp only [nodes, List.mem_cons, List.mem_append] at mem
      rw [upsert]
      split
      · split
        · rcases mem with first | later
          · cases first
            exact ⟨_, List.mem_cons_self⟩
          · exact ⟨v, List.mem_cons_of_mem _ (List.mem_append.mpr later)⟩
        · rcases mem with first | lower | further
          · cases first
            exact ⟨_, List.mem_cons_self⟩
          · obtain ⟨w, found⟩ := ihBelow lower
            exact ⟨w, List.mem_cons_of_mem _ (List.mem_append_left _ found)⟩
          · exact ⟨v, List.mem_cons_of_mem _ (List.mem_append_right _ further)⟩
      · rcases mem with first | lower | further
        · cases first
          exact ⟨_, List.mem_cons_self⟩
        · exact ⟨v, List.mem_cons_of_mem _ (List.mem_append_left _ lower)⟩
        · obtain ⟨w, found⟩ := ihBeside further
          exact ⟨w, List.mem_cons_of_mem _ (List.mem_append_right _ found)⟩

/-- A new node stands for the last member of the path. -/
theorem exists_mem_nodes_upsert_self (last : path.getLast? = some k) (absent : f.value? path = none) :
    ∃ w, (k, w) ∈ (f.upsert make update n path).nodes := by
  induction f generalizing path with
  | nil => exact exists_mem_nodes_branch last
  | cons l w children siblings ihBelow ihBeside =>
    rcases path with _ | ⟨m, path⟩
    · cases last
    · rw [value?_cons] at absent
      rw [upsert]
      split at absent
      · rename_i here
        rw [if_pos here]
        split at absent
        · cases absent
        · rename_i more
          rw [if_neg more]
          obtain ⟨a, path, rfl⟩ := List.exists_cons_of_ne_nil (by simpa using more)
          obtain ⟨w, found⟩ := ihBelow (by simpa using last) absent
          exact ⟨w, List.mem_cons_of_mem _ (List.mem_append_left _ found)⟩
      · rename_i other
        rw [if_neg other]
        obtain ⟨w, found⟩ := ihBeside last absent
        exact ⟨w, List.mem_cons_of_mem _ (List.mem_append_right _ found)⟩

end Forest

namespace SelectionTree

variable {t : SelectionTree} {as : List Selection} {a b : Selection} {m k : Member}

theorem isPrefixOf_iff : m.pathFromRoot.isPrefixOf k.pathFromRoot = true ↔ m.names <+: k.names :=
  Member.isPrefixOf_iff

theorem hasNode_apply : (t.apply a).hasNode m = true ↔
    t.hasNode m = true ∨ ∃ k, a.target = .member k ∧ m.names <+: k.names := by
  obtain ⟨sign, operator, k | l⟩ := a
  · change (t.applyMember sign operator k).hasNode m = true ↔ _
    rw [hasNode_eq, hasNode_eq, applyMember]
    cases path : m.pathFromRoot.isPrefixOf k.pathFromRoot with
    | true =>
      rw [Forest.value?_upsert_of_prefix m.pathFromRoot_ne_nil path]
      simp [isPrefixOf_iff.mp path]
    | false =>
      rw [Forest.value?_upsert_of_not_prefix path]
      simp [← isPrefixOf_iff, path]
  · simp [hasNode, apply, applyLevel]

/-- The members with a node are those at or above a member that an action is on. -/
theorem hasNode_ofSelections : (ofSelections as).hasNode m = true ↔
    ∃ a ∈ as, ∃ k, a.target = .member k ∧ m.names <+: k.names := by
  induction as using List.reverseRecOn with
  | nil => simp [ofSelections, hasNode, empty, Forest.find?]
  | append_singleton as a ih =>
    rw [ofSelections_concat, hasNode_apply, ih]
    simp only [List.mem_append, List.mem_singleton, or_and_right, exists_or, exists_eq_left]

/-- The next number is above all that are given. -/
theorem Grown.number_lt (grown : t.Grown) (target : SelectionTarget) :
    t.number target < t.nextSequence := by
  have numbered := grown.numbered
  cases target with
  | member m =>
    rw [number]
    cases found : t.overrides.value? m.pathFromRoot with
    | none => exact numbered.positive
    | some o =>
      obtain ⟨k, node, -⟩ := grown.exists_node found
      exact numbered.used _ (List.mem_append_left _ (List.mem_map_of_mem node))
  | level l =>
    rw [number]
    cases found : t.levels.find? (·.level == l) with
    | none => exact numbered.positive
    | some o =>
      have level := List.mem_of_find?_eq_some found
      exact numbered.used _ (List.mem_append_right _ (List.mem_map_of_mem level))

/-- A node keeps its number. -/
theorem number_apply_of_hasNode (a : Selection) (node : t.hasNode m = true) :
    (t.apply a).number (.member m) = t.number (.member m) := by
  obtain ⟨o, found⟩ := Option.isSome_iff_exists.mp (t.hasNode_eq m ▸ node)
  obtain ⟨sign, operator, k | l⟩ := a
  · change (t.applyMember sign operator k).number _ = _
    rw [number, number, applyMember, found]
    cases path : m.pathFromRoot.isPrefixOf k.pathFromRoot with
    | true =>
      rw [Forest.value?_upsert_of_prefix m.pathFromRoot_ne_nil path, found]
      split <;> rfl
    | false => rw [Forest.value?_upsert_of_not_prefix path, found]
  · rfl

theorem le_number_applyMember (s : Sign) (op : Operator) (absent : t.hasNode m = false) :
    t.nextSequence ≤ (t.applyMember s op m).number (.member m) := by
  have missing := Option.isSome_eq_false_iff.mp (t.hasNode_eq m ▸ absent)
  have self : m.pathFromRoot.isPrefixOf m.pathFromRoot = true :=
    isPrefixOf_iff.mpr (List.prefix_refl _)
  rw [number, applyMember, Forest.value?_upsert_of_prefix m.pathFromRoot_ne_nil self,
    Option.isNone_iff_eq_none.mp missing, if_pos rfl]
  exact Nat.le_add_right _ _

theorem number_applyLevel_self (t : SelectionTree) (s : Sign) (l : Level) :
    (t.applyLevel s l).number (.level l) = t.nextSequence := by
  have none : (t.levels.filter fun o => !(o.level == l)).find? (·.level == l) = none := by
    simp [List.find?_eq_none]
  simp [number, applyLevel, List.find?_append, none]

theorem number_applyLevel_of_ne (t : SelectionTree) (s : Sign) {k l : Level}
    (different : (k == l) = false) :
    (t.applyLevel s l).number (.level k) = t.number (.level k) := by
  have kept : (t.levels.filter fun o => !(o.level == l)).find? (·.level == k) =
      t.levels.find? (·.level == k) := by
    rw [List.find?_filter]
    congr 1
    funext o
    by_cases same : (o.level == k) = true
    · simp [same, BEq.congr_left same, different]
    · simp [same]
  have other : (l == k) = false := by rw [BEq.comm, different]
  simp [number, applyLevel, List.find?_append, kept, other]

theorem hasNode_ofSelections_of_mem (mem : a ∈ as) (target : a.target = .member m) :
    (ofSelections as).hasNode m = true :=
  hasNode_ofSelections.mpr ⟨a, mem, m, target, List.prefix_refl _⟩

/-- A member on which no action came before has no node: actions go from the top down. -/
theorem hasNode_ofSelections_eq_false (orderly : Orderly (as ++ [b])) (target : b.target = .member m)
    (fresh : ∀ a ∈ as, a.target ≠ b.target) : (ofSelections as).hasNode m = false := by
  refine Bool.eq_false_iff.mpr fun node => ?_
  obtain ⟨a, mem, k, on, above⟩ := hasNode_ofSelections.mp node
  rcases Member.eq_or_above_of_prefix above with same | higher
  · have told := orderly.told b (by simp) a (List.mem_append_left _ mem) m k target on same
    exact fresh a mem (by rw [on, target, told])
  · exact (List.pairwise_append.mp orderly.descending).2.2 a mem b (List.mem_singleton_self b) k m on
      target higher

/-- The node of a member stands for that member if actions go from the top down. -/
theorem mem_nodes_ofSelections (orderly : Orderly as) (mem : a ∈ as)
    (target : a.target = .member m) : ∃ o, (m, o) ∈ (ofSelections as).overrides.nodes := by
  induction as using List.reverseRecOn generalizing a with
  | nil => cases mem
  | append_singleton as b ih =>
    have before := orderly.sublist (List.sublist_append_left as [b])
    rw [ofSelections_concat]
    have kept : ∀ o, (m, o) ∈ (ofSelections as).overrides.nodes →
        ∃ o, (m, o) ∈ ((ofSelections as).apply b).overrides.nodes := by
      intro o node
      obtain ⟨sign, operator, k | l⟩ := b
      · exact Forest.exists_mem_nodes_upsert node
      · exact ⟨o, node⟩
    by_cases known : ∃ d ∈ as, d.target = .member m
    · obtain ⟨d, earlier, same⟩ := known
      obtain ⟨o, node⟩ := ih before earlier same
      exact kept o node
    · obtain rfl : a = b := by
        rcases List.mem_append.mp mem with earlier | final
        · exact absurd ⟨a, earlier, target⟩ known
        · exact List.mem_singleton.mp final
      have fresh : ∀ d ∈ as, d.target ≠ a.target :=
        fun d earlier same => known ⟨d, earlier, same.trans target⟩
      have absent := hasNode_ofSelections_eq_false orderly target fresh
      rw [hasNode_eq, Option.isSome_eq_false_iff, Option.isNone_iff_eq_none] at absent
      obtain ⟨sign, operator, k | l⟩ := a
      · obtain rfl := SelectionTarget.member.inj target
        exact Forest.exists_mem_nodes_upsert_self k.getLast?_pathFromRoot absent
      · cases target

/-- A further action leaves the numbers of the targets before it. -/
theorem number_ofSelections_concat (orderly : Orderly (as ++ [b])) (mem : a ∈ as) :
    (ofSelections (as ++ [b])).number a.target = (ofSelections as).number a.target := by
  rw [ofSelections_concat]
  cases target : a.target with
  | member m => exact number_apply_of_hasNode b (hasNode_ofSelections_of_mem mem target)
  | level k =>
    have apart := (List.pairwise_append.mp orderly.levels).2.2 a mem b (List.mem_singleton_self b)
    obtain ⟨sign, operator, n | l⟩ := b
    · rfl
    · exact number_applyLevel_of_ne _ sign (apart k l target rfl)

/-- A target that was not there before gets a new number. -/
theorem le_number_ofSelections_concat (orderly : Orderly (as ++ [b]))
    (fresh : ∀ a ∈ as, a.target ≠ b.target) :
    (ofSelections as).nextSequence ≤ (ofSelections (as ++ [b])).number b.target := by
  rw [ofSelections_concat]
  cases target : b.target with
  | member m =>
    have absent := hasNode_ofSelections_eq_false orderly target fresh
    obtain ⟨sign, operator, k | l⟩ := b
    · obtain rfl := SelectionTarget.member.inj target
      exact le_number_applyMember sign operator absent
    · cases target
  | level l =>
    obtain ⟨sign, operator, m | k⟩ := b
    · cases target
    · obtain rfl := SelectionTarget.level.inj target
      exact Nat.le_of_eq (number_applyLevel_self _ sign k).symm

/-- Actions that come in the order of a key number their targets in that order. -/
theorem number_ofSelections_lt (orderly : Orderly as) {key : SelectionTarget → Nat}
    (sorted : as.Pairwise fun a b => key a.target ≤ key b.target)
    (left : a ∈ as) (right : b ∈ as) (less : key a.target < key b.target) :
    (ofSelections as).number a.target < (ofSelections as).number b.target := by
  induction as using List.reverseRecOn generalizing a b with
  | nil => exact absurd left List.not_mem_nil
  | append_singleton as c ih =>
    have before := orderly.sublist (List.sublist_append_left as [c])
    obtain ⟨early, -, last⟩ := List.pairwise_append.mp sorted
    have earlier : a ∈ as := by
      rcases List.mem_append.mp left with earlier | final
      · exact earlier
      · obtain rfl := List.mem_singleton.mp final
        rcases List.mem_append.mp right with earlier | final
        · exact absurd less (Nat.not_lt.mpr (last b earlier a final))
        · rw [List.mem_singleton.mp final] at less
          exact absurd less (Nat.lt_irrefl _)
    rw [number_ofSelections_concat orderly earlier]
    by_cases known : ∃ d ∈ as, d.target = b.target
    · obtain ⟨d, mem, same⟩ := known
      rw [← same] at less ⊢
      rw [number_ofSelections_concat orderly mem]
      exact ih before early earlier mem less
    · have fresh : ∀ d ∈ as, d.target ≠ b.target := fun d mem same => known ⟨d, mem, same⟩
      obtain rfl : b = c := by
        rcases List.mem_append.mp right with later | final
        · exact absurd rfl (fresh b later)
        · exact List.mem_singleton.mp final
      exact Nat.lt_of_lt_of_le ((grown_ofSelections as).number_lt _)
        (le_number_ofSelections_concat orderly fresh)

end SelectionTree
end CubeAxis
