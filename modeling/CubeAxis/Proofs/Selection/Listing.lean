import CubeAxis.Proofs.Selection.Numbers
import CubeAxis.Proofs.Sorting
import CubeAxis.Selection.Replay

namespace CubeAxis
namespace Forest

theorem numberedSelections_eq (f : Forest Override) : f.numberedSelections =
    f.nodes.flatMap fun p => (p.2.state.selections p.1).map (p.2.sequence, ·) := by
  induction f with
  | nil => rfl
  | cons m o children siblings ihBelow ihBeside =>
    simp [numberedSelections, nodes, ihBelow, ihBeside]

/-- The names on the path to a node are those on the path to its member. -/
def trail : Rule (List String) where
  allows names m := m.names = names ++ [m.uniqueName]
  below _ m := m.names

theorem trail_faithful : trail.Faithful := by
  intro names a b left right same
  change a.names = b.names
  rw [left, right, Member.beq_iff.mp same]

theorem follows_trail (m : Member) :
    trail.Follows [] m.pathFromRoot ∧ trail.after [] m.pathFromRoot = m.names := by
  induction m with
  | root g n l => exact ⟨⟨Member.names_of_no_parent rfl, trivial⟩, rfl⟩
  | child p n l ih =>
    obtain ⟨path, last⟩ := ih
    rw [Member.pathFromRoot_of_parent? (p := p) rfl, Rule.follows_append, Rule.after_append, last]
    exact ⟨⟨path, Member.names_of_parent? rfl, trivial⟩, rfl⟩

section

variable {α : Type} {f : Forest α} {names : List String} {m : Member} {v : α}

/-- A node is found by the names on the path to its member. -/
theorem value?_of_mem_nodes (named : f.Obeys trail (fun _ _ => True) names) (apart : f.Apart)
    (mem : (m, v) ∈ f.nodes) : ∃ l ∈ f.labels, ∃ path,
      m.names = names ++ (l :: path).map Member.uniqueName ∧ f.value? (l :: path) = some v := by
  induction f generalizing names with
  | nil => exact absurd mem List.not_mem_nil
  | cons k w children siblings ihBelow ihBeside =>
    obtain ⟨own, -, -, below, beside⟩ := named
    obtain ⟨different, apartBelow, apartBeside⟩ := apart
    rcases List.mem_cons.mp mem with first | later
    · cases first
      exact ⟨m, List.mem_cons_self, [], own, by simp [value?_cons]⟩
    · rcases List.mem_append.mp later with lower | further
      · obtain ⟨l, _, path, whole, found⟩ := ihBelow below apartBelow lower
        refine ⟨k, List.mem_cons_self, l :: path, ?_, by simpa [value?_cons] using found⟩
        change m.names = k.names ++ (l :: path).map Member.uniqueName at whole
        have step : k.names = names ++ [k.uniqueName] := own
        rw [whole, step, List.append_assoc]
        rfl
      · obtain ⟨l, label, path, whole, found⟩ := ihBeside beside apartBeside further
        refine ⟨l, List.mem_cons_of_mem _ label, path, whole, ?_⟩
        rw [value?_cons, different l label, found]
        rfl

theorem exists_node_of_value? (named : f.Obeys trail (fun _ _ => True) names) {path : List Member}
    (found : f.value? path = some v) :
    ∃ k, (k, v) ∈ f.nodes ∧ k.names = names ++ path.map Member.uniqueName := by
  induction f generalizing names path with
  | nil => cases found
  | cons k w children siblings ihBelow ihBeside =>
    obtain ⟨own, -, -, below, beside⟩ := named
    rcases path with _ | ⟨a, path⟩
    · cases found
    · rw [value?_cons] at found
      split at found
      · rename_i here
        have step : k.names = names ++ [a.uniqueName] := Member.beq_iff.mp here ▸ own
        split at found
        · rename_i empty
          obtain rfl := List.isEmpty_iff.mp empty
          cases found
          exact ⟨k, List.mem_cons_self, step⟩
        · obtain ⟨c, mem, whole⟩ := ihBelow below found
          refine ⟨c, List.mem_cons_of_mem _ (List.mem_append_left _ mem), ?_⟩
          change c.names = k.names ++ _ at whole
          rw [whole, step, List.append_assoc]
          rfl
      · obtain ⟨c, mem, whole⟩ := ihBeside beside found
        exact ⟨c, List.mem_cons_of_mem _ (List.mem_append_right _ mem), whole⟩

end

end Forest

/-- Where an action stands among those that record the state of one node. -/
def Operator.rank : Operator → Nat
  | descendants => 0
  | member | memberAndChildren => 1
  | children | ancestors | siblings => 2

/-- Whether the action is on the member, told by the names on its path. -/
def Selection.isOn (m : Member) (a : Selection) : Bool :=
  match a.target with
  | .member k => k.names == m.names
  | .level _ => false

theorem Selection.isOn_iff {m : Member} {a : Selection} :
    a.isOn m = true ↔ ∃ k, a.target = .member k ∧ k.names = m.names := by
  obtain ⟨sign, operator, k | l⟩ := a <;> simp [isOn]

namespace SelectionState

variable {st : SelectionState} {m : Member} {a : Selection}

/-- The state has what an action of the sign and the operator records. -/
def Records (st : SelectionState) (s : Sign) : Operator → Prop
  | .member => st.member = some s
  | .children => st.children = some s
  | .memberAndChildren => st.member = some s ∧ st.children = some s
  | .descendants => st.descendants = some s
  | .ancestors | .siblings => False

theorem records_of_mem_selections (mem : a ∈ st.selections m) :
    a.target = .member m ∧ st.Records a.sign a.operator := by
  simp only [selections, List.mem_append, Option.mem_toList, Option.map_eq_some_iff] at mem
  rcases mem with ⟨s, subtree, rfl⟩ | own
  · exact ⟨rfl, subtree⟩
  · split at own
    · rename_i same
      obtain ⟨s, both, rfl⟩ := by simpa using own
      exact ⟨rfl, both, same ▸ both⟩
    · simp only [List.mem_append, Option.mem_toList, Option.map_eq_some_iff] at own
      rcases own with ⟨s, member, rfl⟩ | ⟨s, children, rfl⟩
      · exact ⟨rfl, member⟩
      · exact ⟨rfl, children⟩

theorem target_of_mem_selections (mem : a ∈ st.selections m) : a.target = .member m :=
  (records_of_mem_selections mem).1

theorem eq_of_selections_eq_nil (none : st.selections m = []) : st = {} := by
  obtain ⟨member, children, descendants⟩ := st
  cases member <;> cases children <;> cases descendants <;>
    simp only [selections, Selection.onMember] at none <;> split at none <;> simp_all

theorem pairwise_selections (st : SelectionState) (m : Member) :
    (st.selections m).Pairwise fun a b => a.operator.rank < b.operator.rank := by
  obtain ⟨member, children, descendants⟩ := st
  cases member <;> cases children <;> cases descendants <;>
    simp only [selections, Selection.onMember] <;> split <;> simp_all [Operator.rank]

end SelectionState

/-- A list of actions that goes from the top down, has one member for the same names, and
gives each level one sign at most. -/
structure Orderly (as : List Selection) : Prop where
  told : ∀ a ∈ as, ∀ b ∈ as, ∀ m k, a.target = .member m → b.target = .member k →
    m.names = k.names → m = k
  descending : as.Pairwise fun a b =>
    ∀ m k, a.target = .member m → b.target = .member k → ¬ k.Above m
  levels : as.Pairwise fun a b =>
    ∀ k l, a.target = .level k → b.target = .level l → (k == l) = false

theorem Orderly.sublist {as bs : List Selection} (orderly : Orderly as) (fewer : bs.Sublist as) :
    Orderly bs :=
  ⟨fun a left b right => orderly.told a (fewer.subset left) b (fewer.subset right),
    orderly.descending.sublist fewer, orderly.levels.sublist fewer⟩

namespace SelectionTree

/-- The number of what an action is about: of the node of a member, or of the sign
of a level. -/
def number (t : SelectionTree) : SelectionTarget → Nat
  | .member m => (t.overrides.value? m.pathFromRoot).elim 0 (·.sequence)
  | .level l => (t.levels.find? (·.level == l)).elim 0 (·.sequence)

/-- The order of listed actions. -/
def Precedes (t : SelectionTree) : Selection → Selection → Prop :=
  Ranked (fun a => t.number a.target) fun a b => a.operator.rank < b.operator.rank

theorem Precedes.asymm {t : SelectionTree} {a b : Selection} (before : t.Precedes a b) :
    ¬ t.Precedes b a := by
  intro after
  rcases before with less | ⟨same, less⟩ <;> rcases after with less' | ⟨same', less'⟩ <;>
    dsimp only at * <;> omega

theorem Precedes.number_le {t : SelectionTree} {a b : Selection} (before : t.Precedes a b) :
    t.number a.target ≤ t.number b.target :=
  before.elim Nat.le_of_lt fun same => Nat.le_of_eq same.1

variable {t : SelectionTree} {a b : Selection} {k l m : Member} {o : Override}

theorem mem_numberedSelections {n : Nat} : (n, a) ∈ t.numberedSelections ↔
    (∃ m o, (m, o) ∈ t.overrides.nodes ∧ n = o.sequence ∧ a ∈ o.state.selections m) ∨
      ∃ o ∈ t.levels, n = o.sequence ∧ a = .onLevel o.sign o.level := by
  simp only [numberedSelections, Forest.numberedSelections_eq, List.mem_append, List.mem_flatMap,
    List.mem_map, Prod.exists, Prod.mk.injEq]
  refine or_congr ⟨?_, ?_⟩ ⟨?_, ?_⟩
  · rintro ⟨m, o, node, b, listed, rfl, rfl⟩
    exact ⟨m, o, node, rfl, listed⟩
  · rintro ⟨m, o, node, rfl, listed⟩
    exact ⟨m, o, node, a, listed, rfl, rfl⟩
  · rintro ⟨o, listed, rfl, rfl⟩
    exact ⟨o, listed, rfl, rfl⟩
  · rintro ⟨o, listed, rfl, rfl⟩
    exact ⟨o, listed, rfl, rfl⟩

theorem mem_selections : a ∈ t.selections ↔ ∃ n, (n, a) ∈ t.numberedSelections := by
  simp only [selections, List.mem_map, Prod.exists, exists_eq_right, mem_sortBy]

theorem Numbered.find?_level (numbered : t.Numbered) {o : LevelOverride} (listed : o ∈ t.levels) :
    t.levels.find? (·.level == o.level) = some o := by
  have apart := numbered.levels
  generalize t.levels = levels at listed apart
  induction levels with
  | nil => exact absurd listed List.not_mem_nil
  | cons v levels ih =>
    obtain ⟨ahead, rest⟩ := List.pairwise_cons.mp apart
    rcases List.mem_cons.mp listed with rfl | later
    · exact List.find?_cons_of_pos BEq.rfl
    · rw [List.find?_cons_of_neg (by simp [ahead o later]), ih later rest]

theorem levelSign_eq_some_iff (numbered : t.Numbered) {l : Level} {s : Sign} :
    t.levelSign l = some s ↔ ∃ o ∈ t.levels, (o.level == l) = true ∧ o.sign = s := by
  rw [levelSign, Option.map_eq_some_iff]
  constructor
  · rintro ⟨o, found, same⟩
    have here := List.find?_some found
    exact ⟨o, List.mem_of_find?_eq_some found, here, same⟩
  · rintro ⟨o, listed, here, same⟩
    refine ⟨o, ?_, same⟩
    simp only [← BEq.congr_right here, numbered.find?_level listed]

theorem mem_selections_iff : a ∈ t.selections ↔
    (∃ m o, (m, o) ∈ t.overrides.nodes ∧ a ∈ o.state.selections m) ∨
      ∃ o ∈ t.levels, a = .onLevel o.sign o.level := by
  simp only [mem_selections, mem_numberedSelections, exists_or]
  refine or_congr ⟨?_, ?_⟩ ⟨?_, ?_⟩
  · rintro ⟨_, m, o, node, -, own⟩
    exact ⟨m, o, node, own⟩
  · rintro ⟨m, o, node, own⟩
    exact ⟨_, m, o, node, rfl, own⟩
  · rintro ⟨_, o, level, -, same⟩
    exact ⟨o, level, same⟩
  · rintro ⟨o, level, same⟩
    exact ⟨_, o, level, rfl, same⟩

theorem exists_level_of_mem_selections {l : Level} (listed : a ∈ t.selections)
    (target : a.target = .level l) : ∃ o ∈ t.levels, a = .onLevel o.sign o.level := by
  rcases mem_selections_iff.mp listed with ⟨m, _, _, own⟩ | level
  · cases (SelectionState.target_of_mem_selections own).symm.trans target
  · exact level

/-- The node of a member on which an action is listed. -/
theorem exists_node_of_mem_selections (listed : a ∈ t.selections) (target : a.target = .member m) :
    ∃ o, (m, o) ∈ t.overrides.nodes ∧ a ∈ o.state.selections m := by
  rcases mem_selections_iff.mp listed with ⟨k, o, node, own⟩ | ⟨o, level, rfl⟩
  · obtain rfl := SelectionTarget.member.inj
      ((SelectionState.target_of_mem_selections own).symm.trans target)
    exact ⟨o, node, own⟩
  · cases target

theorem exists_level_selections_iff {l : Level} {s : Sign} :
    (∃ a ∈ t.selections, a.target = .level l ∧ a.sign = s) ↔
      ∃ o ∈ t.levels, o.level = l ∧ o.sign = s := by
  constructor
  · rintro ⟨a, listed, target, rfl⟩
    obtain ⟨o, level, rfl⟩ := exists_level_of_mem_selections listed target
    exact ⟨o, level, SelectionTarget.level.inj target, rfl⟩
  · rintro ⟨o, level, rfl, rfl⟩
    exact ⟨_, mem_selections_iff.mpr (Or.inr ⟨o, level, rfl⟩), rfl, rfl⟩

section

variable (grown : t.Grown)

include grown

theorem Grown.named : t.overrides.Obeys Forest.trail (fun _ _ => True) [] ∧ t.overrides.Apart := by
  induction grown with
  | empty => exact ⟨trivial, trivial⟩
  | @apply t a _ ih =>
    obtain ⟨named, apart⟩ := ih
    obtain ⟨sign, operator, m | l⟩ := a
    · obtain ⟨follows, _⟩ := Forest.follows_trail m
      refine ⟨?_, apart.upsert⟩
      exact named.upsert Forest.trail_faithful (fun _ _ => trivial) follows fun _ _ => trivial
    · exact ⟨named, apart⟩
  | clear _ _ => exact ⟨trivial, trivial⟩

theorem Grown.value?_of_mem_nodes (node : (m, o) ∈ t.overrides.nodes) :
    t.overrides.value? m.pathFromRoot = some o := by
  obtain ⟨named, apart⟩ := grown.named
  obtain ⟨l, _, path, whole, found⟩ := Forest.value?_of_mem_nodes named apart node
  rw [← found]
  exact Forest.value?_congr whole _

theorem Grown.stateOf_of_mem_nodes (node : (m, o) ∈ t.overrides.nodes) : t.stateOf m = o.state := by
  rw [stateOf, grown.value?_of_mem_nodes node]
  rfl

theorem Grown.exists_node (found : t.overrides.value? m.pathFromRoot = some o) :
    ∃ k, (k, o) ∈ t.overrides.nodes ∧ k.names = m.names :=
  Forest.exists_node_of_value? grown.named.1 found

/-- Nodes whose members have the same names are one node. -/
theorem Grown.eq_of_names {v : Override} (left : (k, o) ∈ t.overrides.nodes)
    (right : (l, v) ∈ t.overrides.nodes) (same : k.names = l.names) : k = l ∧ o = v := by
  have values : some o = some v := by
    rw [← grown.value?_of_mem_nodes left, ← grown.value?_of_mem_nodes right,
      Forest.value?_congr same]
  have numbers := (List.nodup_append.mp grown.numbered.once).1
  exact Prod.mk.inj (List.inj_on_of_nodup_map numbers left right
    (congrArg Override.sequence (Option.some.inj values)))

theorem Grown.number_eq {n : Nat} (listed : (n, a) ∈ t.numberedSelections) :
    t.number a.target = n := by
  rcases mem_numberedSelections.mp listed with ⟨m, o, node, rfl, own⟩ | ⟨o, level, rfl, rfl⟩
  · rw [SelectionState.target_of_mem_selections own, number, grown.value?_of_mem_nodes node]
    rfl
  · rw [Selection.onLevel, number, grown.numbered.find?_level level]
    rfl

/-- A number tells what an action is about. -/
theorem Grown.target_eq_of_number_eq (left : a ∈ t.selections) (right : b ∈ t.selections)
    (same : t.number a.target = t.number b.target) : a.target = b.target := by
  obtain ⟨n, left⟩ := mem_selections.mp left
  obtain ⟨k, right⟩ := mem_selections.mp right
  rw [grown.number_eq left, grown.number_eq right] at same
  obtain ⟨nodes, levels, apart⟩ := List.nodup_append.mp grown.numbered.once
  rcases mem_numberedSelections.mp left with ⟨m, o, node, rfl, own⟩ | ⟨o, level, rfl, rfl⟩ <;>
    rcases mem_numberedSelections.mp right with ⟨l, v, node', rfl, own'⟩ | ⟨v, level', rfl, rfl⟩
  · obtain ⟨rfl, -⟩ := Prod.mk.inj (List.inj_on_of_nodup_map nodes node node' same)
    rw [SelectionState.target_of_mem_selections own, SelectionState.target_of_mem_selections own']
  · exact absurd same (apart _ (List.mem_map_of_mem node) _ (List.mem_map_of_mem level'))
  · exact absurd same.symm (apart _ (List.mem_map_of_mem node') _ (List.mem_map_of_mem level))
  · rw [List.inj_on_of_nodup_map levels level level' same]

/-- The listed actions are in the order of the numbers, those of one node in the
order of their operators. -/
theorem Grown.pairwise_selections : t.selections.Pairwise t.Precedes := by
  have once := grown.numbered.once
  rw [List.nodup_append] at once
  obtain ⟨nodes, levels, apart⟩ := once
  have given : t.numberedSelections.Pairwise fun p q =>
      p.1 = q.1 → p.2.operator.rank < q.2.operator.rank := by
    rw [numberedSelections, Forest.numberedSelections_eq]
    refine List.pairwise_append.mpr ⟨List.pairwise_flatMap.mpr ⟨fun p _ => ?_, ?_⟩, ?_, ?_⟩
    · refine List.pairwise_map.mpr ((p.2.state.pairwise_selections p.1).imp ?_)
      exact fun less _ => less
    · refine (List.pairwise_map.mp nodes).imp fun different p left q right same => ?_
      obtain ⟨_, _, rfl⟩ := List.mem_map.mp left
      obtain ⟨_, _, rfl⟩ := List.mem_map.mp right
      exact absurd same different
    · exact List.pairwise_map.mpr ((List.pairwise_map.mp levels).imp fun different same =>
        absurd same different)
    · intro p left q right same
      obtain ⟨node, listed, own⟩ := List.mem_flatMap.mp left
      obtain ⟨_, _, rfl⟩ := List.mem_map.mp own
      obtain ⟨o, level, rfl⟩ := List.mem_map.mp right
      exact absurd same
        (apart _ (List.mem_map.mpr ⟨node, listed, rfl⟩) _ (List.mem_map.mpr ⟨o, level, rfl⟩))
  refine List.pairwise_map.mpr ((pairwise_sortBy given).imp_of_mem fun {p q} left right ranked => ?_)
  have first := grown.number_eq (mem_sortBy.mp left)
  have second := grown.number_eq (mem_sortBy.mp right)
  rw [Precedes, Ranked, first, second]
  exact ranked

theorem Grown.number_lt_of_above (left : a ∈ t.selections) (right : b ∈ t.selections)
    (lower : a.target = .member m) (upper : b.target = .member k) (above : k.Above m) :
    t.number b.target < t.number a.target := by
  obtain ⟨o, node, -⟩ := exists_node_of_mem_selections left lower
  obtain ⟨v, higher, -⟩ := exists_node_of_mem_selections right upper
  obtain ⟨x, line, same⟩ := above.exists_ancestor
  obtain ⟨rest, path⟩ := Member.pathFromRoot_of_mem_upward (Member.mem_upward_of_ancestors line)
  have more : rest ≠ [] := by
    rintro rfl
    have depths := congrArg List.length path
    simp only [List.append_nil, Member.length_pathFromRoot] at depths
    exact Nat.ne_of_gt (Member.depth_lt_of_mem_ancestors line) (Nat.succ.inj depths)
  have found := grown.value?_of_mem_nodes node
  have first := grown.value?_of_mem_nodes higher
  rw [← Forest.value?_congr same] at first
  have less := grown.numbered.rising.sequence_lt more first (path ▸ found)
  rw [lower, upper, number, number, found, ← Forest.value?_congr same, first]
  exact less

theorem Grown.orderly_selections : Orderly t.selections where
  told a left b right m k first second same := by
    obtain ⟨o, node, -⟩ := exists_node_of_mem_selections left first
    obtain ⟨v, node', -⟩ := exists_node_of_mem_selections right second
    exact (grown.eq_of_names node node' same).1
  descending := by
    refine grown.pairwise_selections.imp_of_mem fun {a b} left right before => ?_
    intro m k lower upper above
    exact Nat.not_le.mpr (grown.number_lt_of_above left right lower upper above) before.number_le
  levels := by
    refine grown.pairwise_selections.imp_of_mem fun {a b} left right before => ?_
    intro k l first second
    obtain ⟨o, _, rfl⟩ := exists_level_of_mem_selections left first
    obtain ⟨v, _, rfl⟩ := exists_level_of_mem_selections right second
    obtain rfl := SelectionTarget.level.inj first
    obtain rfl := SelectionTarget.level.inj second
    refine Bool.eq_false_iff.mpr fun same => ?_
    -- the numbers are those of one sign, and no other order tells levels apart
    have equal : t.number (.level o.level) = t.number (.level v.level) := by
      simp only [number, BEq.congr_right same]
    rcases before with less | ⟨_, less⟩
    · exact Nat.ne_of_lt less equal
    · exact Nat.lt_irrefl _ less

/-- The actions listed on the member of a node are those that record its state. -/
theorem Grown.filter_selections_of_node (node : (m, o) ∈ t.overrides.nodes) :
    t.selections.filter (·.isOn m) = o.state.selections m := by
  refine eq_of_mem_iff_of_pairwise (fun _ _ => Precedes.asymm)
    (grown.pairwise_selections.sublist List.filter_sublist) ?_ fun a => ?_
  · refine (o.state.pairwise_selections m).imp_of_mem fun {a b} left right less => ?_
    rw [Precedes, Ranked, SelectionState.target_of_mem_selections left,
      SelectionState.target_of_mem_selections right]
    exact Or.inr ⟨rfl, less⟩
  · rw [List.mem_filter, Selection.isOn_iff]
    constructor
    · rintro ⟨listed, k, target, same⟩
      obtain ⟨v, node', own⟩ := exists_node_of_mem_selections listed target
      obtain ⟨rfl, rfl⟩ := grown.eq_of_names node' node same
      exact own
    · intro own
      exact ⟨mem_selections_iff.mpr (Or.inl ⟨m, o, node, own⟩), m,
        SelectionState.target_of_mem_selections own, rfl⟩

/-- The actions listed on a member are those that record its state, on the member that
stands on the node. -/
theorem Grown.filter_selections (m : Member) :
    ∃ k, k.names = m.names ∧ t.selections.filter (·.isOn m) = (t.stateOf m).selections k := by
  cases found : t.overrides.value? m.pathFromRoot with
  | none =>
    refine ⟨m, rfl, ?_⟩
    rw [stateOf, found]
    refine List.filter_eq_nil_iff.mpr fun a listed on => ?_
    obtain ⟨k, target, same⟩ := Selection.isOn_iff.mp on
    obtain ⟨o, node, -⟩ := exists_node_of_mem_selections listed target
    rw [← Forest.value?_congr same, grown.value?_of_mem_nodes node] at found
    cases found
  | some o =>
    obtain ⟨k, node, same⟩ := grown.exists_node found
    refine ⟨k, same, ?_⟩
    have on : Selection.isOn m = Selection.isOn k := by
      funext a
      rw [Selection.isOn, Selection.isOn, same]
    rw [on, grown.filter_selections_of_node node, stateOf, found]
    rfl

end

end SelectionTree
end CubeAxis
