import CubeAxis.Member

namespace CubeAxis.Member

theorem upward_eq (m : Member) : m.upward = m :: m.ancestors := by
  cases m <;> rfl

theorem mem_upward_self (m : Member) : m ∈ m.upward := by
  rw [upward_eq]
  exact List.mem_cons_self

theorem mem_upward_iff {a m : Member} : a ∈ m.upward ↔ a = m ∨ a ∈ m.ancestors := by
  rw [upward_eq, List.mem_cons]

theorem mem_upward_of_ancestors {a m : Member} (above : a ∈ m.ancestors) : a ∈ m.upward :=
  mem_upward_iff.mpr (Or.inr above)

theorem eq_child_of_parent? {m p : Member} (parent : m.parent? = some p) :
    ∃ name level, m = .child p name level := by
  cases m with
  | root => cases parent
  | child q n l =>
    cases parent
    exact ⟨n, l, rfl⟩

theorem eq_root_of_no_parent {m : Member} (parent : m.parent? = none) :
    ∃ hierarchy name level, m = .root hierarchy name level := by
  cases m with
  | root h n l => exact ⟨h, n, l, rfl⟩
  | child => cases parent

theorem ancestors_of_parent? {m p : Member} (parent : m.parent? = some p) :
    m.ancestors = p.upward := by
  obtain ⟨n, l, rfl⟩ := eq_child_of_parent? parent
  rfl

theorem ancestors_of_no_parent {m : Member} (parent : m.parent? = none) : m.ancestors = [] := by
  obtain ⟨h, n, l, rfl⟩ := eq_root_of_no_parent parent
  rfl

theorem hierarchy_of_parent? {m p : Member} (parent : m.parent? = some p) :
    m.hierarchy = p.hierarchy := by
  obtain ⟨n, l, rfl⟩ := eq_child_of_parent? parent
  rfl

theorem depth_of_parent? {m p : Member} (parent : m.parent? = some p) : m.depth = p.depth + 1 := by
  obtain ⟨n, l, rfl⟩ := eq_child_of_parent? parent
  rfl

theorem depth_of_no_parent {m : Member} (parent : m.parent? = none) : m.depth = 0 := by
  obtain ⟨h, n, l, rfl⟩ := eq_root_of_no_parent parent
  rfl

theorem exists_parent_of_mem_ancestors {a m : Member} (above : a ∈ m.ancestors) :
    ∃ p, m.parent? = some p ∧ a ∈ p.upward := by
  cases m with
  | root => simp [ancestors] at above
  | child p n l => exact ⟨p, rfl, above⟩

/-- What holds of a member and from its parent up holds from the member up. -/
theorem forall_mem_upward {P : Member → Prop} {m : Member} (self : P m)
    (above : ∀ p, m.parent? = some p → ∀ a ∈ p.upward, P a) : ∀ a ∈ m.upward, P a := by
  intro a higher
  rcases mem_upward_iff.mp higher with rfl | strict
  · exact self
  · obtain ⟨p, link, atop⟩ := exists_parent_of_mem_ancestors strict
    exact above p link a atop

theorem parent_mem_ancestors {m p : Member} (parent : m.parent? = some p) : p ∈ m.ancestors := by
  rw [ancestors_of_parent? parent]
  exact mem_upward_self p

theorem depth_le_of_mem_upward {a m : Member} (above : a ∈ m.upward) : a.depth ≤ m.depth := by
  induction m with
  | root => simp_all [upward]
  | child p n l ih =>
    rcases List.mem_cons.mp above with rfl | higher
    · exact Nat.le_refl _
    · exact Nat.le_succ_of_le (ih higher)

theorem depth_lt_of_mem_ancestors {a m : Member} (above : a ∈ m.ancestors) : a.depth < m.depth := by
  obtain ⟨p, parent, higher⟩ := exists_parent_of_mem_ancestors above
  have bound := depth_le_of_mem_upward higher
  rw [depth_of_parent? parent]
  omega

theorem not_mem_ancestors_of_upward {a m : Member} (above : a ∈ m.upward) : m ∉ a.ancestors :=
  fun deeper => Nat.not_lt.mpr (depth_le_of_mem_upward above) (depth_lt_of_mem_ancestors deeper)

theorem mem_upward_trans {a b m : Member} (first : a ∈ b.upward) (second : b ∈ m.upward) :
    a ∈ m.upward := by
  induction m with
  | root =>
    obtain rfl := List.mem_singleton.mp second
    exact first
  | child p n l ih =>
    rcases List.mem_cons.mp second with rfl | higher
    · exact first
    · exact List.mem_cons_of_mem _ (ih higher)

theorem mem_ancestors_trans {a b m : Member} (first : a ∈ b.upward) (second : b ∈ m.ancestors) :
    a ∈ m.ancestors := by
  obtain ⟨p, parent, higher⟩ := exists_parent_of_mem_ancestors second
  rw [ancestors_of_parent? parent]
  exact mem_upward_trans first higher

theorem mem_ancestors_of_lt {a m : Member} (above : a ∈ m.upward) (lower : a.depth < m.depth) :
    a ∈ m.ancestors := by
  rcases mem_upward_iff.mp above with rfl | higher
  · exact absurd lower (Nat.lt_irrefl _)
  · exact higher

/-- The members above one member form a chain, the shallower ones above the deeper ones. -/
theorem mem_upward_of_depth_le {a b m : Member} (first : a ∈ m.upward) (second : b ∈ m.upward)
    (bound : a.depth ≤ b.depth) : a ∈ b.upward := by
  induction m with
  | root =>
    obtain rfl := List.mem_singleton.mp second
    exact first
  | child p n l ih =>
    rcases List.mem_cons.mp second with rfl | higher
    · exact first
    · rcases List.mem_cons.mp first with rfl | alsoHigher
      · have deeper := depth_le_of_mem_upward higher
        simp only [depth] at bound
        omega
      · exact ih alsoHigher higher

theorem eq_of_mem_upward_of_depth {a b m : Member} (first : a ∈ m.upward) (second : b ∈ m.upward)
    (same : a.depth = b.depth) : a = b := by
  have above := mem_upward_of_depth_le first second (Nat.le_of_eq same)
  rcases mem_upward_iff.mp above with equal | strict
  · exact equal
  · have := depth_lt_of_mem_ancestors strict
    omega

theorem mem_ancestors_of_upward {a b m : Member} (first : a ∈ b.ancestors) (second : b ∈ m.upward) :
    a ∈ m.ancestors := by
  refine mem_ancestors_of_lt (mem_upward_trans (mem_upward_of_ancestors first) second) ?_
  exact Nat.lt_of_lt_of_le (depth_lt_of_mem_ancestors first) (depth_le_of_mem_upward second)

theorem exists_mem_upward_of_depth {m : Member} {d : Nat} (bound : d ≤ m.depth) :
    ∃ a ∈ m.upward, a.depth = d := by
  induction m with
  | root h n l => exact ⟨_, mem_upward_self _, (Nat.le_zero.mp bound).symm⟩
  | child p n l ih =>
    rcases Nat.lt_or_eq_of_le bound with less | rfl
    · obtain ⟨a, above, level⟩ := ih (Nat.le_of_lt_succ less)
      exact ⟨a, List.mem_cons_of_mem _ above, level⟩
    · exact ⟨_, mem_upward_self _, rfl⟩

theorem parent?_eq_some_iff {m p : Member} :
    m.parent? = some p ↔ p ∈ m.upward ∧ m.depth = p.depth + 1 := by
  constructor
  · intro parent
    exact ⟨mem_upward_of_ancestors (parent_mem_ancestors parent), depth_of_parent? parent⟩
  · intro given
    obtain ⟨above, step⟩ := given
    obtain ⟨q, parent, higher⟩ :=
      exists_parent_of_mem_ancestors (mem_ancestors_of_lt above (by omega))
    have same := depth_of_parent? parent
    rw [parent, eq_of_mem_upward_of_depth (mem_upward_self q) higher (by omega)]

theorem parent?_eq_none_iff {m : Member} : m.parent? = none ↔ m.depth = 0 := by
  cases m <;> simp [parent?, depth]

theorem ancestorAt?_eq_some_iff {a m : Member} {d : Nat} :
    m.ancestorAt? d = some a ↔ a ∈ m.upward ∧ a.depth = d := by
  have sound : ∀ b, m.ancestorAt? d = some b → b ∈ m.upward ∧ b.depth = d := by
    intro b found
    unfold ancestorAt? at found
    have level := List.find?_some found
    exact ⟨List.mem_of_find?_eq_some found, beq_iff_eq.mp level⟩
  refine ⟨sound a, ?_⟩
  intro given
  obtain ⟨above, level⟩ := given
  cases found : m.ancestorAt? d with
  | none => exact absurd (beq_iff_eq.mpr level) (List.find?_eq_none.mp found a above)
  | some b =>
    obtain ⟨above', level'⟩ := sound b found
    rw [eq_of_mem_upward_of_depth above' above (level'.trans level.symm)]

theorem pathFromRoot_of_parent? {m p : Member} (parent : m.parent? = some p) :
    m.pathFromRoot = p.pathFromRoot ++ [m] := by
  rw [pathFromRoot, upward_eq, ancestors_of_parent? parent, List.reverse_cons]
  rfl

theorem pathFromRoot_of_no_parent {m : Member} (parent : m.parent? = none) :
    m.pathFromRoot = [m] := by
  rw [pathFromRoot, upward_eq, ancestors_of_no_parent parent]
  rfl

theorem mem_pathFromRoot {a m : Member} : a ∈ m.pathFromRoot ↔ a ∈ m.upward :=
  List.mem_reverse

theorem pathFromRoot_ne_nil (m : Member) : m.pathFromRoot ≠ [] := by
  intro empty
  have inside := mem_pathFromRoot.mpr (mem_upward_self m)
  rw [empty] at inside
  exact List.not_mem_nil inside

theorem length_pathFromRoot (m : Member) : m.pathFromRoot.length = m.depth + 1 := by
  induction m with
  | root => rfl
  | child p n l ih =>
    rw [pathFromRoot_of_parent? (p := p) rfl, List.length_append, ih]
    rfl

/-- A path runs through every member above its end. -/
theorem pathFromRoot_of_mem_upward {a m : Member} (above : a ∈ m.upward) :
    ∃ rest, m.pathFromRoot = a.pathFromRoot ++ rest := by
  induction m with
  | root =>
    obtain rfl := List.mem_singleton.mp above
    exact ⟨[], (List.append_nil _).symm⟩
  | child p n l ih =>
    rcases List.mem_cons.mp above with rfl | higher
    · exact ⟨[], (List.append_nil _).symm⟩
    · obtain ⟨rest, path⟩ := ih higher
      refine ⟨rest ++ [child p n l], ?_⟩
      rw [pathFromRoot_of_parent? (p := p) rfl, path, List.append_assoc]

theorem uniqueName_lt_of_mem_ancestors {a m : Member} (above : a ∈ m.ancestors) :
    a.uniqueName.length < m.uniqueName.length := by
  induction m with
  | root => exact absurd above List.not_mem_nil
  | child p n l ih =>
    have shorter : p.uniqueName.length < (child p n l).uniqueName.length := parent?_uniqueName_lt rfl
    rcases mem_upward_iff.mp above with rfl | higher
    · exact shorter
    · exact Nat.lt_trans (ih higher) shorter

end CubeAxis.Member

namespace CubeAxis

/-- The path to the members below `parent`. -/
def pathTo (parent : Option Member) : List Member :=
  parent.elim [] Member.pathFromRoot

theorem Member.pathFromRoot_eq (m : Member) : m.pathFromRoot = pathTo m.parent? ++ [m] := by
  cases parent : m.parent? with
  | none => exact pathFromRoot_of_no_parent parent
  | some p => exact pathFromRoot_of_parent? parent

theorem Member.getLast?_pathFromRoot (m : Member) : m.pathFromRoot.getLast? = some m := by
  rw [pathFromRoot_eq, List.getLast?_concat]

namespace Member

variable {k m p : Member}

/-- The unique names on the path to a member. A tree finds its nodes by them. -/
def names (m : Member) : List String :=
  m.pathFromRoot.map uniqueName

theorem names_of_parent? (parent : m.parent? = some p) : m.names = p.names ++ [m.uniqueName] := by
  rw [names, pathFromRoot_of_parent? parent, List.map_append]
  rfl

theorem names_of_no_parent (parent : m.parent? = none) : m.names = [m.uniqueName] := by
  rw [names, pathFromRoot_of_no_parent parent]
  rfl

theorem length_names (m : Member) : m.names.length = m.depth + 1 := by
  rw [names, List.length_map, length_pathFromRoot]

theorem names_ne_nil (m : Member) : m.names ≠ [] :=
  fun none => m.pathFromRoot_ne_nil (List.map_eq_nil_iff.mp none)

/-- The first member stands above the second by name, wherever it comes from. -/
def Above (k m : Member) : Prop :=
  k.names <+: m.names ∧ k.depth < m.depth

theorem above_of_mem_ancestors (above : k ∈ m.ancestors) : k.Above m := by
  refine ⟨?_, depth_lt_of_mem_ancestors above⟩
  obtain ⟨rest, path⟩ := pathFromRoot_of_mem_upward (mem_upward_of_ancestors above)
  rw [names, names, path, List.map_append]
  exact List.prefix_append _ _

theorem depth_eq_of_names (same : k.names = m.names) : k.depth = m.depth := by
  have lengths := congrArg List.length same
  rw [length_names, length_names] at lengths
  exact Nat.succ.inj lengths

theorem eq_or_above_of_prefix (on : k.names <+: m.names) : k.names = m.names ∨ k.Above m := by
  have bound := on.length_le
  rw [length_names, length_names] at bound
  rcases Nat.lt_or_eq_of_le (Nat.succ_le_succ_iff.mp bound) with less | equal
  · exact Or.inr ⟨on, less⟩
  · exact Or.inl (on.eq_of_length (by rw [length_names, length_names, equal]))

/-- What stands at or above a member by name is a member on its line by name. -/
theorem exists_mem_upward_of_names (on : k.names <+: m.names) : ∃ a ∈ m.upward, a.names = k.names := by
  induction m with
  | root g n l =>
    rw [names_of_no_parent (m := root g n l) rfl] at on
    rcases List.prefix_cons_iff.mp on with none | ⟨rest, whole, tail⟩
    · exact absurd none k.names_ne_nil
    · obtain rfl := List.prefix_nil.mp tail
      refine ⟨root g n l, mem_upward_self _, ?_⟩
      rw [whole]
      exact names_of_no_parent rfl
  | child p n l ih =>
    rw [names_of_parent? (m := child p n l) rfl] at on
    rcases List.prefix_concat_iff.mp on with whole | part
    · refine ⟨child p n l, mem_upward_self _, ?_⟩
      rw [whole]
      exact names_of_parent? rfl
    · obtain ⟨a, above, same⟩ := ih part
      exact ⟨a, List.mem_cons_of_mem _ above, same⟩

theorem Above.exists_ancestor (above : k.Above m) : ∃ a ∈ m.ancestors, a.names = k.names := by
  obtain ⟨a, higher, same⟩ := exists_mem_upward_of_names above.1
  exact ⟨a, mem_ancestors_of_lt higher (depth_eq_of_names same ▸ above.2), same⟩

theorem Above.congr {l : Member} (above : k.Above m) (same : m.names = l.names) : k.Above l :=
  ⟨same ▸ above.1, depth_eq_of_names same ▸ above.2⟩

end Member
end CubeAxis
