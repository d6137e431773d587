import CubeAxis.Proofs.Segments

namespace CubeAxis

/-- A call on a builder. The parent may be any member at hand. -/
inductive BuilderCall where
  | add (parent? : Option Member) (name : String)
  | addPath (path : String)

namespace Hierarchy

variable {h g : Hierarchy} {m p q : Member} {calls : List BuilderCall}

/-- The builder after a call. One that fails on `add` changes nothing. -/
def perform (h : Hierarchy) : BuilderCall → Hierarchy
  | .add parent? name =>
    match h.add parent? name with
    | .ok (_, h') => h'
    | .error _ => h
  | .addPath path => (h.addPath path).2

def performAll (h : Hierarchy) (calls : List BuilderCall) : Hierarchy :=
  calls.foldl perform h

/-- The builders that calls lead to, each with parents from any builder. -/
inductive Assembled : Hierarchy → Prop
  | new (name : String) (levelNames : List String) : Assembled (.new name levelNames)
  | addRoot {h : Hierarchy} (name : String) : Assembled h → Assembled (h.perform (.add none name))
  | addBelow {h g : Hierarchy} (p : Member) (name : String) : Assembled h → Assembled g →
      p ∈ g.members → Assembled (h.perform (.add (some p) name))
  | addPath {h : Hierarchy} (path : String) : Assembled h → Assembled (h.perform (.addPath path))

/-- Every parent stands before its children and is found at its path. -/
def Closed (h : Hierarchy) : Prop :=
  ∀ (i : Nat) (m p : Member), h.members[i]? = some m → m.parent? = some p →
    ∃ j < i, ∃ q, h.members[j]? = some q ∧ (q == p) = true ∧ h.member p.path = .ok q

end Hierarchy

/-- The parent was given out by a builder. -/
def BuilderCall.Grounded : BuilderCall → Prop
  | .add parent? _ => ∀ p, parent? = some p → ∃ g : Hierarchy, g.Assembled ∧ p ∈ g.members
  | .addPath _ => True

/-- If the builder accepts the call, it has a member at the path of the parent. -/
def BuilderCall.Hosted (h : Hierarchy) : BuilderCall → Prop
  | .add parent? name => ∀ p, parent? = some p → (∃ m h', h.add parent? name = .ok (m, h')) →
      ∃ q ∈ h.members, q.path = p.path
  | .addPath _ => True

namespace Hierarchy

variable {h g : Hierarchy} {m p q : Member} {calls : List BuilderCall}

/-- All calls of a run are hosted, each by the builder as it is by then. -/
def Hosts (h : Hierarchy) : List BuilderCall → Prop
  | [] => True
  | call :: calls => call.Hosted h ∧ (h.perform call).Hosts calls

theorem perform_add_cases (h : Hierarchy) (parent? : Option Member) (name : String) :
    (∃ m, h.Adds parent? name m (h.perform (.add parent? name))) ∨
      (¬ ∃ m h', h.add parent? name = .ok (m, h')) ∧ h.perform (.add parent? name) = h := by
  rw [perform]
  cases added : h.add parent? name with
  | ok result =>
    obtain ⟨m, h'⟩ := result
    exact Or.inl ⟨m, add_eq_ok_iff.mp added⟩
  | error e =>
    refine Or.inr ⟨?_, rfl⟩
    rintro ⟨m, h', accepted⟩
    cases accepted

/-- All names up from the members are such as builders take. -/
structure Orderly (h : Hierarchy) : Prop extends h.Named where
  proper : ∀ m ∈ h.members, m.Proper

theorem Orderly.add {h h' : Hierarchy} {parent? : Option Member} {name : String} {m : Member}
    (orderly : h.Orderly) (parent : ∀ p, parent? = some p → p.Proper)
    (adds : h.Adds parent? name m h') : h'.Orderly := by
  refine ⟨orderly.toNamed.add adds, ?_⟩
  obtain ⟨_, named, ⟨level, _, rfl⟩, _, rfl⟩ := adds
  intro k inside
  rcases List.mem_append.mp inside with old | new
  · exact orderly.proper k old
  · obtain rfl := List.mem_singleton.mp new
    cases parent? with
    | none =>
      intro l only
      obtain rfl := List.mem_singleton.mp only
      exact named
    | some p =>
      intro l above
      rcases List.mem_cons.mp above with rfl | higher
      · exact named
      · exact parent p rfl l higher

theorem Assembled.orderly (assembled : h.Assembled) : h.Orderly := by
  induction assembled with
  | new name levelNames => exact ⟨.new name levelNames, fun _ none => absurd none List.not_mem_nil⟩
  | @addRoot h name _ ih =>
    rcases h.perform_add_cases none name with ⟨m, adds⟩ | ⟨_, same⟩
    · exact ih.add (fun p none => by cases none) adds
    · rwa [same]
  | @addBelow h g p name _ _ inside ihH ihG =>
    rcases h.perform_add_cases (some p) name with ⟨m, adds⟩ | ⟨_, same⟩
    · exact ihH.add (fun q same => by cases same; exact ihG.proper p inside) adds
    · rwa [same]
  | addPath path _ ih =>
    exact addNames_induction (fun _ _ _ _ _ inside orderly adds =>
        orderly.add (fun p same => orderly.proper p (inside p same)) adds)
      (fun p none => by cases none) ih _

theorem Assembled.perform (assembled : h.Assembled) {call : BuilderCall} (grounded : call.Grounded) :
    (h.perform call).Assembled := by
  cases call with
  | addPath path => exact .addPath path assembled
  | add parent? name =>
    cases parent? with
    | none => exact .addRoot name assembled
    | some p =>
      obtain ⟨g, source, inside⟩ := grounded p rfl
      exact .addBelow p name assembled source inside

/-- Every member stands after one at the path of its parent. -/
def ParentsFirst (ms : List Member) : Prop :=
  ∀ (i : Nat) (m p : Member), ms[i]? = some m → m.parent? = some p →
    ∃ q ∈ ms.take i, q.path = p.path

theorem mem_take_iff {ms : List Member} {i : Nat} :
    q ∈ ms.take i ↔ ∃ j < i, ms[j]? = some q := by
  simp [List.mem_iff_getElem?, List.getElem?_take]

theorem parentsFirst_concat {ms : List Member} {m : Member} :
    ParentsFirst (ms ++ [m]) ↔
      ParentsFirst ms ∧ ∀ p, m.parent? = some p → ∃ q ∈ ms, q.path = p.path := by
  constructor
  · intro ordered
    refine ⟨fun i k p there link => ?_, fun p link => ?_⟩
    · have bound := (List.getElem?_eq_some_iff.mp there).1
      have found := ordered i k p ((List.getElem?_append_left bound).trans there) link
      rwa [List.take_append_of_le_length (Nat.le_of_lt bound)] at found
    · have found := ordered ms.length m p List.getElem?_concat_length link
      rwa [List.take_left] at found
  · intro given
    obtain ⟨ordered, parent⟩ := given
    intro i k p there link
    rcases Nat.lt_or_ge i ms.length with old | new
    · rw [List.getElem?_append_left old] at there
      rw [List.take_append_of_le_length (Nat.le_of_lt old)]
      exact ordered i k p there link
    · have bound := (List.getElem?_eq_some_iff.mp there).1
      rw [List.length_append, List.length_singleton] at bound
      obtain rfl : i = ms.length := by omega
      rw [List.getElem?_concat_length, Option.some.injEq] at there
      rw [List.take_left]
      exact parent p (there ▸ link)

theorem trimSlashes_of_ends {cs : List Char} (first : cs.head? ≠ some '/')
    (last : cs.getLast? ≠ some '/') : trimSlashes cs = cs := by
  have kept : ∀ ds : List Char, ds.head? ≠ some '/' → ds.dropWhile (· == '/') = ds := by
    intro ds other
    cases ds <;> simp_all
  rw [trimSlashes, kept cs first, kept cs.reverse (by rwa [List.head?_reverse]),
    List.reverse_reverse]

/-- The path of a member is found as it is. -/
theorem member_path_eq_ok_iff (named : h.Named) (proper : p.Proper) :
    h.member p.path = .ok q ↔ q ∈ h.members ∧ q.path = p.path := by
  have trimmed : String.ofList (trimSlashes p.path.toList) = p.path := by
    obtain ⟨first, last⟩ := proper.path_ends
    rw [trimSlashes_of_ends first last, String.ofList_toList]
  rw [member, trimmed, ← named.findPath?_eq_some_iff]
  cases h.findPath? p.path <;> simp

theorem Orderly.closed_iff (orderly : h.Orderly) : h.Closed ↔ ParentsFirst h.members := by
  have proper : ∀ (i : Nat) (m p : Member), h.members[i]? = some m → m.parent? = some p →
      p.Proper := fun i m p there link =>
    (orderly.proper m (List.mem_of_getElem? there)).above
      (Member.mem_upward_of_ancestors (Member.parent_mem_ancestors link))
  constructor
  · intro closed i m p there link
    obtain ⟨j, earlier, q, listed, _, found⟩ := closed i m p there link
    have path := ((member_path_eq_ok_iff orderly.toNamed (proper i m p there link)).mp found).2
    exact ⟨q, mem_take_iff.mpr ⟨j, earlier, listed⟩, path⟩
  · intro ordered i m p there link
    obtain ⟨q, mem, path⟩ := ordered i m p there link
    obtain ⟨j, earlier, listed⟩ := mem_take_iff.mp mem
    have parent := proper i m p there link
    have inside := List.mem_of_getElem? listed
    have home : q.hierarchy = p.hierarchy := by
      have child := orderly.owner m (List.mem_of_getElem? there)
      rw [Member.hierarchy_of_parent? link] at child
      exact (orderly.owner q inside).trans child.symm
    exact ⟨j, earlier, q, listed, Member.beq_of_path (orderly.proper q inside) parent home path,
      (member_path_eq_ok_iff orderly.toNamed parent).mpr ⟨inside, path⟩⟩

theorem Adds.parentsFirst_iff {h h' : Hierarchy} {parent? : Option Member} {name : String}
    {m : Member} (adds : h.Adds parent? name m h') : ParentsFirst h'.members ↔
      ParentsFirst h.members ∧ ∀ p, parent? = some p → ∃ q ∈ h.members, q.path = p.path := by
  obtain ⟨_, _, ⟨level, _, rfl⟩, _, rfl⟩ := adds
  rw [parentsFirst_concat]
  cases parent? <;> exact Iff.rfl

/-- Along a path members are added below members. -/
theorem parentsFirst_addPath (h : Hierarchy) (path : String) :
    ParentsFirst (h.addPath path).2.members ↔ ParentsFirst h.members := by
  refine addNames_induction (P := fun g => ParentsFirst g.members ↔ ParentsFirst h.members)
    (fun g parent? name m g' inside same adds => ?_) (fun p none => by cases none) Iff.rfl _
  rw [adds.parentsFirst_iff, and_iff_left fun p link => ⟨p, inside p link, rfl⟩]
  exact same

/-- One call keeps parents first exactly where it is hosted. -/
theorem parentsFirst_perform (h : Hierarchy) (call : BuilderCall) :
    ParentsFirst (h.perform call).members ↔ ParentsFirst h.members ∧ call.Hosted h := by
  cases call with
  | addPath path => exact (parentsFirst_addPath h path).trans (and_iff_left trivial).symm
  | add parent? name =>
    rcases h.perform_add_cases parent? name with ⟨m, adds⟩ | ⟨refused, same⟩
    · rw [adds.parentsFirst_iff]
      have accepted : ∃ m h', h.add parent? name = .ok (m, h') := ⟨m, _, add_eq_ok_iff.mpr adds⟩
      refine and_congr_right fun _ => forall₂_congr fun p _ => ?_
      exact ⟨fun found _ => found, fun hosted => hosted accepted⟩
    · rw [same]
      exact (and_iff_left fun p _ accepted => absurd accepted refused).symm

theorem parentsFirst_performAll (h : Hierarchy) (calls : List BuilderCall) :
    ParentsFirst (h.performAll calls).members ↔ ParentsFirst h.members ∧ h.Hosts calls := by
  induction calls generalizing h with
  | nil => exact (and_iff_left trivial).symm
  | cons call calls ih =>
    rw [performAll, List.foldl_cons]
    refine (ih (h.perform call)).trans ?_
    rw [parentsFirst_perform, and_assoc]
    exact Iff.rfl

theorem Assembled.performAll (assembled : h.Assembled) (grounded : ∀ c ∈ calls, c.Grounded) :
    (h.performAll calls).Assembled := by
  induction calls generalizing h with
  | nil => exact assembled
  | cons call calls ih =>
    exact ih (assembled.perform (grounded call List.mem_cons_self))
      fun c mem => grounded c (List.mem_cons_of_mem _ mem)

theorem Built.assembled (built : h.Built) : h.Assembled := by
  induction built with
  | new name levelNames => exact .new name levelNames
  | addPath path _ ih => exact .addPath path ih

/-- Hierarchies made from paths alone are closed. -/
theorem Built.closed (built : h.Built) : h.Closed := by
  have ordered : ParentsFirst h.members := by
    induction built with
    | new name levelNames => exact fun i m p there => by cases there
    | addPath path _ ih => exact (parentsFirst_addPath _ path).mpr ih
  exact built.assembled.orderly.closed_iff.mpr ordered

/-- Whatever parents builders have given out: what calls make of a builder is closed
exactly where each accepted parent has a member at its path by then. -/
theorem closed_performAll_iff (name : String) (levelNames : List String)
    (grounded : ∀ c ∈ calls, c.Grounded) :
    ((Hierarchy.new name levelNames).performAll calls).Closed ↔
      (Hierarchy.new name levelNames).Hosts calls := by
  have orderly := ((Assembled.new name levelNames).performAll grounded).orderly
  have start : ParentsFirst (Hierarchy.new name levelNames).members := fun i m p there => by
    cases there
  rw [orderly.closed_iff, parentsFirst_performAll, and_iff_right start]

/-- A builder for years below a member for all of them. -/
def years : Hierarchy :=
  .new "Time" ["(All)", "Year"]

/-- The member for all years. -/
def allYears : Member :=
  .root "Time" "All" "(All)"

theorem grounded_allYears (name : String) : (BuilderCall.add (some allYears) name).Grounded := by
  intro p same
  cases same
  exact ⟨years.perform (.addPath "All"), .addPath _ (.new _ _), List.mem_singleton_self _⟩

theorem closed_performAll_years :
    (years.performAll [.addPath "All", .add (some allYears) "2024"]).Closed := by
  have grounded : ∀ c ∈ [BuilderCall.addPath "All", .add (some allYears) "2024"], c.Grounded := by
    simpa [BuilderCall.Grounded] using grounded_allYears "2024"
  refine (closed_performAll_iff "Time" ["(All)", "Year"] grounded).mpr ⟨trivial, ?_, trivial⟩
  intro p same _
  cases same
  exact ⟨allYears, List.mem_singleton_self _, rfl⟩

/-- The member for all years, given out by one builder, passes for a parent on another of
the same name, which does not have it. -/
theorem not_closed_performAll_years : (BuilderCall.add (some allYears) "2024").Grounded ∧
    ¬ (years.performAll [.add (some allYears) "2024"]).Closed := by
  refine ⟨grounded_allYears "2024", fun closed => ?_⟩
  obtain ⟨j, earlier, _⟩ := closed 0 (.child allYears "2024" "Year") allYears rfl rfl
  exact Nat.not_lt_zero j earlier

end Hierarchy
end CubeAxis
