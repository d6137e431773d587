import CubeAxis.Hierarchy
import CubeAxis.MemberSet
import CubeAxis.Proofs.Distinct
import CubeAxis.Proofs.Lineage
import Mathlib.Data.List.Nodup

namespace CubeAxis

theorem Member.beq_iff {a b : Member} : (a == b) = true ↔ a.uniqueName = b.uniqueName :=
  beq_iff_eq (α := String)

theorem Level.beq_iff {a b : Level} : (a == b) = true ↔ a.uniqueName = b.uniqueName :=
  beq_iff_eq (α := String)

instance : ReflBEq Member := ⟨Member.beq_iff.mpr rfl⟩

instance : PartialEquivBEq Member where
  symm same := Member.beq_iff.mpr (Member.beq_iff.mp same).symm
  trans first second := Member.beq_iff.mpr ((Member.beq_iff.mp first).trans (Member.beq_iff.mp second))

theorem Member.list_beq_iff {as bs : List Member} :
    (as == bs) = true ↔ as.map uniqueName = bs.map uniqueName := by
  induction as generalizing bs with
  | nil => cases bs <;> simp
  | cons a as ih =>
    cases bs with
    | nil => simp
    | cons b bs => simp [ih, Member.beq_iff]

theorem Member.isPrefixOf_iff {as bs : List Member} :
    as.isPrefixOf bs = true ↔ as.map uniqueName <+: bs.map uniqueName := by
  induction as generalizing bs with
  | nil => simp
  | cons a as ih =>
    cases bs with
    | nil => simp
    | cons b bs => simp [List.isPrefixOf_cons_cons, ih, Member.beq_iff, List.cons_prefix_cons]

/-- Paths that equal each other by name end in members that do. -/
theorem Member.uniqueName_of_path_beq {a m : Member}
    (same : (a.pathFromRoot == m.pathFromRoot) = true) : a.uniqueName = m.uniqueName := by
  have names := congrArg List.getLast? (Member.list_beq_iff.mp same)
  rw [List.getLast?_map, List.getLast?_map, getLast?_pathFromRoot, getLast?_pathFromRoot] at names
  exact Option.some.inj names

instance : PartialEquivBEq (List Member) where
  symm same := Member.list_beq_iff.mpr (Member.list_beq_iff.mp same).symm
  trans first second :=
    Member.list_beq_iff.mpr ((Member.list_beq_iff.mp first).trans (Member.list_beq_iff.mp second))

instance : ReflBEq Level := ⟨Level.beq_iff.mpr rfl⟩

instance : PartialEquivBEq Level where
  symm same := Level.beq_iff.mpr (Level.beq_iff.mp same).symm
  trans first second := Level.beq_iff.mpr ((Level.beq_iff.mp first).trans (Level.beq_iff.mp second))

/-- The members that equal the level by name are those of its depth. -/
def Level.Exact (h : Hierarchy) (l : Level) : Prop :=
  ∀ m ∈ h.members, (m.level == l) = true ↔ m.depth = l.depth

namespace Hierarchy

/-- The hierarchies that come about by adding paths, those that fail on the way
included. -/
inductive Built : Hierarchy → Prop
  | new (name : String) (levelNames : List String) : Built (.new name levelNames)
  | addPath {h : Hierarchy} (path : String) : Built h → Built (h.addPath path).2

/-- What adding members keeps: levels are numbered from the outermost one, and a
member lies on the level of its depth, below a member. -/
structure Sound (h : Hierarchy) : Prop where
  level_at : ∀ d (l : Level), h.levels[d]? = some l → l.depth = d ∧ l.hierarchy = h.name
  member_level : ∀ m ∈ h.members, h.levels[m.depth]? = some m.level
  parent_mem : ∀ m ∈ h.members, ∀ p, m.parent? = some p → p ∈ h.members

theorem Sound.new (name : String) (levelNames : List String) :
    (Hierarchy.new name levelNames).Sound where
  level_at d l found := by
    simp only [Hierarchy.new, List.getElem?_mapIdx, Option.map_eq_some_iff] at found
    obtain ⟨level, _, rfl⟩ := found
    exact ⟨rfl, rfl⟩
  member_level m inside := absurd inside List.not_mem_nil
  parent_mem m inside := absurd inside List.not_mem_nil

/-- What it takes to add a member, and what comes of it. -/
structure Adds (h : Hierarchy) (parent? : Option Member) (name : String) (m : Member)
    (h' : Hierarchy) : Prop where
  home : ∀ p, parent? = some p → p.hierarchy = h.name
  named : name ≠ "" ∧ '/' ∉ name.toList
  level : ∃ level, h.levels[parent?.elim 0 (fun p => p.depth + 1)]? = some level ∧
    m = h.childOf parent? name level.name
  fresh : ∀ k ∈ h.members, k.path ≠ m.path
  result : h' = { h with members := h.members ++ [m] }

theorem findPath?_eq_none_iff {h : Hierarchy} {path : String} :
    h.findPath? path = none ↔ ∀ m ∈ h.members, m.path ≠ path := by
  simp [findPath?]

theorem findPath?_eq_some {h : Hierarchy} {path : String} {m : Member}
    (found : h.findPath? path = some m) : m ∈ h.members ∧ m.path = path :=
  ⟨List.mem_of_find?_eq_some found, by simpa using List.find?_some found⟩

theorem add_eq_ok_iff {h : Hierarchy} {parent? : Option Member} {name : String} {m : Member}
    {h' : Hierarchy} : h.add parent? name = .ok (m, h') ↔ h.Adds parent? name m h' := by
  have foreign : parent?.filter (fun p => p.hierarchy != h.name) = none ↔
      ∀ p, parent? = some p → p.hierarchy = h.name := by
    simp [Option.filter_eq_none_iff]
  have invalid : (name.isEmpty || name.toList.contains '/') = false ↔
      name ≠ "" ∧ '/' ∉ name.toList := by
    simp
  have taken : ∀ path, (h.findPath? path).isSome = false ↔ ∀ k ∈ h.members, k.path ≠ path := by
    intro path
    rw [Option.isSome_eq_false_iff, Option.isNone_iff_eq_none, findPath?_eq_none_iff]
  unfold add
  constructor
  · intro added
    split at added
    · cases added
    · rename_i home
      split at added
      · cases added
      · rename_i named
        dsimp only at added
        split at added
        · cases added
        · rename_i level found
          split at added
          · cases added
          · rename_i free
            cases added
            exact ⟨foreign.mp home, invalid.mp (Bool.eq_false_iff.mpr named), ⟨level, found, rfl⟩,
              (taken _).mp (Bool.eq_false_iff.mpr free), rfl⟩
  · intro adds
    obtain ⟨home, named, ⟨level, found, rfl⟩, fresh, rfl⟩ := adds
    rw [foreign.mpr home]
    dsimp only
    rw [if_neg (Bool.eq_false_iff.mp (invalid.mpr named)), level?, found]
    dsimp only
    rw [if_neg (Bool.eq_false_iff.mp ((taken _).mpr fresh))]

theorem Sound.push {h : Hierarchy} (sound : h.Sound) {m : Member}
    (level : h.levels[m.depth]? = some m.level)
    (parent : ∀ p, m.parent? = some p → p ∈ h.members) :
    ({ h with members := h.members ++ [m] } : Hierarchy).Sound where
  level_at := sound.level_at
  member_level k inside := by
    rcases List.mem_append.mp inside with old | new
    · exact sound.member_level k old
    · obtain rfl := List.mem_singleton.mp new
      exact level
  parent_mem k inside p link := by
    refine List.mem_append_left _ ?_
    rcases List.mem_append.mp inside with old | new
    · exact sound.parent_mem k old p link
    · obtain rfl := List.mem_singleton.mp new
      exact parent p link

theorem Sound.member_hierarchy {h : Hierarchy} (sound : h.Sound) {m : Member}
    (inside : m ∈ h.members) : m.hierarchy = h.name :=
  (sound.level_at _ _ (sound.member_level m inside)).2

theorem Sound.add {h : Hierarchy} (sound : h.Sound) {parent? : Option Member} {name : String}
    {m : Member} {h' : Hierarchy} (inside : ∀ p, parent? = some p → p ∈ h.members)
    (adds : h.Adds parent? name m h') : h'.Sound := by
  obtain ⟨_, _, ⟨level, found, rfl⟩, _, rfl⟩ := adds
  obtain ⟨depth, owner⟩ := sound.level_at _ _ found
  obtain ⟨hierarchy, levelName, number⟩ := level
  cases parent? with
  | none =>
    obtain rfl : number = 0 := depth
    obtain rfl : hierarchy = h.name := owner
    exact sound.push found (fun p link => by simp [childOf, Member.parent?] at link)
  | some q =>
    obtain rfl : number = q.depth + 1 := depth
    have home := sound.member_hierarchy (inside q rfl)
    have same : hierarchy = q.hierarchy := owner.trans home.symm
    subst same
    refine sound.push found (fun p link => ?_)
    obtain rfl : q = p := by simpa [childOf, Member.parent?] using link
    exact inside q rfl

/-- What adding below a member keeps is kept along a path. -/
theorem addNames_induction {P : Hierarchy → Prop}
    (add : ∀ (h : Hierarchy) parent? name m h', (∀ p, parent? = some p → p ∈ h.members) → P h →
      h.Adds parent? name m h' → P h')
    {h : Hierarchy} {parent? : Option Member} (inside : ∀ p, parent? = some p → p ∈ h.members)
    (holds : P h) (names : List String) : P (h.addNames parent? names).2 := by
  induction names generalizing h parent? with
  | nil => cases parent? <;> exact holds
  | cons name names ih =>
    unfold Hierarchy.addNames
    split
    · rename_i m found
      refine ih (fun p same => ?_) holds
      cases same
      exact List.mem_of_find?_eq_some found
    · split
      · exact holds
      · rename_i m h' added
        have adds := add_eq_ok_iff.mp added
        refine ih (fun p same => ?_) (add h parent? name m h' inside holds adds)
        cases same
        rw [adds.result]
        exact List.mem_append_right _ (List.mem_singleton_self m)

theorem Built.sound {h : Hierarchy} (built : h.Built) : h.Sound := by
  induction built with
  | new name levelNames => exact .new name levelNames
  | addPath path _ ih =>
    exact addNames_induction (fun _ _ _ _ _ inside sound adds => sound.add inside adds)
      (fun p none => by cases none) ih _

theorem Built.addPaths {h h' : Hierarchy} (built : h.Built) {paths : List String}
    (run : h.addPaths paths = .ok h') : h'.Built := by
  induction paths generalizing h with
  | nil =>
    cases run
    exact built
  | cons path paths ih =>
    unfold Hierarchy.addPaths at run
    split at run
    · cases run
    · rename_i m next step
      refine ih ?_ run
      have after := built.addPath path
      rwa [step] at after

/-- What the checks on added members keep: they have proper names and paths of their own,
and belong to the hierarchy. -/
structure Named (h : Hierarchy) : Prop where
  name : ∀ m ∈ h.members, m.name ≠ "" ∧ '/' ∉ m.name.toList
  paths : (h.members.map Member.path).Nodup
  owner : ∀ m ∈ h.members, m.hierarchy = h.name

theorem Named.new (name : String) (levelNames : List String) :
    (Hierarchy.new name levelNames).Named where
  name _ none := absurd none List.not_mem_nil
  paths := .nil
  owner _ none := absurd none List.not_mem_nil

theorem Adds.name_hierarchy {h h' : Hierarchy} {parent? : Option Member} {name : String}
    {m : Member} (adds : h.Adds parent? name m h') : m.name = name ∧ m.hierarchy = h.name := by
  obtain ⟨home, _, ⟨level, _, rfl⟩, _, _⟩ := adds
  cases parent? with
  | none => exact ⟨rfl, rfl⟩
  | some p => exact ⟨rfl, home p rfl⟩

theorem Named.add {h h' : Hierarchy} {parent? : Option Member} {name : String} {m : Member}
    (named : h.Named) (adds : h.Adds parent? name m h') : h'.Named := by
  obtain ⟨called, home⟩ := adds.name_hierarchy
  obtain ⟨_, proper, _, fresh, rfl⟩ := adds
  refine ⟨fun k inside => ?_, ?_, fun k inside => ?_⟩
  · rcases List.mem_append.mp inside with old | new
    · exact named.name k old
    · obtain rfl := List.mem_singleton.mp new
      rwa [called]
  · rw [List.map_append, List.map_singleton]
    refine named.paths.append (List.nodup_singleton _) ?_
    rw [List.disjoint_singleton]
    intro taken
    obtain ⟨k, mem, same⟩ := List.mem_map.mp taken
    exact fresh k mem same
  · rcases List.mem_append.mp inside with old | new
    · exact named.owner k old
    · obtain rfl := List.mem_singleton.mp new
      exact home

theorem Named.path_inj {h : Hierarchy} (named : h.Named) {a b : Member} (left : a ∈ h.members)
    (right : b ∈ h.members) (same : a.path = b.path) : a = b :=
  List.inj_on_of_nodup_map named.paths left right same

theorem Named.findPath?_eq_some_iff {h : Hierarchy} (named : h.Named) {path : String} {m : Member} :
    h.findPath? path = some m ↔ m ∈ h.members ∧ m.path = path := by
  constructor
  · exact findPath?_eq_some
  · intro given
    obtain ⟨inside, rfl⟩ := given
    cases found : h.findPath? m.path with
    | none => exact absurd rfl (findPath?_eq_none_iff.mp found m inside)
    | some k =>
      obtain ⟨listed, same⟩ := findPath?_eq_some found
      rw [named.path_inj listed inside same]

theorem Built.named {h : Hierarchy} (built : h.Built) : h.Named := by
  induction built with
  | new name levelNames => exact .new name levelNames
  | addPath path _ ih =>
    exact addNames_induction (fun _ _ _ _ _ _ named adds => named.add adds)
      (fun p none => by cases none) ih _

theorem addPath_name (h : Hierarchy) (path : String) : (h.addPath path).2.name = h.name :=
  addNames_induction (P := fun g => g.name = h.name)
    (fun _ _ _ _ _ _ same adds => adds.result ▸ same) (fun p none => by cases none) rfl _

theorem addPaths_name {h h' : Hierarchy} {paths : List String} (run : h.addPaths paths = .ok h') :
    h'.name = h.name := by
  induction paths generalizing h with
  | nil =>
    cases run
    rfl
  | cons path paths ih =>
    unfold Hierarchy.addPaths at run
    split at run
    · cases run
    · rename_i m next step
      have named := addPath_name h path
      rw [step] at named
      exact (ih run).trans named

/-- Levels that have members do not share their names. -/
def Layered (h : Hierarchy) : Prop :=
  ∀ a ∈ h.members, ∀ b ∈ h.members, a.levelName = b.levelName → a.depth = b.depth

namespace Sound

variable {h : Hierarchy} (sound : h.Sound)

include sound

theorem upward_mem {a m : Member} (inside : m ∈ h.members) (above : a ∈ m.upward) :
    a ∈ h.members := by
  induction m with
  | root =>
    obtain rfl := List.mem_singleton.mp above
    exact inside
  | child p n l ih =>
    rcases List.mem_cons.mp above with rfl | higher
    · exact inside
    · exact ih (sound.parent_mem _ inside p rfl) higher

theorem ancestors_mem {a m : Member} (inside : m ∈ h.members) (above : a ∈ m.ancestors) :
    a ∈ h.members :=
  sound.upward_mem inside (Member.mem_upward_of_ancestors above)

theorem level_beq_iff {m : Member} (inside : m ∈ h.members) {d : Nat} {l : Level}
    (found : h.levels[d]? = some l) : (m.level == l) = true ↔ m.levelName = l.name := by
  have owner := (sound.level_at _ _ (sound.member_level m inside)).2.trans
    (sound.level_at d l found).2.symm
  rw [Level.beq_iff, Level.uniqueName, Level.uniqueName, owner, String.append_left_inj,
    String.append_right_inj]
  rfl

theorem name_at {m : Member} (inside : m ∈ h.members) :
    (h.levels.map Level.name)[m.depth]? = some m.levelName := by
  rw [List.getElem?_map, sound.member_level m inside]
  rfl

theorem layered (names : (h.levels.map Level.name).Nodup) : h.Layered := by
  intro a left b right same
  have bound := (List.getElem?_eq_some_iff.mp (sound.name_at left)).1
  refine (List.getElem?_inj bound names).mp ?_
  rw [sound.name_at left, sound.name_at right, same]

theorem exact (names : (h.levels.map Level.name).Nodup) : ∀ l ∈ h.levels, l.Exact h := by
  intro l listed m inside
  obtain ⟨d, atD⟩ := List.mem_iff_getElem?.mp listed
  rw [sound.level_beq_iff inside atD, (sound.level_at d l atD).1]
  have bound := (List.getElem?_eq_some_iff.mp (sound.name_at inside)).1
  have named : (h.levels.map Level.name)[d]? = some l.name := by
    rw [List.getElem?_map, atD]
    rfl
  rw [← List.getElem?_inj bound names, sound.name_at inside, named, Option.some.injEq]

theorem level_eq (names : (h.levels.map Level.name).Nodup) {k l : Level} (left : k ∈ h.levels)
    (right : l ∈ h.levels) (same : (k == l) = true) : k = l := by
  obtain ⟨d, atD⟩ := List.mem_iff_getElem?.mp left
  obtain ⟨e, atE⟩ := List.mem_iff_getElem?.mp right
  have owner := (sound.level_at d k atD).2.trans (sound.level_at e l atE).2.symm
  rw [Level.beq_iff, Level.uniqueName, Level.uniqueName, owner, String.append_left_inj,
    String.append_right_inj] at same
  exact List.inj_on_of_nodup_map names left right same

theorem depth_lt_levels {m : Member} (inside : m ∈ h.members) : m.depth < h.levels.length :=
  (List.getElem?_eq_some_iff.mp (sound.member_level m inside)).1

end Sound

/-- No two members share a unique name, so equality by name is equality. -/
structure Regular (h : Hierarchy) : Prop extends h.Sound where
  unique : ∀ a ∈ h.members, ∀ b ∈ h.members, a.uniqueName = b.uniqueName → a = b

theorem eq_of_nodup_uniqueNames {ms : List Member} (distinct : (ms.map Member.uniqueName).Nodup) :
    ∀ a ∈ ms, ∀ b ∈ ms, a.uniqueName = b.uniqueName → a = b :=
  fun _ left _ right same => List.inj_on_of_nodup_map distinct left right same

namespace Regular

variable {h : Hierarchy} (regular : h.Regular)

include regular

theorem beq_iff {a b : Member} (left : a ∈ h.members) (right : b ∈ h.members) :
    (a == b) = true ↔ a = b := by
  rw [Member.beq_iff]
  exact ⟨regular.unique a left b right, congrArg _⟩

theorem discrete : Discrete (· ∈ h.members) :=
  fun _ _ left right same => (regular.beq_iff left right).mp same

theorem contains_iff {as : List Member} {m : Member} (all : ∀ a ∈ as, a ∈ h.members)
    (inside : m ∈ h.members) : as.contains m = true ↔ m ∈ as :=
  regular.discrete.contains_iff all inside

/-- In a part of a list a member is found that the part cannot have lost. -/
theorem contains_iff_of_within {as bs : List Member} {m : Member} (all : ∀ b ∈ bs, b ∈ h.members)
    (within : ∀ a ∈ as, a ∈ bs) (inside : m ∈ h.members) (kept : m ∈ bs → m ∈ as) :
    as.contains m = true ↔ m ∈ bs :=
  (regular.contains_iff (fun a mem => all a (within a mem)) inside).trans ⟨within m, kept⟩

theorem mem_distinct {as : List Member} {m : Member} (all : ∀ a ∈ as, a ∈ h.members) :
    m ∈ distinct as ↔ m ∈ as :=
  regular.discrete.mem_distinct all

theorem mem_erase_of_ne {as : List Member} {a m : Member} (left : a ∈ h.members)
    (right : m ∈ h.members) (other : a ≠ m) (mem : a ∈ as) : a ∈ as.erase m := by
  rw [List.erase_eq_eraseP', List.mem_eraseP_of_neg]
  · exact mem
  · rwa [regular.beq_iff left right]

theorem isAncestorOf_iff {a m : Member} (left : a ∈ h.members) (right : m ∈ h.members) :
    a.isAncestorOf m = true ↔ a ∈ m.ancestors := by
  have all : ∀ b ∈ m.ancestors, b ∈ h.members := fun b above => regular.ancestors_mem right above
  simp only [Member.isAncestorOf, Bool.and_eq_true, decide_eq_true_eq,
    regular.contains_iff all left]
  exact ⟨And.right, fun above => ⟨Member.depth_lt_of_mem_ancestors above, above⟩⟩

theorem covers_iff {a m : Member} (left : a ∈ h.members) (right : m ∈ h.members) :
    MemberSet.covers a m = true ↔ a ∈ m.upward := by
  rw [MemberSet.covers, Bool.or_eq_true, regular.beq_iff left right,
    regular.isAncestorOf_iff left right, Member.mem_upward_iff]

theorem mem_children_iff {m c : Member} (inside : m ∈ h.members) :
    c ∈ h.children m ↔ c ∈ h.members ∧ c.parent? = some m := by
  simp only [children, List.mem_filter, Option.any_eq_true]
  refine and_congr_right fun child => ⟨?_, fun link => ⟨m, link, BEq.rfl⟩⟩
  intro given
  obtain ⟨p, link, same⟩ := given
  rw [link, (regular.beq_iff (regular.parent_mem c child p link) inside).mp same]

end Regular
end Hierarchy

theorem Hierarchy.Built.regular {h : Hierarchy} (built : h.Built)
    (names : (h.members.map Member.uniqueName).Nodup) : h.Regular :=
  ⟨built.sound, Hierarchy.eq_of_nodup_uniqueNames names⟩

/-- Two years with a month each. -/
def Hierarchy.calendar : Hierarchy :=
  (((Hierarchy.new "Time" ["Year", "Month"]).addPath "2024/Jan").2.addPath "2025/Feb").2

/-- The first year of the calendar. -/
def Member.year : Member :=
  root "Time" "2024" "Year"

/-- The month of that year. -/
def Member.january : Member :=
  child year "Jan" "Month"

/-- The month of the other year. -/
def Member.february : Member :=
  child (root "Time" "2025" "Year") "Feb" "Month"

theorem Hierarchy.calendar_built : calendar.Built :=
  .addPath _ (.addPath _ (.new _ _))

theorem Hierarchy.members_calendar :
    calendar.members = .year :: .january :: calendar.members.drop 2 :=
  rfl

theorem Hierarchy.february_mem_calendar : Member.february ∈ calendar.members := by
  have later : calendar.members.drop 3 = [.february] := rfl
  exact List.mem_of_mem_drop (later ▸ List.mem_singleton_self _)

theorem Hierarchy.year_mem_calendar : Member.year ∈ calendar.members := by
  rw [members_calendar]
  exact List.mem_cons_self

theorem Hierarchy.january_mem_calendar : Member.january ∈ calendar.members := by
  rw [members_calendar]
  exact List.mem_cons_of_mem _ List.mem_cons_self

end CubeAxis
