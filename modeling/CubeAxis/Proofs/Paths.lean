import CubeAxis.Proofs.Builder

namespace CubeAxis

/-- A path without the slashes at its ends. -/
def trimmed (path : String) : String :=
  String.ofList (trimSlashes path.toList)

section

variable {cs : List Char} {path : String}

theorem splitAtSlashes_ne_nil (cs : List Char) : splitAtSlashes cs ≠ [] := by
  cases cs with
  | nil => exact List.cons_ne_nil _ _
  | cons c cs =>
    rw [splitAtSlashes]
    split
    · exact List.cons_ne_nil _ _
    · split <;> exact List.cons_ne_nil _ _

theorem splitAtSlashes_cons_of_ne {c : Char} (other : c ≠ '/') (cs : List Char) :
    ∃ piece pieces, splitAtSlashes cs = piece :: pieces ∧
      splitAtSlashes (c :: cs) = (c :: piece) :: pieces := by
  obtain ⟨piece, pieces, whole⟩ := List.exists_cons_of_ne_nil (splitAtSlashes_ne_nil cs)
  exact ⟨piece, pieces, whole, by simp only [splitAtSlashes, if_neg other, whole]⟩

theorem slash_not_mem_of_mem_splitAtSlashes : ∀ piece ∈ splitAtSlashes cs, '/' ∉ piece := by
  induction cs with
  | nil => simp [splitAtSlashes]
  | cons c cs ih =>
    by_cases slash : c = '/'
    · simpa [splitAtSlashes, slash] using ih
    · obtain ⟨piece, pieces, whole, longer⟩ := splitAtSlashes_cons_of_ne slash cs
      rw [whole, List.forall_mem_cons] at ih
      rw [longer, List.forall_mem_cons, List.mem_cons, not_or]
      exact ⟨⟨Ne.symm slash, ih.1⟩, ih.2⟩

/-- The pieces joined by slashes are the text that was cut. -/
theorem intercalate_splitAtSlashes (cs : List Char) :
    ['/'].intercalate (splitAtSlashes cs) = cs := by
  induction cs with
  | nil => rfl
  | cons c cs ih =>
    by_cases slash : c = '/'
    · subst slash
      obtain ⟨piece, pieces, whole⟩ := List.exists_cons_of_ne_nil (splitAtSlashes_ne_nil cs)
      rw [whole] at ih
      rw [splitAtSlashes, if_pos rfl, whole, List.intercalate_cons_cons, ih]
      rfl
    · obtain ⟨piece, pieces, whole, longer⟩ := splitAtSlashes_cons_of_ne slash cs
      rw [whole] at ih
      rw [longer]
      cases pieces with
      | nil => simpa using ih
      | cons next pieces =>
        rw [List.intercalate_cons_cons] at ih ⊢
        rw [List.cons_append, List.cons_append, ih]

theorem pathNames_ne_nil (path : String) : pathNames path ≠ [] := by
  rw [pathNames, ne_eq, List.map_eq_nil_iff]
  exact splitAtSlashes_ne_nil _

theorem slash_not_mem_of_mem_pathNames : ∀ name ∈ pathNames path, '/' ∉ name.toList := by
  intro name mem
  obtain ⟨piece, listed, rfl⟩ := List.mem_map.mp mem
  rw [String.toList_ofList]
  exact slash_not_mem_of_mem_splitAtSlashes piece listed

theorem intercalate_pathNames (path : String) : "/".intercalate (pathNames path) = trimmed path := by
  have pieces : (pathNames path).map String.toList = splitAtSlashes (trimSlashes path.toList) := by
    simp [pathNames, Function.comp_def]
  rw [← String.toList_inj, String.toList_intercalate, pieces, toList_slash,
    intercalate_splitAtSlashes, trimmed, String.toList_ofList]

end

/-- No name is empty, and `depth` levels have room for all of them. -/
def Fits (depth : Nat) (names : List String) : Prop :=
  names.length ≤ depth ∧ "" ∉ names

theorem fits_nil (depth : Nat) : Fits depth [] :=
  ⟨Nat.zero_le depth, List.not_mem_nil⟩

theorem fits_cons_iff {depth : Nat} {name : String} {names : List String} :
    Fits depth (name :: names) ↔ name ≠ "" ∧ 0 < depth ∧ Fits (depth - 1) names := by
  simp only [Fits, List.length_cons, List.mem_cons, not_or, ne_eq, eq_comm (a := "")]
  constructor
  · rintro ⟨room, named, rest⟩
    exact ⟨named, by omega, by omega, rest⟩
  · rintro ⟨named, some, room, rest⟩
    exact ⟨by omega, named, rest⟩

theorem fits_append_singleton_iff {depth : Nat} {ns : List String} {name : String} :
    Fits depth (ns ++ [name]) ↔ Fits depth ns ∧ name ≠ "" ∧ ns.length < depth := by
  simp only [Fits, List.length_append, List.length_singleton, List.mem_append,
    List.mem_singleton, not_or, ne_eq, eq_comm (a := "")]
  constructor
  · rintro ⟨room, before, named⟩
    exact ⟨⟨by omega, before⟩, named, by omega⟩
  · rintro ⟨⟨_, before⟩, named, room⟩
    exact ⟨room, before, named⟩

theorem Fits.of_prefix {depth : Nat} {names start : List String} (fits : Fits depth names)
    (before : start <+: names) : Fits depth start :=
  ⟨Nat.le_trans before.length_le fits.1, fun mem => fits.2 (before.subset mem)⟩

/-- The beginnings of a longer list are its first entry, and that with those of the rest. -/
theorem exists_prefix_cons_iff {P : List String → Prop} {name : String} {names : List String} :
    (∃ start, start ≠ [] ∧ start <+: name :: names ∧ P start) ↔
      P [name] ∨ ∃ start, start ≠ [] ∧ start <+: names ∧ P (name :: start) := by
  constructor
  · rintro ⟨start, some, before, holds⟩
    rcases List.prefix_cons_iff.mp before with rfl | ⟨rest, rfl, shorter⟩
    · exact absurd rfl some
    · cases rest with
      | nil => exact Or.inl holds
      | cons next rest => exact Or.inr ⟨_, List.cons_ne_nil next rest, shorter, holds⟩
  · rintro (holds | ⟨start, _, before, holds⟩)
    · exact ⟨[name], List.cons_ne_nil _ _, by simp, holds⟩
    · exact ⟨name :: start, List.cons_ne_nil _ _, List.cons_prefix_cons.mpr ⟨rfl, before⟩, holds⟩

namespace Member

theorem length_segments (m : Member) : m.segments.length = m.depth + 1 := by
  rw [segments, List.length_map, length_pathFromRoot]

/-- The names down to a parent, or none above the roots. -/
def stem (parent? : Option Member) : List String :=
  parent?.elim [] segments

theorem length_stem (parent? : Option Member) :
    (stem parent?).length = parent?.elim 0 (fun p => p.depth + 1) := by
  cases parent? with
  | none => rfl
  | some p => exact p.length_segments

theorem path_below (parent? : Option Member) (name : String) :
    parent?.elim name (fun p => p.path ++ "/" ++ name) =
      "/".intercalate (stem parent? ++ [name]) := by
  cases parent? with
  | none => simp [stem]
  | some p =>
    rw [stem, Option.elim_some, Option.elim_some,
      String.intercalate_append_of_ne_nil p.segments_ne_nil (List.cons_ne_nil name []),
      String.intercalate_singleton, p.path_eq]

end Member

namespace Hierarchy

variable {h g : Hierarchy} {m : Member} {parent? : Option Member} {name path : String}
  {names ns : List String}

/-- Some member has these names from the root down. -/
def Has (h : Hierarchy) (names : List String) : Prop :=
  ∃ m ∈ h.members, m.segments = names

/-- What adding along paths keeps. -/
structure Tidy (h : Hierarchy) : Prop extends h.Sound, h.Named

theorem Built.tidy (built : h.Built) : h.Tidy :=
  ⟨built.sound, built.named⟩

theorem Tidy.add (tidy : h.Tidy) (inside : ∀ p, parent? = some p → p ∈ h.members)
    (adds : h.Adds parent? name m g) : g.Tidy :=
  ⟨tidy.toSound.add inside adds, tidy.toNamed.add adds⟩

theorem Tidy.proper (tidy : h.Tidy) (inside : m ∈ h.members) : m.Proper :=
  fun k above => tidy.name k (tidy.upward_mem inside above)

theorem mem_of_some_eq (inside : m ∈ h.members) : ∀ p, some m = some p → p ∈ h.members :=
  fun _ same => Option.some.inj same ▸ inside

theorem mem_of_none_eq (h : Hierarchy) : ∀ p, none = some p → p ∈ h.members :=
  nofun

theorem segments_childOf (h : Hierarchy) (parent? : Option Member) (name level : String) :
    (h.childOf parent? name level).segments = Member.stem parent? ++ [name] := by
  cases parent? with
  | none => rfl
  | some p => exact Member.segments_child p name level

theorem Tidy.slash_not_mem_stem (tidy : h.Tidy) (inside : ∀ p, parent? = some p → p ∈ h.members) :
    ∀ n ∈ Member.stem parent?, '/' ∉ n.toList := by
  cases parent? with
  | none => exact fun _ none => absurd none List.not_mem_nil
  | some p =>
    intro n mem
    obtain ⟨k, above, rfl⟩ := List.mem_map.mp mem
    exact (tidy.proper (inside p rfl) k (Member.mem_pathFromRoot.mp above)).2

/-- Members are found by their names from the root down. -/
theorem Tidy.findPath?_eq_some_iff (tidy : h.Tidy) (some : ns ≠ [])
    (free : ∀ n ∈ ns, '/' ∉ n.toList) :
    h.findPath? ("/".intercalate ns) = .some m ↔ m ∈ h.members ∧ m.segments = ns := by
  rw [tidy.toNamed.findPath?_eq_some_iff]
  refine and_congr_right fun inside => ?_
  have plain : ∀ n ∈ m.segments, '/' ∉ n.toList :=
    tidy.slash_not_mem_stem (mem_of_some_eq inside)
  have cut {ws : List String} (clean : ∀ n ∈ ws, '/' ∉ n.toList) :
      ∀ n ∈ ws, ¬ "/".toList <:+: n.toList := fun n mem => by
    rw [toList_slash, List.singleton_infix_iff]
    exact clean n mem
  rw [Member.path_eq]
  constructor
  · exact slash_unbordered.join_inj (cut plain) (cut free) m.segments_ne_nil some
  · exact congrArg _

/-- Members have proper names, and not more of them than there are levels. -/
theorem Tidy.fits_segments (tidy : h.Tidy) (inside : m ∈ h.members) :
    Fits h.levels.length m.segments := by
  have room := tidy.depth_lt_levels inside
  refine ⟨by rw [Member.length_segments]; omega, fun empty => ?_⟩
  obtain ⟨k, above, named⟩ := List.mem_map.mp empty
  exact (tidy.proper inside k (Member.mem_pathFromRoot.mp above)).1 named

section

variable (tidy : h.Tidy) (inside : ∀ p, parent? = some p → p ∈ h.members)
  (free : '/' ∉ name.toList)

include tidy inside free

theorem Tidy.findPath?_below_iff :
    h.findPath? (parent?.elim name (fun p => p.path ++ "/" ++ name)) = some m ↔
      m ∈ h.members ∧ m.segments = Member.stem parent? ++ [name] := by
  rw [Member.path_below]
  refine tidy.findPath?_eq_some_iff (by simp) (List.forall_mem_append.mpr ⟨?_, ?_⟩)
  · exact tidy.slash_not_mem_stem inside
  · exact List.forall_mem_singleton.mpr free

/-- A name that is empty or too deep is refused, and nothing changes. -/
theorem Tidy.addNames_cons_of_not_fits
    (misfit : ¬ (name ≠ "" ∧ (Member.stem parent?).length < h.levels.length)) (names : List String) :
    ∃ e, h.addNames parent? (name :: names) = (.error e, h) := by
  have absent : h.findPath? (parent?.elim name (fun p => p.path ++ "/" ++ name)) = none := by
    refine Option.eq_none_iff_forall_ne_some.mpr fun m there => misfit ?_
    obtain ⟨listed, segments⟩ := (tidy.findPath?_below_iff inside free).mp there
    exact (fits_append_singleton_iff.mp (segments ▸ tidy.fits_segments listed)).2
  rw [addNames, absent]
  cases added : h.add parent? name with
  | error e => exact ⟨e, rfl⟩
  | ok result =>
    obtain ⟨_, named, ⟨level, found, _⟩, _⟩ := add_eq_ok_iff.mp added
    have room := (List.getElem?_eq_some_iff.mp found).1
    rw [← Member.length_stem] at room
    exact absurd ⟨named.1, room⟩ misfit

/-- Otherwise the walk goes on from the member of that name, which is there by then. -/
theorem Tidy.addNames_cons_of_fits (named : name ≠ "")
    (room : (Member.stem parent?).length < h.levels.length) (names : List String) :
    ∃ (m : Member) (g : Hierarchy),
      h.addNames parent? (name :: names) = g.addNames (some m) names ∧ g.Tidy ∧
        g.levels = h.levels ∧ m.segments = Member.stem parent? ++ [name] ∧
        (∀ k, k ∈ g.members ↔ k ∈ h.members ∨ k = m) := by
  rw [addNames]
  cases there : h.findPath? (parent?.elim name (fun p => p.path ++ "/" ++ name)) with
  | some m =>
    obtain ⟨listed, segments⟩ := (tidy.findPath?_below_iff inside free).mp there
    refine ⟨m, h, rfl, tidy, rfl, segments, fun k => ⟨Or.inl, ?_⟩⟩
    rintro (old | rfl)
    · exact old
    · exact listed
  | none =>
    let level := h.levels[(Member.stem parent?).length]
    let m := h.childOf parent? name level.name
    have segments : m.segments = Member.stem parent? ++ [name] := h.segments_childOf ..
    have adds : h.Adds parent? name m { h with members := h.members ++ [m] } := by
      refine ⟨fun p link => tidy.owner p (inside p link), ⟨named, free⟩, ⟨level, ?_, rfl⟩, ?_, rfl⟩
      · rw [← Member.length_stem, List.getElem?_eq_getElem room]
      · cases parent? <;> exact findPath?_eq_none_iff.mp there
    rw [add_eq_ok_iff.mpr adds]
    exact ⟨m, _, rfl, tidy.add inside adds, rfl, segments, by simp⟩

end

section

variable (tidy : h.Tidy) (inside : ∀ p, parent? = some p → p ∈ h.members)
  (free : ∀ n ∈ names, '/' ∉ n.toList)

include tidy inside free

/-- The walk down a path adds the members of all its beginnings that fit. -/
theorem Tidy.has_addNames_iff : (h.addNames parent? names).2.Has ns ↔ h.Has ns ∨
    ∃ start, start ≠ [] ∧ start <+: names ∧
      Fits (h.levels.length - (Member.stem parent?).length) start ∧
      Member.stem parent? ++ start = ns := by
  induction names generalizing h parent? with
  | nil =>
    have same : (h.addNames parent? []).2 = h := by cases parent? <;> rfl
    rw [same]
    refine ⟨Or.inl, ?_⟩
    rintro (old | ⟨start, some, before, _⟩)
    · exact old
    · exact absurd (List.prefix_nil.mp before) some
  | cons name names ih =>
    rw [List.forall_mem_cons] at free
    by_cases fits : name ≠ "" ∧ (Member.stem parent?).length < h.levels.length
    · obtain ⟨m, g, step, tidy', levels, segments, mem⟩ :=
        tidy.addNames_cons_of_fits inside free.1 fits.1 fits.2 names
      have next := ih tidy' (mem_of_some_eq ((mem m).mpr (Or.inr rfl))) free.2
      have stem : Member.stem (some m) = Member.stem parent? ++ [name] := segments
      -- the first name adds at most its own member, and the rest goes on below that one
      have grown : g.Has ns ↔ h.Has ns ∨ Member.stem parent? ++ [name] = ns := by
        simp only [Has, mem, or_and_right, exists_or, exists_eq_left, segments]
      have room : h.levels.length - (Member.stem parent? ++ [name]).length =
          h.levels.length - (Member.stem parent?).length - 1 := by
        rw [List.length_append, List.length_singleton]
        omega
      rw [step, next, grown, or_assoc, exists_prefix_cons_iff, levels, stem, room]
      have some : 0 < h.levels.length - (Member.stem parent?).length := by omega
      simp only [fits_cons_iff, fits_nil, fits.1, some, ne_eq, not_false_eq_true, true_and,
        List.append_assoc, List.singleton_append]
    · obtain ⟨e, refused⟩ := tidy.addNames_cons_of_not_fits inside free.1 fits names
      have none (start : List String) :
          ¬ Fits (h.levels.length - (Member.stem parent?).length) (name :: start) := fun whole => by
        obtain ⟨named, room, _⟩ := fits_cons_iff.mp whole
        exact fits ⟨named, by omega⟩
      simp only [refused, exists_prefix_cons_iff, none, false_and, and_false, exists_const, or_false]

/-- The walk ends well exactly if all names fit. -/
theorem Tidy.addNames_ok_iff (some : parent? ≠ none ∨ names ≠ []) :
    (∃ m, (h.addNames parent? names).1 = .ok m) ↔
      Fits (h.levels.length - (Member.stem parent?).length) names := by
  induction names generalizing h parent? with
  | nil =>
    cases parent? with
    | none => simp at some
    | some p => exact iff_of_true ⟨p, rfl⟩ (fits_nil _)
  | cons name names ih =>
    rw [List.forall_mem_cons] at free
    rw [fits_cons_iff]
    by_cases fits : name ≠ "" ∧ (Member.stem parent?).length < h.levels.length
    · obtain ⟨m, g, step, tidy', levels, segments, mem⟩ :=
        tidy.addNames_cons_of_fits inside free.1 fits.1 fits.2 names
      have next := ih tidy' (mem_of_some_eq ((mem m).mpr (Or.inr rfl))) free.2
        (Or.inl (Option.some_ne_none m))
      have stem : (Member.stem (.some m)).length = (Member.stem parent?).length + 1 := by
        rw [Member.stem, Option.elim_some, segments, List.length_append, List.length_singleton]
      rw [step, next, levels, stem, Nat.sub_add_eq]
      have room : 0 < h.levels.length - (Member.stem parent?).length := by omega
      simp only [fits.1, room, ne_eq, not_false_eq_true, true_and]
    · obtain ⟨e, refused⟩ := tidy.addNames_cons_of_not_fits inside free.1 fits names
      rw [refused]
      refine iff_of_false nofun fun whole => fits ⟨whole.1, ?_⟩
      have room := whole.2.1
      omega

/-- It ends at the member of these names. -/
theorem Tidy.segments_of_addNames (ok : (h.addNames parent? names).1 = .ok m) :
    m ∈ (h.addNames parent? names).2.members ∧ m.segments = Member.stem parent? ++ names := by
  induction names generalizing h parent? with
  | nil =>
    cases parent? with
    | none => cases ok
    | some p =>
      cases ok
      exact ⟨inside m rfl, (List.append_nil _).symm⟩
  | cons name names ih =>
    rw [List.forall_mem_cons] at free
    by_cases fits : name ≠ "" ∧ (Member.stem parent?).length < h.levels.length
    · obtain ⟨k, g, step, tidy', -, segments, mem⟩ :=
        tidy.addNames_cons_of_fits inside free.1 fits.1 fits.2 names
      rw [step] at ok ⊢
      obtain ⟨there, whole⟩ := ih tidy' (mem_of_some_eq ((mem k).mpr (Or.inr rfl))) free.2 ok
      refine ⟨there, ?_⟩
      rw [whole, Member.stem, Option.elim_some, segments, List.append_assoc, List.singleton_append]
    · obtain ⟨e, refused⟩ := tidy.addNames_cons_of_not_fits inside free.1 fits names
      rw [refused] at ok
      cases ok

/-- Where the members of all beginnings are there already, nothing is added. -/
theorem Tidy.addNames_of_has (some : parent? ≠ none ∨ names ≠ [])
    (present : ∀ start, start ≠ [] → start <+: names → h.Has (Member.stem parent? ++ start)) :
    ∃ m, h.addNames parent? names = (.ok m, h) := by
  induction names generalizing parent? with
  | nil =>
    cases parent? with
    | none => simp at some
    | some p => exact ⟨p, rfl⟩
  | cons name names ih =>
    rw [List.forall_mem_cons] at free
    obtain ⟨m, listed, segments⟩ := present [name] (List.cons_ne_nil _ _) (by simp)
    -- each step of the walk finds its member, so the builder stays the one it started from
    rw [addNames, (tidy.findPath?_below_iff inside free.1).mpr ⟨listed, segments⟩]
    refine ih (mem_of_some_eq listed) free.2 (Or.inl (Option.some_ne_none m))
      fun start some' before => ?_
    have longer := present (name :: start) (List.cons_ne_nil _ _)
      (List.cons_prefix_cons.mpr ⟨rfl, before⟩)
    rw [Member.stem, Option.elim_some, segments, List.append_assoc]
    exact longer

end

section

variable (tidy : h.Tidy) (path : String)

include tidy

theorem Tidy.addPath_ok_iff :
    (∃ m, (h.addPath path).1 = .ok m) ↔ Fits h.levels.length (pathNames path) :=
  tidy.addNames_ok_iff (mem_of_none_eq h) slash_not_mem_of_mem_pathNames
    (Or.inr (pathNames_ne_nil path))

theorem Tidy.has_addPath_iff : (h.addPath path).2.Has ns ↔ h.Has ns ∨
    ns ≠ [] ∧ ns <+: pathNames path ∧ Fits h.levels.length ns := by
  have free : ∀ name ∈ pathNames path, '/' ∉ name.toList := slash_not_mem_of_mem_pathNames
  refine (tidy.has_addNames_iff (mem_of_none_eq h) free).trans (or_congr_right ?_)
  constructor
  · rintro ⟨start, some, before, fits, rfl⟩
    exact ⟨some, before, fits⟩
  · rintro ⟨some, before, fits⟩
    exact ⟨ns, some, before, fits, rfl⟩

variable {path}

theorem Tidy.segments_of_addPath (ok : (h.addPath path).1 = .ok m) :
    m ∈ (h.addPath path).2.members ∧ m.segments = pathNames path :=
  tidy.segments_of_addNames (mem_of_none_eq h) slash_not_mem_of_mem_pathNames ok

theorem Tidy.path_of_addPath (ok : (h.addPath path).1 = .ok m) : m.path = trimmed path := by
  rw [m.path_eq, (tidy.segments_of_addPath ok).2, intercalate_pathNames]

/-- Where the members of a path are there already, adding it gives back the last of them. -/
theorem Tidy.addPath_of_has (listed : m ∈ h.members) (named : m.segments = pathNames path)
    (present : ∀ start, start ≠ [] → start <+: pathNames path → h.Has start) :
    h.addPath path = (.ok m, h) := by
  obtain ⟨k, again⟩ := tidy.addNames_of_has (mem_of_none_eq h) slash_not_mem_of_mem_pathNames
    (Or.inr (pathNames_ne_nil path)) present
  have again : h.addPath path = (.ok k, h) := again
  obtain ⟨there, same⟩ := tidy.segments_of_addPath (congrArg Prod.fst again)
  rw [again] at there
  rw [again, tidy.path_inj there listed (by rw [k.path_eq, m.path_eq, same, named])]

end

theorem levels_addPath (h : Hierarchy) (path : String) : (h.addPath path).2.levels = h.levels :=
  addNames_induction (P := fun g => g.levels = h.levels)
    (fun _ _ _ _ _ _ same adds => adds.result ▸ same) (fun p none => by cases none) rfl _

theorem mem_addPath (inside : m ∈ h.members) (path : String) : m ∈ (h.addPath path).2.members :=
  addNames_induction (P := fun g => m ∈ g.members)
    (fun _ _ _ _ _ _ mem adds => adds.result ▸ List.mem_append_left _ mem)
    (fun p none => by cases none) inside _

/-- The builder after paths are added one after the other, whether or not it takes them. -/
def afterPaths (h : Hierarchy) (paths : List String) : Hierarchy :=
  h.performAll (paths.map .addPath)

theorem afterPaths_append (h : Hierarchy) (before after : List String) :
    h.afterPaths (before ++ after) = (h.afterPaths before).afterPaths after := by
  rw [afterPaths, List.map_append, performAll, List.foldl_append]
  rfl

/-- What adding a path keeps, adding many keeps. -/
theorem afterPaths_induction {P : Hierarchy → Prop} (add : ∀ h path, P h → P (h.addPath path).2)
    (holds : P h) (paths : List String) : P (h.afterPaths paths) := by
  induction paths generalizing h with
  | nil => exact holds
  | cons path paths ih => exact ih (add h path holds)

theorem Built.afterPaths (built : h.Built) (paths : List String) : (h.afterPaths paths).Built :=
  afterPaths_induction (fun _ path built => .addPath path built) built paths

theorem levels_afterPaths (h : Hierarchy) (paths : List String) :
    (h.afterPaths paths).levels = h.levels :=
  afterPaths_induction (P := fun g => g.levels = h.levels)
    (fun g path same => (g.levels_addPath path).trans same) rfl paths

theorem mem_afterPaths (inside : m ∈ h.members) (paths : List String) :
    m ∈ (h.afterPaths paths).members :=
  afterPaths_induction (P := fun g => m ∈ g.members) (fun _ path mem => mem_addPath mem path)
    inside paths

theorem Built.has_afterPaths_iff (built : h.Built) (paths : List String) :
    (h.afterPaths paths).Has ns ↔ h.Has ns ∨
      ∃ path ∈ paths, ns ≠ [] ∧ ns <+: pathNames path ∧ Fits h.levels.length ns := by
  induction paths generalizing h with
  | nil => simp [Hierarchy.afterPaths, performAll]
  | cons path paths ih =>
    have step := ih (built.addPath path)
    rw [levels_addPath, built.tidy.has_addPath_iff, or_assoc] at step
    rw [List.exists_mem_cons_iff]
    exact step

/-- A path that was taken once is taken again, as the same member, and adds nothing. -/
theorem Built.addPath_again (built : h.Built) (ok : (h.addPath path).1 = .ok m)
    (paths : List String) : ((h.addPath path).2.afterPaths paths).addPath path =
      (.ok m, (h.addPath path).2.afterPaths paths) := by
  have later := (built.addPath path).afterPaths paths
  obtain ⟨there, named⟩ := built.tidy.segments_of_addPath ok
  have fits := (built.tidy.addPath_ok_iff path).mp ⟨m, ok⟩
  refine later.tidy.addPath_of_has (mem_afterPaths there paths) named fun start some before => ?_
  obtain ⟨k, inside, same⟩ := (built.tidy.has_addPath_iff path).mpr
    (Or.inr ⟨some, before, fits.of_prefix before⟩)
  exact ⟨k, mem_afterPaths inside paths, same⟩

/-- Paths were added to an empty builder one after the other. It takes a path exactly if all
names on it fit. Its members are those of all beginnings that fit, of the paths it took and
of those it refused, each with its parent before it, and they are found by their paths.
A path that was taken before is taken again and changes nothing. -/
structure HoldsPrefixes (start : Hierarchy) (added : List String) (h : Hierarchy) : Prop where
  levels : h.levels = start.levels
  accepted : ∀ path, (∃ m, (h.addPath path).1 = .ok m) ↔
    Fits start.levels.length (pathNames path)
  returned : ∀ path m, (h.addPath path).1 = .ok m →
    m ∈ (h.addPath path).2.members ∧ m.path = trimmed path
  once : (h.members.map Member.path).Nodup
  paths : ∀ path, path ∈ h.members.map Member.path ↔ ∃ given ∈ added, ∃ names, names ≠ [] ∧
    names <+: pathNames given ∧ Fits start.levels.length names ∧ "/".intercalate names = path
  depth : ∀ m ∈ h.members, m.depth = m.ancestors.length
  level : ∀ m ∈ h.members, h.levels[m.depth]? = some m.level
  path : ∀ m ∈ h.members, m.path = m.parent?.elim m.name fun p => p.path ++ "/" ++ m.name
  parent : ∀ (i : Nat) (m p : Member), h.members[i]? = some m → m.parent? = some p →
    ∃ j < i, h.members[j]? = some p
  found : ∀ path m, h.member path = .ok m ↔ m ∈ h.members ∧ m.path = trimmed path
  repeated : ∀ before path after m, added = before ++ path :: after →
    ((start.afterPaths before).addPath path).1 = .ok m → h.addPath path = (.ok m, h)

theorem mem_paths_iff :
    path ∈ h.members.map Member.path ↔ ∃ ns, h.Has ns ∧ "/".intercalate ns = path := by
  simp only [List.mem_map, Has, Member.path_eq]
  constructor
  · rintro ⟨m, inside, rfl⟩
    exact ⟨m.segments, ⟨m, inside, rfl⟩, rfl⟩
  · rintro ⟨_, ⟨m, inside, rfl⟩, rfl⟩
    exact ⟨m, inside, rfl⟩

theorem Named.member_eq_ok_iff (named : h.Named) :
    h.member path = .ok m ↔ m ∈ h.members ∧ m.path = trimmed path := by
  rw [member, ← named.findPath?_eq_some_iff, trimmed]
  cases h.findPath? (String.ofList (trimSlashes path.toList)) <;> simp

theorem Built.parent_before (built : h.Built) {i : Nat} {p : Member}
    (there : h.members[i]? = some m) (link : m.parent? = some p) :
    ∃ j < i, h.members[j]? = some p := by
  obtain ⟨j, earlier, q, listed, _, found⟩ := built.closed i m p there link
  have inside := built.sound.parent_mem m (List.mem_of_getElem? there) p link
  have own := (member_path_eq_ok_iff built.named (built.tidy.proper inside)).mp found
  obtain rfl := built.named.path_inj own.1 inside own.2
  exact ⟨j, earlier, listed⟩

theorem holdsPrefixes_afterPaths (name : String) (levelNames paths : List String) :
    HoldsPrefixes (.new name levelNames) paths ((new name levelNames).afterPaths paths) := by
  have start : (new name levelNames).Built := .new name levelNames
  have built := start.afterPaths paths
  have levels := (new name levelNames).levels_afterPaths paths
  have empty (ns : List String) : ¬ (new name levelNames).Has ns := by
    rintro ⟨m, inside, _⟩
    exact List.not_mem_nil inside
  exact {
    levels := levels
    accepted := fun path => levels ▸ built.tidy.addPath_ok_iff path
    returned := fun path m ok =>
      ⟨(built.tidy.segments_of_addPath ok).1, built.tidy.path_of_addPath ok⟩
    once := built.named.paths
    paths := fun path => by
      simp only [mem_paths_iff, start.has_afterPaths_iff paths, empty, false_or]
      constructor
      · rintro ⟨ns, ⟨given, mem, some, before, fits⟩, same⟩
        exact ⟨given, mem, ns, some, before, fits, same⟩
      · rintro ⟨given, mem, ns, some, before, fits, same⟩
        exact ⟨ns, ⟨given, mem, some, before, fits⟩, same⟩
    depth := fun m _ => by
      have length := m.length_pathFromRoot
      rw [Member.pathFromRoot, List.length_reverse, m.upward_eq, List.length_cons] at length
      omega
    level := built.sound.member_level
    path := fun m _ => by cases m <;> rfl
    parent := fun _ _ _ => built.parent_before
    found := fun _ _ => built.named.member_eq_ok_iff
    repeated := fun before path after m split ok => by
      subst split
      rw [afterPaths_append]
      exact (start.afterPaths before).addPath_again ok after }

end Hierarchy
end CubeAxis
