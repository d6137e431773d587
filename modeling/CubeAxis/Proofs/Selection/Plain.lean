import CubeAxis.Proofs.Selection

namespace CubeAxis

/-- The node includes its member or records nothing. -/
structure Override.Plain (o : Override) : Prop where
  children : o.state.children = none
  descendants : o.state.descendants = none
  member : o.state.member ≠ some .excluded

theorem Override.Plain.handDown {o : Override} (plain : o.Plain) :
    Inherited.top.handDown o.state = .top := by
  rw [Inherited.handDown, plain.children, plain.descendants]
  rfl

theorem Override.fresh_plain (n : Nat) : (fresh n).Plain :=
  ⟨rfl, rfl, nofun⟩

/-- The node with its member included, where nothing is handed down. -/
def Override.withInclusion (o : Override) : Override :=
  { o with state := Inherited.top.record o.state .included .member }

theorem Override.Plain.withInclusion_state {o : Override} (plain : o.Plain) :
    o.withInclusion.state = { o.state with member := some .included } := by
  simp [withInclusion, Inherited.record, SelectionState.apply, SelectionState.recorded,
    plain.descendants, Inherited.childrenSign, Inherited.top]

theorem Override.Plain.withInclusion {o : Override} (plain : o.Plain) : o.withInclusion.Plain := by
  have state := plain.withInclusion_state
  refine ⟨?_, ?_, ?_⟩
  · rw [state]
    exact plain.children
  · rw [state]
    exact plain.descendants
  · rw [state]
    exact nofun

/-- Any member of the hierarchy may stand anywhere. -/
def Hierarchy.anywhere (h : Hierarchy) : Forest.Rule Unit where
  allows _ m := m ∈ h.members
  below _ _ := ()

theorem Hierarchy.follows_anywhere {h : Hierarchy} {path : List Member}
    (inside : ∀ m ∈ path, m ∈ h.members) : h.anywhere.Follows () path := by
  induction path with
  | nil => trivial
  | cons m path ih =>
    exact ⟨inside m List.mem_cons_self, ih fun k mem => inside k (List.mem_cons_of_mem _ mem)⟩

/-- No node says more than that its member is included. -/
def Forest.Plain (h : Hierarchy) (f : Forest Override) : Prop :=
  f.Obeys h.anywhere (fun _ o => o.Plain) ()

variable {h : Hierarchy}

theorem Forest.Plain.inherited {f : Forest Override} (plain : f.Plain h) (path : List Member) :
    f.inherited .top path = .top := by
  induction f generalizing path with
  | nil => rcases path with _ | ⟨m, _ | ⟨k, path⟩⟩ <;> rfl
  | cons l o children siblings ihBelow ihBeside =>
    obtain ⟨_, _, node, below, beside⟩ := plain
    rcases path with _ | ⟨m, _ | ⟨k, path⟩⟩
    · rfl
    · rfl
    · rw [Forest.inherited, node.handDown]
      split
      · exact ihBelow below _
      · exact ihBeside beside _

theorem Forest.Plain.of_value? {f : Forest Override} (plain : f.Plain h) {path : List Member}
    {o : Override} (found : f.value? path = some o) : o.Plain := by
  induction f generalizing path with
  | nil => cases found
  | cons l v children siblings ihBelow ihBeside =>
    obtain ⟨_, _, node, below, beside⟩ := plain
    cases path with
    | nil => cases found
    | cons m path =>
      rw [Forest.value?_cons] at found
      split at found
      · split at found
        · cases found
          exact node
        · exact ihBelow below found
      · exact ihBeside beside found

namespace SelectionTree

/-- Members are included one by one, and no level is. -/
structure Plain (h : Hierarchy) (t : SelectionTree) : Prop where
  overrides : t.overrides.Plain h
  levels : ∀ l, t.levelSign l ≠ some .included

/-- One more member that is included by itself. -/
def includeMember (t : SelectionTree) (m : Member) : SelectionTree :=
  t.apply (.onMember .included .member m)

variable {t : SelectionTree} {m k : Member}

theorem clear_plain (h : Hierarchy) (t : SelectionTree) : t.clear.Plain h where
  overrides := trivial
  levels _ signed := nomatch signed

theorem Plain.stateOf_descendants (plain : t.Plain h) (m : Member) :
    (t.stateOf m).descendants = none := by
  unfold stateOf
  cases found : t.overrides.value? m.pathFromRoot with
  | none => rfl
  | some o => exact (plain.overrides.of_value? found).descendants

theorem Plain.inheritedBy (plain : t.Plain h) (m : Member) : t.inheritedBy m = .top :=
  plain.overrides.inherited _

/-- A member is included only by its own node. -/
theorem Plain.isIncluded_iff (plain : t.Plain h) :
    t.isIncluded m = true ↔ (t.stateOf m).member = some .included := by
  have levels := plain.levels m.level
  rw [isIncluded, resolve, plain.inheritedBy, Inherited.memberSign, plain.stateOf_descendants]
  cases state : (t.stateOf m).member with
  | none =>
    cases signed : t.levelSign m.level with
    | none => simp [Inherited.childrenSign, Inherited.top, ResolvedSign.withLevel, Sign.isIncluded]
    | some s =>
      rw [signed] at levels
      cases s with
      | included => exact absurd rfl levels
      | excluded =>
        simp [Inherited.childrenSign, Inherited.top, ResolvedSign.withLevel, Sign.isIncluded]
  | some s => cases s <;> simp [ResolvedSign.withLevel, Sign.isIncluded]

theorem includeMember_overrides (plain : t.Plain h) (m : Member) :
    (t.includeMember m).overrides =
      t.overrides.upsert Override.fresh Override.withInclusion t.nextSequence m.pathFromRoot := by
  change t.overrides.upsert Override.fresh (fun o =>
    { o with state := (t.inheritedBy m).record o.state .included .member }) _ _ = _
  rw [plain.inheritedBy m]
  rfl

theorem Plain.includeMember (plain : t.Plain h) (sound : h.Sound) (inside : m ∈ h.members) :
    (t.includeMember m).Plain h where
  overrides := by
    have path : h.anywhere.Follows () m.pathFromRoot := Hierarchy.follows_anywhere fun k above =>
      sound.upward_mem inside (Member.mem_pathFromRoot.mp above)
    rw [includeMember_overrides plain]
    exact plain.overrides.upsert (fun _ _ _ _ _ _ => rfl) (fun _ n => Override.fresh_plain n) path
      fun o node => node.withInclusion
  levels := plain.levels

theorem stateOf_includeMember_of_beq (plain : t.Plain h)
    (same : (k.pathFromRoot == m.pathFromRoot) = true) :
    ((t.includeMember m).stateOf k).member = some .included := by
  have unsigned := plain.stateOf_descendants k
  change ((t.applyMember .included .member m).stateOf k).member = _
  rw [stateOf_applyMember, if_pos same, plain.inheritedBy]
  simp [Inherited.record, SelectionState.apply, SelectionState.recorded, unsigned,
    Inherited.childrenSign, Inherited.top]

theorem stateOf_includeMember_of_not_beq
    (other : (k.pathFromRoot == m.pathFromRoot) = false) :
    (t.includeMember m).stateOf k = t.stateOf k := by
  change (t.applyMember .included .member m).stateOf k = _
  rw [stateOf_applyMember, other]
  rfl

/-- What is included by one more member: it, and all that have its names. -/
theorem Plain.isIncluded_includeMember (plain : t.Plain h) (sound : h.Sound)
    (inside : m ∈ h.members) : (t.includeMember m).isIncluded k = true ↔
      (k.pathFromRoot == m.pathFromRoot) = true ∨ t.isIncluded k = true := by
  rw [(plain.includeMember sound inside).isIncluded_iff, plain.isIncluded_iff]
  cases same : k.pathFromRoot == m.pathFromRoot with
  | true => simp [stateOf_includeMember_of_beq plain same]
  | false => simp [stateOf_includeMember_of_not_beq same]

/-- Members included one after the other, from nothing. -/
theorem Plain.foldl_includeMember (plain : t.Plain h) (sound : h.Sound) {ms : List Member}
    (inside : ∀ m ∈ ms, m ∈ h.members) : (ms.foldl SelectionTree.includeMember t).Plain h ∧
      ∀ k, (ms.foldl SelectionTree.includeMember t).isIncluded k = true ↔
        t.isIncluded k = true ∨ ∃ m ∈ ms, (k.pathFromRoot == m.pathFromRoot) = true := by
  induction ms generalizing t with
  | nil => exact ⟨plain, fun k => by simp⟩
  | cons m ms ih =>
    have known := inside m List.mem_cons_self
    obtain ⟨whole, included⟩ := ih (plain.includeMember sound known)
      fun k mem => inside k (List.mem_cons_of_mem _ mem)
    refine ⟨whole, fun k => (included k).trans ?_⟩
    rw [plain.isIncluded_includeMember sound known, List.exists_mem_cons_iff, or_assoc,
      or_left_comm]

theorem foldl_includeMember_levels (t : SelectionTree) (ms : List Member) :
    (ms.foldl includeMember t).levels = t.levels := by
  induction ms generalizing t with
  | nil => rfl
  | cons m ms ih => exact ih (t.includeMember m)

theorem isIncluded_clear (t : SelectionTree) (m : Member) : t.clear.isIncluded m = false :=
  Bool.eq_false_iff.mpr fun included => nomatch (clear_plain (.new "" []) t).isIncluded_iff.mp included

/-- A level signed where no other is. -/
theorem levelSign_applyLevel {t : SelectionTree} (bare : t.levels = []) (s : Sign) (l k : Level) :
    (t.applyLevel s l).levelSign k = if l == k then some s else none := by
  have only : (t.applyLevel s l).levels = [⟨l, s, t.nextSequence⟩] := by
    change t.levels.filter _ ++ [_] = _
    rw [bare]
    rfl
  rw [SelectionTree.levelSign, only, List.find?_singleton]
  split <;> rfl

theorem Plain.excludeLevel (plain : t.Plain h) (bare : t.levels = []) (l : Level) :
    (t.applyLevel .excluded l).Plain h where
  overrides := plain.overrides
  levels k := by
    rw [levelSign_applyLevel bare]
    split <;> exact nofun

end SelectionTree
end CubeAxis
