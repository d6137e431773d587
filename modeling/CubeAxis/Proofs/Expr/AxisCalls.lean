import CubeAxis.Proofs.Expr.AxisSet
import CubeAxis.Proofs.Expr.UnionCalls

namespace CubeAxis

/-- One of the four unions of an axis set. -/
inductive AxisPart where
  | roots
  | drills
  | undrills
  | excluded
  deriving DecidableEq

/-- A call on an axis set under construction. -/
inductive AxisCall where
  | add (e : Expr)
  | addMember (m : Member)
  | drill (e : Expr)
  | undrill (m : Member)
  | exclude (e : Expr)
  | excludeMember (m : Member)

namespace AxisCall

/-- The union a call is for. -/
def part : AxisCall → AxisPart
  | add _ | addMember _ => .roots
  | drill _ => .drills
  | undrill _ => .undrills
  | exclude _ | excludeMember _ => .excluded

/-- The call on that union. -/
def onUnion : AxisCall → UnionCall
  | add e | drill e | exclude e => .add e
  | addMember m | undrill m | excludeMember m => .addMember m

/-- The expression a call adds. -/
def expr (c : AxisCall) : Expr := c.onUnion.expr

end AxisCall

namespace AxisSet

def call (a : AxisSet) : AxisCall → AxisSet
  | .add e => a.add e
  | .addMember m => a.addMember m
  | .drill e => a.drill e
  | .undrill m => a.undrill m
  | .exclude e => a.exclude e
  | .excludeMember m => a.excludeMember m

/-- The axis set that calls lead to, from an empty one on. -/
def build (calls : List AxisCall) : AxisSet :=
  calls.foldl call {}

def part (a : AxisSet) : AxisPart → UnionTerms
  | .roots => a.roots
  | .drills => a.drills
  | .undrills => a.undrills
  | .excluded => a.excluded

/-- The members that calls give to a part. -/
def contributed (hs : List Hierarchy) (calls : List AxisCall) (p : AxisPart) : Set Member :=
  {m | ∃ c ∈ calls, c.part = p ∧ m ∈ c.expr.memberSet hs}

variable {hs : List Hierarchy} {K : Set Member} {calls other : List AxisCall}

theorem part_call (a : AxisSet) (c : AxisCall) (p : AxisPart) :
    (a.call c).part p = if c.part = p then (a.part p).call c.onUnion else a.part p := by
  cases c <;> cases p <;> rfl

/-- Each part goes its own way: it is built by the calls for it, in their order. -/
theorem part_foldl (calls : List AxisCall) (a : AxisSet) (p : AxisPart) :
    (calls.foldl call a).part p =
      ((calls.filter (·.part = p)).map (·.onUnion)).foldl UnionTerms.call (a.part p) := by
  induction calls generalizing a with
  | nil => rfl
  | cons c calls ih =>
    rw [List.foldl_cons, ih, part_call]
    by_cases mine : c.part = p <;> simp [mine]

theorem part_build (calls : List AxisCall) (p : AxisPart) :
    (build calls).part p = UnionTerms.build ((calls.filter (·.part = p)).map (·.onUnion)) := by
  rw [build, part_foldl]
  cases p <;> rfl

theorem contributed_perm (perm : calls.Perm other) (p : AxisPart) :
    contributed hs other p = contributed hs calls p :=
  Set.ext fun _ => exists_congr fun _ => and_congr_left fun _ => perm.mem_iff.symm

section

variable (given : ∀ c ∈ calls, c.expr.HasMembersIn hs K)

include given

theorem contributed_subset (p : AxisPart) : contributed hs calls p ⊆ K := by
  rintro m ⟨c, listed, _, member⟩
  exact (given c listed).subset member

variable (discrete : Discrete (· ∈ K))

include discrete

theorem denotes_part (p : AxisPart) :
    ((build calls).part p).expr.Denotes hs (lone (contributed hs calls p)) := by
  have mine : ∀ c ∈ (calls.filter (·.part = p)).map (·.onUnion), c.expr.HasMembersIn hs K :=
    List.forall_mem_map.mpr fun c kept => given c (List.mem_filter.mp kept).1
  have same : {m | ∃ c ∈ (calls.filter (·.part = p)).map (·.onUnion), m ∈ c.expr.memberSet hs} =
      contributed hs calls p := by
    ext m
    simp [contributed, AxisCall.expr, and_assoc]
  rw [part_build, ← same]
  exact UnionTerms.denotes_build discrete mine

theorem parts_build :
    (build calls).Parts hs (contributed hs calls .roots) (contributed hs calls .drills)
      (contributed hs calls .undrills) (contributed hs calls .excluded) :=
  ⟨denotes_part given discrete .roots, denotes_part given discrete .drills,
    denotes_part given discrete .undrills, denotes_part given discrete .excluded⟩

end

/-- Calls whose expressions give members of the hierarchies make an axis set that is the closure
of its roots under its drills, less what is below its undrilled members and what is excluded.
It is the same in any order of the calls. -/
theorem evaluateMembers_build (assembled : ∀ h ∈ hs, h.Assembled)
    (discrete : Discrete (Expr.Inside hs))
    (given : ∀ c ∈ calls, c.expr.HasMembersIn hs {m | Expr.Inside hs m}) :
    let part := contributed hs calls
    ∃ ms, (build calls).expr.evaluateMembers hs = .ok ms ∧
      (∀ m, m ∈ ms ↔ Expr.Drilled hs (part .roots) (part .drills) m ∧
        m ∉ below hs (part .undrills) ∧ m ∉ part .excluded) ∧
      ∀ other, calls.Perm other → ∃ ks, (build other).expr.evaluateMembers hs = .ok ks ∧
        ∀ m, m ∈ ks ↔ m ∈ ms := by
  intro part
  have value : ∀ other, calls.Perm other → ∃ ms, (build other).expr.evaluateMembers hs = .ok ms ∧
      ∀ m, m ∈ ms ↔ Expr.Drilled hs (part .roots) (part .drills) m ∧
        m ∉ below hs (part .undrills) ∧ m ∉ part .excluded := by
    intro other perm
    have scope := Expr.scope_inside assembled discrete
    have within : ∀ c ∈ other, c.expr.HasMembersIn hs {m | Expr.Inside hs m} :=
      fun c listed => given c (perm.mem_iff.mpr listed)
    have known := contributed_subset within
    have denoted := (parts_build within scope.discrete).denotes_expr scope (known .roots)
      (known .undrills) (known .excluded)
    obtain ⟨ms, run, mem⟩ := denoted.members
    refine ⟨ms, Expr.evaluateMembers_eq_ok.mpr run, fun m => (mem m).trans ?_⟩
    simp only [contributed_perm perm, Set.mem_sdiff, Set.mem_ofPred_eq, Set.mem_union, not_or]
    rfl
  obtain ⟨ms, run, mem⟩ := value calls (.refl _)
  refine ⟨ms, run, mem, fun other perm => ?_⟩
  obtain ⟨ks, again, shown⟩ := value other perm
  exact ⟨ks, again, fun m => (shown m).trans (mem m).symm⟩

/-- Both years, drilled, the second one collapsed again and the first one left out: of the
months, that of the first year is shown. -/
theorem evaluateMembers_build_calendar :
    let second : Member := .root "Time" "2025" "Year"
    let years := Expr.levelMembers Member.year.level
    let calls : List AxisCall :=
      [.undrill second, .drill years, .add years, .excludeMember .year]
    ∃ ms, (build calls).expr.evaluateMembers [.calendar] = .ok ms ∧
      .january ∈ ms ∧ .february ∉ ms ∧ .year ∉ ms := by
  intro second years calls
  have all : Expr.Inside [.calendar] = (· ∈ Hierarchy.calendar.members) := by
    ext m
    simp [Expr.Inside]
  have discrete : Discrete (Expr.Inside [.calendar]) :=
    all ▸ (Hierarchy.calendar_built.regular (by decide)).discrete
  have inside : second ∈ Hierarchy.calendar.members := List.mem_of_getElem? (i := 2) rfl
  have value : years.evaluateMembers [.calendar] = .ok [.year, second] := rfl
  have within : ∀ c ∈ calls, c.expr.HasMembersIn [.calendar] {m | Expr.Inside [.calendar] m} := by
    have both : ∀ m ∈ [Member.year, second], m ∈ Hierarchy.calendar.members := by
      simpa using ⟨Hierarchy.year_mem_calendar, inside⟩
    simp only [calls, all, List.forall_mem_cons]
    exact ⟨⟨[second], rfl, by simpa using inside⟩, ⟨_, value, both⟩, ⟨_, value, both⟩,
      ⟨[.year], rfl, by simpa using Hierarchy.year_mem_calendar⟩, nofun⟩
  obtain ⟨ms, run, mem, _⟩ := evaluateMembers_build
    (List.forall_mem_singleton.mpr Hierarchy.calendar_built.assembled) discrete within
  have parts : contributed [.calendar] calls .roots = {m | m ∈ [.year, second]} ∧
      contributed [.calendar] calls .drills = {m | m ∈ [.year, second]} ∧
      contributed [.calendar] calls .undrills = {second} ∧
      contributed [.calendar] calls .excluded = {.year} := by
    refine ⟨?_, ?_, ?_, ?_⟩ <;> ext m <;>
      simp [contributed, calls, AxisCall.part, AxisCall.expr, AxisCall.onUnion, UnionCall.expr,
        Expr.mem_memberSet value, Expr.mem_memberSet_member]
  obtain ⟨roots, drills, undrills, excluded⟩ := parts
  rw [roots, drills, undrills, excluded] at mem
  have child : Member.january ∈ Hierarchy.calendar.children .year :=
    List.mem_of_getElem? (i := 0) rfl
  refine ⟨ms, run, (mem _).mpr ⟨?_, ?_, nofun⟩, fun shown => ?_, fun shown => ?_⟩
  · exact .child (.root List.mem_cons_self) List.mem_cons_self BEq.rfl rfl child
  · rintro ⟨_, rfl, h, _, _, above⟩
    exact absurd above (by decide)
  · refine ((mem _).mp shown).2.1 ⟨second, rfl, .calendar, rfl, Hierarchy.february_mem_calendar, ?_⟩
    decide
  · exact ((mem _).mp shown).2.2 rfl

end AxisSet
end CubeAxis
