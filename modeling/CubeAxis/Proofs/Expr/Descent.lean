import CubeAxis.Proofs.Expr.Drilldown

namespace CubeAxis

namespace Hierarchy

variable {h : Hierarchy} {accept : Nat → Member → Bool} {m root : Member}

/-- Where nothing equals the root from higher up, a descent has a value. -/
theorem descendantsOf_eq_ok (h : Hierarchy) (accept : Nat → Member → Bool)
    (low : ∀ m ∈ h.members, (m == root) = true → root.depth ≤ m.depth) :
    h.descendantsOf accept root = .ok ((h.members.filter fun m =>
      m == root || root.isAncestorOf m).filter fun m => accept (m.depth - root.depth) m) := by
  unfold descendantsOf
  dsimp only
  split
  · rename_i m above
    obtain ⟨inside, below⟩ := List.mem_filter.mp (List.mem_of_find?_eq_some above)
    have higher := List.find?_some above
    simp only [decide_eq_true_eq] at higher
    simp only [Bool.or_eq_true, Member.isAncestorOf, Bool.and_eq_true, decide_eq_true_eq] at below
    rcases below with same | ⟨deeper, _⟩
    · have := low m inside same
      omega
    · omega
  · rfl

theorem descendantsOf_eq_error (accept : Nat → Member → Bool) (inside : m ∈ h.members)
    (same : (m == root) = true) (higher : m.depth < root.depth) :
    ∃ k, h.descendantsOf accept root = .error (.aboveRoot k root) := by
  unfold descendantsOf
  dsimp only
  split
  · rename_i k _
    exact ⟨k, rfl⟩
  · rename_i none
    have found : m ∈ h.members.filter fun m => m == root || root.isAncestorOf m :=
      List.mem_filter.mpr ⟨inside, by rw [same, Bool.true_or]⟩
    exact absurd (decide_eq_true higher) (List.find?_eq_none.mp none m found)

end Hierarchy

namespace Expr

variable {hs : List Hierarchy} {set e : Expr} {us : List Member}

/-- A descent gives what is at or below its roots, freed from repetition. -/
theorem evaluate_descent (accept : Nat → Member → Bool) (run : set.evaluateMembers hs = .ok us)
    (homes : ∀ u ∈ us, ∃ h, findHierarchy hs u.hierarchy = .ok h ∧
      ∀ m ∈ h.members, (m == u) = true → u.depth ≤ m.depth)
    (shape : e.evaluate hs = evalDescendants hs accept ⟨set, set.evaluate hs⟩) :
    ∃ ms, e.evaluate hs = .ok (singletons ms) ∧ ∀ x, x ∈ ms ↔
      ∃ u ∈ us, ∃ h, findHierarchy hs u.hierarchy = .ok h ∧ x ∈ h.members ∧
        ((x == u) = true ∨ u.isAncestorOf x = true) ∧ accept (x.depth - u.depth) x = true := by
  have : Nonempty Hierarchy := ⟨.new "" []⟩
  choose! home found low using homes
  let below (u : Member) : List Member := ((home u).members.filter fun m =>
    m == u || u.isAncestorOf m).filter fun m => accept (m.depth - u.depth) m
  refine ⟨(us.map below).flatten, ?_, fun x => ?_⟩
  · have arg : (⟨set, set.evaluate hs⟩ : Argument).members = .ok us := run
    rw [shape, evalDescendants, arg]
    change (do
      let found ← us.mapM fun (u : Member) => do
        (← findHierarchy hs u.hierarchy).descendantsOf accept u
      return singletons found.flatten) = _
    rw [mapM_eq_ok (g := below) fun u mem => by
      rw [found u mem]
      exact (home u).descendantsOf_eq_ok accept (low u mem)]
    rfl
  · simp only [List.mem_flatten, List.mem_map, exists_exists_and_eq_and, below, List.mem_filter,
      Bool.or_eq_true, and_assoc]
    refine exists_congr fun u => and_congr_right fun mem => ?_
    simp only [found u mem, Except.ok.injEq, exists_eq_left']

/-- The expression is written over members and levels of the hierarchies. -/
inductive Over (hs : List Hierarchy) : Expr → Prop
  | member {m : Member} : Inside hs m → Over hs (member m)
  | level {h : Hierarchy} {l : Level} : h ∈ hs → l ∈ h.levels → Over hs (level l)
  | number (n : Int) : Over hs (number n)
  | symbol (s : String) : Over hs (symbol s)
  | call (form : CallForm) (name : String) {args : List Expr} : (∀ e ∈ args, Over hs e) →
      Over hs (call form name args)

/-- A member that equals a given one lies no higher, in the first hierarchy of that name. -/
def Anchored (hs : List Hierarchy) : Prop :=
  ∀ root, Inside hs root → ∀ h, findHierarchy hs root.hierarchy = .ok h →
    ∀ m ∈ h.members, (m == root) = true → root.depth ≤ m.depth

/-- The tuples hold members of the hierarchies only. -/
def Among (hs : List Hierarchy) (ts : List Tuple) : Prop :=
  ∀ t ∈ ts, ∀ m ∈ t, Inside hs m

variable {ts vs : List Tuple} {ms : List Member} {a : Argument}

theorem Among.append (left : Among hs ts) (right : Among hs vs) : Among hs (ts ++ vs) :=
  List.forall_mem_append.mpr ⟨left, right⟩

theorem Among.distinct (among : Among hs ts) : Among hs (distinct ts) :=
  fun t mem => among t (mem_of_mem_distinct mem)

theorem among_map_singleton (inside : ∀ m ∈ ms, Inside hs m) : Among hs (ms.map ([·])) := by
  intro t listed m mem
  obtain ⟨k, known, rfl⟩ := List.mem_map.mp listed
  rw [List.mem_singleton.mp mem]
  exact inside k known

theorem among_singletons (lists : List (List Member))
    (inside : ∀ ms ∈ lists, ∀ m ∈ ms, Inside hs m) :
    Among hs (singletons lists.flatten) := by
  refine (among_map_singleton fun m mem => ?_).distinct
  obtain ⟨ms, listed, mem⟩ := List.mem_flatten.mp mem
  exact inside ms listed m mem

theorem inside_of_found {name : String} {h : Hierarchy} {m : Member}
    (found : findHierarchy hs name = .ok h) (mem : m ∈ h.members) : Inside hs m :=
  ⟨h, (mem_of_findHierarchy found).1, mem⟩

theorem ends_findHierarchy (name : String) :
    Ends (fun h => findHierarchy hs name = .ok h) EvalError.Ordinary (findHierarchy hs name) := by
  unfold findHierarchy
  split
  · exact rfl
  · exact nofun

theorem ends_members (value : Ends (Among hs) EvalError.Ordinary a.value) :
    Ends (fun ms => ∀ m ∈ ms, Inside hs m) EvalError.Ordinary a.members := by
  refine value.bind fun ts among => Ends.mapM fun t mem => ?_
  unfold single
  split
  · exact among _ mem _ (List.mem_singleton_self _)
  · exact nofun

/-- Operations on members of the hierarchies give such members. They fail for want of depth
nowhere if nothing lies above what it equals. -/
theorem Operation.ends {args : List Argument} {value : Except EvalError (List Tuple)}
    (op : Operation hs args value) (anchored : Anchored hs)
    (values : ∀ a ∈ args, Ends (Among hs) EvalError.Ordinary a.value) :
    Ends (Among hs) EvalError.Ordinary value := by
  cases op with
  | brace =>
    refine (Ends.mapM values).bind fun parts among => Among.distinct fun t mem => ?_
    obtain ⟨ts, listed, mem⟩ := List.mem_flatten.mp mem
    exact among ts listed t mem
  | tuple =>
    refine (Ends.mapM (R := fun t => ∀ m ∈ t, Inside hs m) fun a given => ?_).bind ?_
    · refine (values a given).bind fun ts among => ?_
      split
      · exact among _ (List.mem_singleton_self _)
      · exact nofun
    · refine fun parts inside => List.forall_mem_singleton.mpr fun m mem => ?_
      obtain ⟨t, listed, mem⟩ := List.mem_flatten.mp mem
      exact inside t listed m mem
  | levelMembers l =>
    refine (ends_findHierarchy _).bind fun h found => among_map_singleton fun m mem => ?_
    exact inside_of_found found (List.mem_filter.mp mem).1
  | children target =>
    refine (ends_members (values target List.mem_cons_self)).bind fun ms inside => ?_
    refine (Ends.mapM fun m _ => (ends_findHierarchy _).bind fun h found => ?_).bind among_singletons
    exact fun c child => inside_of_found found (List.mem_filter.mp child).1
  | union left right =>
    refine (values left List.mem_cons_self).bind fun ls amongL => ?_
    refine (values right (List.mem_cons_of_mem _ List.mem_cons_self)).bind fun rs amongR => ?_
    exact (amongL.append amongR).distinct
  | except left right =>
    refine (values right (List.mem_cons_of_mem _ List.mem_cons_self)).bind fun rs _ => ?_
    refine (values left List.mem_cons_self).bind fun ls among t kept => ?_
    exact among t (List.mem_filter.mp kept).1
  | crossJoin left right =>
    refine (values right (List.mem_cons_of_mem _ List.mem_cons_self)).bind fun rs amongR => ?_
    refine (values left List.mem_cons_self).bind fun ls amongL => Among.distinct fun t mem => ?_
    obtain ⟨x, first, pair⟩ := List.mem_flatMap.mp mem
    obtain ⟨y, second, rfl⟩ := List.mem_map.mp pair
    exact List.forall_mem_append.mpr ⟨amongL x first, amongR y second⟩
  | descendants accept set =>
    refine (ends_members (values set List.mem_cons_self)).bind fun roots inside => ?_
    refine (Ends.mapM fun root given => (ends_findHierarchy _).bind fun h found => ?_).bind
      among_singletons
    rw [h.descendantsOf_eq_ok accept (anchored root (inside root given) h found)]
    exact fun m kept => inside_of_found found (List.mem_filter.mp (List.mem_filter.mp kept).1).1
  | drilldown set drills =>
    have second := values drills (List.mem_cons_of_mem _ List.mem_cons_self)
    refine (ends_members second).bind fun ds _ => ?_
    refine (ends_members (values set List.mem_cons_self)).bind fun roots inside => ?_
    refine (Ends.mapM fun root given => ?_).bind among_singletons
    split
    · refine (ends_findHierarchy _).bind fun h found m mem => ?_
      rcases Hierarchy.mem_of_mem_drillDown mem with rfl | listed
      · exact inside m given
      · exact inside_of_found found listed
    · exact List.forall_mem_singleton.mpr (inside root given)
  | refused _ _ ordinary => exact ordinary

theorem Over.ends (written : e.Over hs) (anchored : Anchored hs) :
    Ends (Among hs) EvalError.Ordinary (e.evaluate hs) := by
  induction written with
  | member inside => exact List.forall_mem_singleton.mpr (List.forall_mem_singleton.mpr inside)
  | level | number | symbol => exact nofun
  | call form name _ ih => exact (operation_evalCall form name _).ends anchored (forall_arguments ih)

theorem evaluate_above_root {root m : Member} {h : Hierarchy}
    (found : findHierarchy hs root.hierarchy = .ok h) (inside : m ∈ h.members)
    (same : (m == root) = true) (higher : m.depth < root.depth) :
    ∃ k, (descendants (member root) 0 .self).evaluate hs = .error (.aboveRoot k root) := by
  obtain ⟨k, stops⟩ :=
    h.descendantsOf_eq_error (fun found _ => Reach.self.accepts 0 found) inside same higher
  refine ⟨k, ?_⟩
  change (do
    let found ← [root].mapM fun (r : Member) => do
      (← findHierarchy hs r.hierarchy).descendantsOf (fun found _ => Reach.self.accepts 0 found) r
    return singletons found.flatten) = _
  rw [List.mapM_cons, found]
  simp only [bind, Except.bind, stops]

theorem over_descendants {root : Member} (inside : Inside hs root) (distance : UInt64)
    (reach : Reach) : (descendants (member root) distance reach).Over hs := by
  refine .call _ _ ?_
  simp only [List.forall_mem_cons]
  exact ⟨.member inside, .number _, .symbol _, fun _ none => absurd none List.not_mem_nil⟩

/-- Names without bracketing tell the depth, so that equal members have one depth. -/
theorem anchored_of_plain (built : ∀ h ∈ hs, h.Built)
    (plain : ∀ h ∈ hs, ∀ m ∈ h.members, ¬ bracketing.toList <:+: m.name.toList) : Anchored hs := by
  have clean : ∀ m, Inside hs m → ∀ n ∈ m.segments, ¬ bracketing.toList <:+: n.toList := by
    rintro m ⟨h, listed, inside⟩ n mem
    obtain ⟨k, above, rfl⟩ := List.mem_map.mp mem
    have member := (built h listed).sound.upward_mem inside (Member.mem_pathFromRoot.mp above)
    exact plain h listed k member
  intro root inside h found m mem same
  obtain ⟨first, named⟩ := mem_of_findHierarchy found
  have home : m.hierarchy = root.hierarchy := ((built h first).named.owner m mem).trans named
  have names := Member.segments_eq_of_uniqueName home (clean m ⟨h, first, mem⟩) (clean root inside)
    (Member.beq_iff.mp same)
  have lengths := congrArg List.length names
  simp only [Member.segments, List.length_map, Member.length_pathFromRoot] at lengths
  omega

/-- No descent meets a member above its root, whatever the expression, exactly where members
lie no higher than what they equal. Names that do not read like bracketing make it so. -/
theorem evaluate_ne_aboveRoot_iff (built : ∀ h ∈ hs, h.Built) :
    ((∀ e : Expr, e.Over hs → ∀ m root, e.evaluate hs ≠ .error (.aboveRoot m root)) ↔
        Anchored hs) ∧
      ((∀ h ∈ hs, ∀ m ∈ h.members, ¬ bracketing.toList <:+: m.name.toList) → Anchored hs) := by
  refine ⟨⟨fun calm root inside h found m mem same => ?_, fun anchored e written m root run => ?_⟩,
    anchored_of_plain built⟩
  · by_contra higher
    obtain ⟨k, stops⟩ := evaluate_above_root found mem same (Nat.lt_of_not_le higher)
    exact calm _ (over_descendants inside 0 .self) k root stops
  · exact (written.ends anchored).of_error run m root rfl

/-- On the calendar no expression meets a member above the root of a descent. -/
theorem evaluate_ne_aboveRoot_calendar : Anchored [.calendar] ∧ ∀ e : Expr, e.Over [.calendar] →
    ∀ m root, e.evaluate [.calendar] ≠ .error (.aboveRoot m root) := by
  have built : ∀ h ∈ [Hierarchy.calendar], h.Built :=
    List.forall_mem_singleton.mpr Hierarchy.calendar_built
  obtain ⟨exact, plain⟩ := evaluate_ne_aboveRoot_iff built
  have anchored := plain (by decide)
  exact ⟨anchored, exact.mpr anchored⟩

/-- A root with a name that reads like a member further down lies above that member, and a
descent from the one meets the other. -/
theorem evaluate_aboveRoot_bracketed :
    let top : Member := .root "H" "A].[B" "One"
    let inner : Member := .child (.root "H" "A" "One") "B" "Two"
    let descent := descendants (member inner) 0 .self
    Hierarchy.bracketed.Built ∧ descent.Over [.bracketed] ∧
      descent.evaluate [.bracketed] = .error (.aboveRoot top inner) := by
  intro top inner descent
  have inside : Inside [.bracketed] inner :=
    ⟨_, List.mem_singleton_self _, List.mem_of_getElem? (i := 2) rfl⟩
  exact ⟨.addPath _ (.addPath _ (.new _ _)), over_descendants inside 0 .self, rfl⟩

end Expr
end CubeAxis
