import CubeAxis.Proofs.Expr.Denotation

namespace CubeAxis

section

variable {ε α β : Type} {P : α → Prop} {R : β → Prop} {Q : ε → Prop} {x : Except ε α}

/-- A computation ends in a value with `P` or in an error with `Q`. -/
def Ends (P : α → Prop) (Q : ε → Prop) : Except ε α → Prop
  | .ok a => P a
  | .error e => Q e

theorem ends_true : Ends (fun _ => True) (fun _ => True) x := by
  cases x <;> trivial

theorem Ends.of_ok {a : α} (ends : Ends P Q x) (run : x = .ok a) : P a := by
  rwa [run] at ends

theorem Ends.of_error {e : ε} (ends : Ends P Q x) (run : x = .error e) : Q e := by
  rwa [run] at ends

theorem Ends.bind {f : α → Except ε β} (first : Ends P Q x) (next : ∀ a, P a → Ends R Q (f a)) :
    Ends R Q (x >>= f) := by
  cases x with
  | error e => exact first
  | ok a => exact next a first

theorem Ends.mapM {f : α → Except ε β} {as : List α} (each : ∀ a ∈ as, Ends R Q (f a)) :
    Ends (fun bs => ∀ b ∈ bs, R b) Q (as.mapM f) := by
  induction as with
  | nil => exact fun _ none => absurd none List.not_mem_nil
  | cons a as ih =>
    rw [List.mapM_cons]
    refine (each a List.mem_cons_self).bind fun b first => ?_
    refine (ih fun c mem => each c (List.mem_cons_of_mem _ mem)).bind fun bs later => ?_
    exact List.forall_mem_cons.mpr ⟨first, later⟩

end

/-- The error is another one than that of a member above the root of its descent. -/
def EvalError.Ordinary (e : EvalError) : Prop :=
  ∀ m root, e ≠ .aboveRoot m root

namespace Expr

variable {hs : List Hierarchy}

theorem mem_of_findHierarchy {name : String} {h : Hierarchy}
    (found : findHierarchy hs name = .ok h) : h ∈ hs ∧ h.name = name := by
  unfold findHierarchy at found
  split at found
  · rename_i g first
    cases found
    exact ⟨List.mem_of_find?_eq_some first, by simpa using List.find?_some first⟩
  · cases found

theorem exists_findHierarchy {h : Hierarchy} (listed : h ∈ hs) :
    ∃ g, findHierarchy hs h.name = .ok g := by
  unfold findHierarchy
  cases first : hs.find? fun g => g.name == h.name with
  | some g => exact ⟨g, rfl⟩
  | none => exact absurd BEq.rfl (List.find?_eq_none.mp first h listed)

/-- What holds of a call whenever it holds of its arguments holds of all expressions. -/
theorem induction {P : Expr → Prop} (member : ∀ m, P (.member m)) (level : ∀ l, P (.level l))
    (number : ∀ n, P (.number n)) (symbol : ∀ s, P (.symbol s))
    (call : ∀ form name args, (∀ e ∈ args, P e) → P (.call form name args)) (e : Expr) : P e :=
  @Expr.rec P (fun es => ∀ e ∈ es, P e) member level number symbol call
    (fun _ none => absurd none List.not_mem_nil)
    (fun _ _ first later => List.forall_mem_cons.mpr ⟨first, later⟩) e

/-- What a call comes down to: one operation on the values of its arguments, or an error that
is found without looking at any member. -/
inductive Operation (hs : List Hierarchy) : List Argument → Except EvalError (List Tuple) → Prop
  | brace (args : List Argument) : Operation hs args (evalBrace args)
  | tuple (args : List Argument) : Operation hs args (evalTuple args)
  | levelMembers (l : Level) (args : List Argument) : Operation hs args (evalLevelMembers hs l)
  | children (target : Argument) (rest : List Argument) :
      Operation hs (target :: rest) (evalChildren hs target)
  | union (left right : Argument) : Operation hs [left, right] (evalUnion left right)
  | except (left right : Argument) : Operation hs [left, right] (evalExcept left right)
  | crossJoin (left right : Argument) : Operation hs [left, right] (evalCrossJoin left right)
  | descendants (accept : Nat → Member → Bool) (set : Argument) (rest : List Argument) :
      Operation hs (set :: rest) (evalDescendants hs accept set)
  | drilldown (set drills : Argument) (rest : List Argument) :
      Operation hs (set :: drills :: rest) (evalDrilldown hs set drills)
  | refused (e : EvalError) (args : List Argument) : e.Ordinary → Operation hs args (.error e)

theorem operation_evalWithin (set : Argument) (distance : Int) (reach : String)
    (rest : List Argument) : Operation hs (set :: rest) (evalWithin hs set distance reach) := by
  unfold evalWithin
  split
  · exact .refused _ _ nofun
  · split
    · exact .refused _ _ nofun
    · exact .descendants _ set rest

theorem operation_evalProperty (name : String) (args : List Argument) :
    Operation hs args (evalProperty hs name args) := by
  unfold evalProperty
  split
  · exact .levelMembers _ _
  · exact .children _ _
  · exact .refused _ _ nofun

theorem operation_evalFunction (name : String) (args : List Argument) :
    Operation hs args (evalFunction hs name args) := by
  unfold evalFunction
  split
  · exact .union _ _
  · exact .except _ _
  · exact .crossJoin _ _
  · exact .descendants _ _ _
  · exact operation_evalWithin _ _ _ _
  · exact .drilldown _ _ _
  · exact .refused _ _ nofun

theorem operation_evalCall (form : CallForm) (name : String) (args : List Argument) :
    Operation hs args (evalCall hs form name args) := by
  cases form with
  | brace => exact .brace args
  | tuple => exact .tuple args
  | property => exact operation_evalProperty name args
  | function => exact operation_evalFunction name args

/-- What holds of expressions with their values holds of the arguments a call is given. -/
theorem forall_arguments {P : Argument → Prop} {es : List Expr}
    (all : ∀ e ∈ es, P ⟨e, e.evaluate hs⟩) : ∀ a ∈ arguments hs es, P a := by
  rw [arguments_eq_map]
  exact List.forall_mem_map.mpr all

theorem single_eq_ok {t : Tuple} {m : Member} : single t = .ok m ↔ t = [m] := by
  unfold single
  split
  · simp
  · rename_i other
    exact ⟨nofun, fun same => absurd same (other m)⟩

theorem mapM_single_eq_ok {ts : List Tuple} {ms : List Member} :
    ts.mapM single = .ok ms ↔ ts = ms.map ([·]) := by
  refine ⟨fun run => ?_, fun same => same ▸ mapM_single ms⟩
  induction ts generalizing ms with
  | nil =>
    cases run
    rfl
  | cons t ts ih =>
    rw [List.mapM_cons] at run
    obtain ⟨m, first, run⟩ := bind_eq_ok.mp run
    obtain ⟨ks, later, done⟩ := bind_eq_ok.mp run
    cases done
    rw [List.map_cons, ← ih later, single_eq_ok.mp first]

theorem singletons_eq (ms : List Member) : singletons ms = (distinct ms).map ([·]) :=
  distinct_map Tuple.beq_singleton ms

/-- An expression has members where all of its tuples have one each. -/
theorem evaluateMembers_eq_ok {e : Expr} {ms : List Member} :
    e.evaluateMembers hs = .ok ms ↔ e.evaluate hs = .ok (ms.map ([·])) := by
  refine bind_eq_ok.trans ?_
  simp only [mapM_single_eq_ok, exists_eq_right]

end Expr
end CubeAxis
