import CubeAxis.Distinct
import CubeAxis.Expr
import CubeAxis.Hierarchy

namespace CubeAxis

/-- One member per hierarchy of an axis, in axis order. -/
abbrev Tuple := List Member

inductive EvalError where
  | unknownHierarchy (name : String)
  | bareLevel (l : Level)
  | bareNumber (n : Int)
  | bareSymbol (s : String)
  | notSingleTuple
  | notMember (size : Nat)
  | unknownProperty (name : String)
  | negativeDistance (n : Int)
  | unknownReach (s : String)
  | unknownFunction (name : String) (arity : Nat)
  /-- a member that equals the root by name but lies above it -/
  | aboveRoot (m root : Member)

def EvalError.message : EvalError → String
  | unknownHierarchy h => "unknown hierarchy: " ++ h
  | bareLevel l => fault ("bare level " ++ l.uniqueName)
  | bareNumber n => fault ("bare number " ++ toString n)
  | bareSymbol s => fault ("bare symbol " ++ s)
  | notSingleTuple => fault "tuple element is not a single tuple"
  | notMember n => fault ("expected a member, found a " ++ toString n ++ "-tuple")
  | unknownProperty p => fault ("property " ++ p)
  | negativeDistance n => fault ("negative distance " ++ toString n)
  | unknownReach s => fault ("descendants flag " ++ s)
  | unknownFunction f n => fault (f ++ " with " ++ toString n ++ " arguments")
  | aboveRoot m root =>
    fault <| m.uniqueName ++ " has depth " ++ toString m.depth ++ ", above depth " ++
      toString root.depth
where
  fault (cause : String) : String := "cannot evaluate expression: " ++ cause

namespace Hierarchy

/-- Bounds the length of every unique name in the hierarchy. -/
def nameBound (h : Hierarchy) : Nat :=
  h.members.foldr (fun m k => max m.uniqueName.length k) 0

theorem uniqueName_length_le_nameBound {h : Hierarchy} {m : Member} (mem : m ∈ h.members) :
    m.uniqueName.length ≤ h.nameBound := by
  unfold nameBound
  generalize h.members = ms at mem
  induction ms with
  | nil => cases mem
  | cons a as ih =>
    rcases List.mem_cons.mp mem with rfl | tail
    · simp only [List.foldr_cons]; omega
    · have := ih tail
      simp only [List.foldr_cons]; omega

theorem children_uniqueName_lt {h : Hierarchy} {m c : Member} (mem : c ∈ h.children m) :
    c ∈ h.members ∧ m.uniqueName.length < c.uniqueName.length := by
  obtain ⟨inside, link⟩ := List.mem_filter.mp mem
  refine ⟨inside, ?_⟩
  obtain ⟨p, parent, same⟩ := Option.any_eq_true _ _ |>.mp link
  have equal : p.uniqueName = m.uniqueName := by simpa [BEq.beq] using same
  rw [← equal]
  exact Member.parent?_uniqueName_lt parent

/-- A member followed by its children as far as the drills lead, depth first.
Unique names grow on the way down, so it ends even where names collide. -/
def drillDown (h : Hierarchy) (drills : List Member) (m : Member) : List Member :=
  m :: if drills.contains m then
    (h.children m).attach.flatMap fun c => h.drillDown drills c.1
  else []
termination_by h.nameBound - m.uniqueName.length
decreasing_by
  have step := children_uniqueName_lt c.2
  have bound := uniqueName_length_le_nameBound step.1
  omega

/-- The descendants-or-self of `root` that `accept` takes by distance. -/
def descendantsOf (h : Hierarchy) (accept : Nat → Member → Bool) (root : Member) :
    Except EvalError (List Member) :=
  let found := h.members.filter (fun m => m == root || root.isAncestorOf m)
  match found.find? (fun m => m.depth < root.depth) with
  | some m => .error (.aboveRoot m root)
  | none => .ok (found.filter (fun m => accept (m.depth - root.depth) m))

end Hierarchy

namespace Expr

/-- The first hierarchy of the name. -/
def findHierarchy (hs : List Hierarchy) (name : String) : Except EvalError Hierarchy :=
  match hs.find? (fun h => h.name == name) with
  | some h => .ok h
  | none => .error (.unknownHierarchy name)

/-- The member of a one-member tuple. -/
def single : Tuple → Except EvalError Member
  | [m] => .ok m
  | t => .error (.notMember t.length)

/-- An argument of a call: the expression and what it denotes. Some calls look
at the expression and never ask for its value. -/
structure Argument where
  expr : Expr
  value : Except EvalError (List Tuple)

def Argument.members (a : Argument) : Except EvalError (List Member) := do
  (← a.value).mapM single

def singletons (ms : List Member) : List Tuple :=
  distinct (ms.map ([·]))

def evalBrace (args : List Argument) : Except EvalError (List Tuple) := do
  return distinct (← args.mapM (·.value)).flatten

def evalTuple (args : List Argument) : Except EvalError (List Tuple) := do
  let parts ← args.mapM fun a => do
    match ← a.value with
    | [t] => pure t
    | _ => throw .notSingleTuple
  return [parts.flatten]

def evalLevelMembers (hs : List Hierarchy) (l : Level) : Except EvalError (List Tuple) := do
  let h ← findHierarchy hs l.hierarchy
  return (h.members.filter (fun m => m.level == l)).map ([·])

def evalChildren (hs : List Hierarchy) (target : Argument) : Except EvalError (List Tuple) := do
  let found ← (← target.members).mapM fun m => do
    return (← findHierarchy hs m.hierarchy).children m
  return singletons found.flatten

def evalProperty (hs : List Hierarchy) (name : String) (args : List Argument) :
    Except EvalError (List Tuple) :=
  match name, args with
  | "Members", ⟨.level l, _⟩ :: _ => evalLevelMembers hs l
  | "Children", target :: _ => evalChildren hs target
  | _, _ => .error (.unknownProperty name)

def evalUnion (left right : Argument) : Except EvalError (List Tuple) := do
  let l ← left.value
  let r ← right.value
  return distinct (l ++ r)

/-- The right side is evaluated first. -/
def evalExcept (left right : Argument) : Except EvalError (List Tuple) := do
  let r ← right.value
  let l ← left.value
  return l.filter (fun t => !r.contains t)

/-- The right side is evaluated first. -/
def evalCrossJoin (left right : Argument) : Except EvalError (List Tuple) := do
  let r ← right.value
  let l ← left.value
  return distinct (l.flatMap fun t => r.map (t ++ ·))

def evalDescendants (hs : List Hierarchy) (accept : Nat → Member → Bool) (set : Argument) :
    Except EvalError (List Tuple) := do
  let found ← (← set.members).mapM fun root => do
    (← findHierarchy hs root.hierarchy).descendantsOf accept root
  return singletons found.flatten

def evalWithin (hs : List Hierarchy) (set : Argument) (distance : Int) (reach : String) :
    Except EvalError (List Tuple) :=
  if distance < 0 then .error (.negativeDistance distance)
  else match Reach.ofText? reach with
    | none => .error (.unknownReach reach)
    | some reach => evalDescendants hs (fun found _ => reach.accepts distance.toNat found) set

/-- The drills are evaluated first. -/
def evalDrilldown (hs : List Hierarchy) (set drills : Argument) :
    Except EvalError (List Tuple) := do
  let drills ← drills.members
  let found ← (← set.members).mapM fun m => do
    if drills.contains m then
      return (← findHierarchy hs m.hierarchy).drillDown drills m
    else return [m]
  return singletons found.flatten

def evalFunction (hs : List Hierarchy) (name : String) (args : List Argument) :
    Except EvalError (List Tuple) :=
  match name, args with
  | "Union", [left, right] => evalUnion left right
  | "Except", [left, right] => evalExcept left right
  | "CrossJoin", [left, right] => evalCrossJoin left right
  | "Descendants", [set, ⟨.level l, _⟩] =>
    evalDescendants hs (fun _ m => m.depth == l.depth) set
  | "Descendants", [set, ⟨.number distance, _⟩, ⟨.symbol reach, _⟩] =>
    evalWithin hs set distance reach
  | "DrilldownMember", [set, drills, ⟨.symbol "RECURSIVE", _⟩] => evalDrilldown hs set drills
  | _, _ => .error (.unknownFunction name args.length)

def evalCall (hs : List Hierarchy) (form : CallForm) (name : String) (args : List Argument) :
    Except EvalError (List Tuple) :=
  match form with
  | .brace => evalBrace args
  | .tuple => evalTuple args
  | .property => evalProperty hs name args
  | .function => evalFunction hs name args

mutual

/-- The tuples an expression denotes over `hs`, in order. -/
def evaluate (hs : List Hierarchy) : Expr → Except EvalError (List Tuple)
  | .member m => .ok [[m]]
  | .level l => .error (.bareLevel l)
  | .number n => .error (.bareNumber n)
  | .symbol s => .error (.bareSymbol s)
  | .call form name args => evalCall hs form name (arguments hs args)

def arguments (hs : List Hierarchy) : List Expr → List Argument
  | [] => []
  | e :: es => ⟨e, evaluate hs e⟩ :: arguments hs es

end

/-- The members denoted by an expression over one hierarchy. -/
def evaluateMembers (hs : List Hierarchy) (e : Expr) : Except EvalError (List Member) := do
  (← evaluate hs e).mapM single

end Expr
end CubeAxis
