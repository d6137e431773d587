import CubeAxis.Member

namespace CubeAxis

/-- How a call is written. -/
inductive CallForm where
  /-- written `Name(arg, ...)` -/
  | function
  /-- written `arg.Name` -/
  | property
  /-- written `{arg, ...}` -/
  | brace
  /-- written `(arg, ...)` -/
  | tuple
  deriving DecidableEq, Repr

/-- Which descendants a distance takes, counted from the starting member. -/
inductive Reach where
  /-- those at the distance -/
  | self
  /-- those beyond it -/
  | after
  /-- those at the distance or beyond -/
  | selfAndAfter
  deriving DecidableEq, Repr

def Reach.text : Reach → String
  | self => "SELF"
  | after => "AFTER"
  | selfAndAfter => "SELF_AND_AFTER"

def Reach.ofText? : String → Option Reach
  | "SELF" => some self
  | "AFTER" => some after
  | "SELF_AND_AFTER" => some selfAndAfter
  | _ => none

def Reach.accepts : Reach → (distance found : Nat) → Bool
  | self, distance, found => found == distance
  | after, distance, found => distance < found
  | selfAndAfter, distance, found => distance ≤ found

/-- A set expression. Numbers and symbols stand only as arguments of calls. -/
inductive Expr where
  | member (m : Member)
  | level (l : Level)
  | number (n : Int)
  | symbol (s : String)
  | call (form : CallForm) (name : String) (args : List Expr)

namespace Expr

def function (name : String) (args : List Expr) : Expr := call .function name args

def property (target : Expr) (name : String) : Expr := call .property name [target]

def brace (args : List Expr) : Expr := call .brace "\x7b\x7d" args

def tuple (args : List Expr) : Expr := call .tuple "()" args

/-- The empty set literal. -/
def emptySet : Expr := brace []

/-- The set of the listed members. -/
def members (ms : List Member) : Expr := brace (ms.map member)

def children (m : Member) : Expr := property (member m) "Children"

def levelMembers (l : Level) : Expr := property (level l) "Members"

/-- Descendants by distance. -/
def within (set : Expr) (distance : Int) (reach : Reach) : Expr :=
  function "Descendants" [set, number distance, symbol reach.text]

/-- Descendants by a distance given as an unsigned word. It is read as a signed
word, so distances from 2^63 on become negative. -/
def descendants (set : Expr) (distance : UInt64) (reach : Reach) : Expr :=
  within set distance.toInt64.toInt reach

/-- Descendants on one level. -/
def descendantsAt (set : Expr) (l : Level) : Expr := function "Descendants" [set, level l]

def except (base removed : Expr) : Expr := function "Except" [base, removed]

def union (left right : Expr) : Expr := function "Union" [left, right]

def crossJoin (left right : Expr) : Expr := function "CrossJoin" [left, right]

def drilldownMember (set drills : Expr) : Expr :=
  function "DrilldownMember" [set, drills, symbol "RECURSIVE"]

def call? : Expr → Option (CallForm × String × List Expr)
  | call form name args => some (form, name, args)
  | _ => none

def form? (e : Expr) : Option CallForm := e.call?.map (·.1)

def isEmptySet : Expr → Bool
  | call .brace _ [] => true
  | _ => false

mutual

def text : Expr → String
  | member m => m.uniqueName
  | level l => l.uniqueName
  | number n => toString n
  | symbol s => s
  | call .function name args => name ++ "(" ++ ", ".intercalate (texts args) ++ ")"
  | call .property name [] => name
  | call .property name (target :: _) => target.text ++ "." ++ name
  | call .brace _ args => "\x7b" ++ ", ".intercalate (texts args) ++ "\x7d"
  | call .tuple _ args => "(" ++ ", ".intercalate (texts args) ++ ")"

def texts : List Expr → List String
  | [] => []
  | e :: es => e.text :: texts es

end

mutual

/-- Equality up to the unique names of members and levels. -/
def same : Expr → Expr → Bool
  | member a, member b => a == b
  | level a, level b => a == b
  | number a, number b => a == b
  | symbol a, symbol b => a == b
  | call f n as, call g m bs => f == g && n == m && sameAll as bs
  | _, _ => false

def sameAll : List Expr → List Expr → Bool
  | [], [] => true
  | a :: as, b :: bs => a.same b && sameAll as bs
  | _, _ => false

end

instance : BEq Expr := ⟨same⟩

end Expr
end CubeAxis
