import CubeAxis.Expr

namespace CubeAxis

/-- The terms of a union under construction. Members are kept apart from the
other terms: they end up in one brace set, in front. -/
structure UnionTerms where
  members : List Member := []
  others : List Expr := []

namespace UnionTerms

def addMember (u : UnionTerms) (m : Member) : UnionTerms :=
  { u with members := u.members ++ [m] }

/-- The members of a list that holds nothing else. -/
def memberList? : List Expr → Option (List Member)
  | [] => some []
  | .member m :: es => (memberList? es).map (m :: ·)
  | _ => none

/-- The members an expression lists outright: a member by itself or a brace set
of nothing but members. -/
def listed? : Expr → Option (List Member)
  | .member m => some [m]
  | .call .brace _ args => memberList? args
  | _ => none

/-- Takes listed members apart and keeps any other expression whole. -/
def add (u : UnionTerms) (e : Expr) : UnionTerms :=
  match listed? e with
  | some ms => { u with members := u.members ++ ms }
  | none => { u with others := u.others ++ [e] }

def isEmpty (u : UnionTerms) : Bool :=
  u.members.isEmpty && u.others.isEmpty

/-- The left fold of a nonempty list by binary unions. -/
def foldUnion? : List Expr → Option Expr
  | [] => none
  | e :: es => some (es.foldl Expr.union e)

/-- The union of all terms, if there is one. -/
def expr? (u : UnionTerms) : Option Expr :=
  match u.members, foldUnion? u.others with
  | [], others => others
  | ms, none => some (Expr.members ms)
  | ms, some others => some (Expr.union (Expr.members ms) others)

/-- The union of all terms; without terms, the empty set. -/
def expr (u : UnionTerms) : Expr :=
  u.expr?.getD Expr.emptySet

end UnionTerms
end CubeAxis
