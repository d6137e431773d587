import CubeAxis.Expr

namespace CubeAxis
namespace Expr

/-- The elements an expression contributes to a tuple: a member, a brace set of
one member and a tuple can be written inside a tuple, other expressions cannot. -/
def tupleElements? : Expr → Option (List Expr)
  | member m => some [member m]
  | call .brace _ [member m] => some [member m]
  | call .tuple _ args => some args
  | _ => none

/-- The cross product of two expressions, as a tuple where both sides fit in one. -/
def join (left right : Expr) : Expr :=
  match left.tupleElements?, right.tupleElements? with
  | some l, some r => tuple (l ++ r)
  | _, _ => crossJoin left right

end Expr

/-- A cross product under construction; nothing has been joined at first. -/
structure CrossJoin where
  expr? : Option Expr := none

namespace CrossJoin

/-- The first expression is kept as it is, later ones are joined from the right. -/
def join (c : CrossJoin) (e : Expr) : CrossJoin :=
  ⟨some (c.expr?.elim e (fun left => left.join e))⟩

def joinMember (c : CrossJoin) (m : Member) : CrossJoin :=
  c.join (.member m)

def joinAll (c : CrossJoin) (es : List Expr) : CrossJoin :=
  es.foldl join c

def isEmpty (c : CrossJoin) : Bool :=
  c.expr?.isNone

end CrossJoin
end CubeAxis
