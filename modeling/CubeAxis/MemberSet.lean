import CubeAxis.Distinct
import CubeAxis.Expr

namespace CubeAxis

/-- A set of members told by structure. Membership is read off the member and
its ancestors; the hierarchy is never enumerated. -/
inductive MemberSet where
  /-- the children of `parent` other than those left out -/
  | children (parent : Member) (leftOut : List Member)
  /-- the grandchildren of `parent` through children that are not left out -/
  | grandchildren (parent : Member) (leftOut : List Member)
  /-- the members of a level at or below `root`, less the left-out subtrees -/
  | descendants (root : Member) (level : Level) (leftOut : List Member)
  /-- the members of a level, less the left-out subtrees -/
  | level (level : Level) (leftOut : List Member)
  /-- the root members of a hierarchy, `level` being its first level -/
  | roots (level : Level) (leftOut : List Member)
  /-- the listed members -/
  | listed (members : List Member)

namespace MemberSet

/-- At or below: the first argument is the second or one of its ancestors. -/
def covers (a m : Member) : Bool :=
  a == m || a.isAncestorOf m

def contains : MemberSet → Member → Bool
  | children parent leftOut, m => m.parent?.any (· == parent) && !leftOut.contains m
  | grandchildren parent leftOut, m =>
    m.parent?.any fun p => p.parent?.any (· == parent) && !leftOut.contains p
  | descendants root l leftOut, m =>
    m.depth == l.depth && covers root m && !leftOut.any (covers · m)
  | level l leftOut, m => m.level == l && !leftOut.any (covers · m)
  | roots l leftOut, m => m.parent?.isNone && m.level == l && !leftOut.contains m
  | listed members, m => members.contains m

/-- The grandchildren of `parent`, skipping the subtrees of the given children. -/
def grandchildrenOutside (parent : Member) (skipped : List Member) : MemberSet :=
  grandchildren parent (distinct skipped)

/-- Whether the member or one of its ancestors is in the set. -/
def containsAncestorOf (s : MemberSet) (m : Member) : Bool :=
  m.upward.any s.contains

/-- The set `all`, less what is left out if anything is. -/
def without (all : Expr) (leftOut : List Member) (removed : Expr) : Expr :=
  if leftOut.isEmpty then all else Expr.except all removed

def childrenExpr (parent : Member) (leftOut : List Member) : Expr :=
  without (Expr.children parent) leftOut (Expr.members leftOut)

def expr : MemberSet → Expr
  | children parent leftOut => childrenExpr parent leftOut
  | grandchildren parent leftOut =>
    if leftOut.isEmpty then Expr.within (.member parent) 2 .self
    else Expr.within (childrenExpr parent leftOut) 1 .self
  | descendants root l leftOut =>
    without (Expr.descendantsAt (.member root) l) leftOut
      (Expr.descendantsAt (Expr.members leftOut) l)
  | level l leftOut =>
    without (Expr.levelMembers l) leftOut (Expr.descendantsAt (Expr.members leftOut) l)
  | roots l leftOut => without (Expr.levelMembers l) leftOut (Expr.members leftOut)
  | listed members => Expr.members members

/-- Takes a member out: with its subtree where whole subtrees are left out. The
grandchildren have no list of members to leave out, so nothing can be taken out
of them. -/
def remove? : MemberSet → Member → Option MemberSet
  | children parent leftOut, m => some (children parent (insertNew leftOut m))
  | grandchildren .., _ => none
  | descendants root l leftOut, m => some (descendants root l (insertNew leftOut m))
  | level l leftOut, m => some (level l (insertNew leftOut m))
  | roots l leftOut, m => some (roots l (insertNew leftOut m))
  | listed members, m => some (listed (members.filter (fun k => !(k == m))))

/-- Only a listed set can be added to. -/
def add? : MemberSet → Member → Option MemberSet
  | listed members, m => some (listed (insertNew members m))
  | _, _ => none

end MemberSet
end CubeAxis
