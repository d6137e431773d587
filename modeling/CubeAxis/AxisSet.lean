import CubeAxis.Expr.Union

namespace CubeAxis

/-- What one hierarchy shows on an axis, as four unions. Roots and drills may
overlap freely. Excluded members are not shown at all. -/
structure AxisSet where
  roots : UnionTerms := {}
  /-- members whose children are shown with them, recursively -/
  drills : UnionTerms := {}
  /-- members below which nothing is shown -/
  undrills : UnionTerms := {}
  excluded : UnionTerms := {}

namespace AxisSet

/-- Adds roots. -/
def add (a : AxisSet) (e : Expr) : AxisSet := { a with roots := a.roots.add e }

def addMember (a : AxisSet) (m : Member) : AxisSet := { a with roots := a.roots.addMember m }

def drill (a : AxisSet) (e : Expr) : AxisSet := { a with drills := a.drills.add e }

def undrill (a : AxisSet) (m : Member) : AxisSet := { a with undrills := a.undrills.addMember m }

def exclude (a : AxisSet) (e : Expr) : AxisSet := { a with excluded := a.excluded.add e }

def excludeMember (a : AxisSet) (m : Member) : AxisSet :=
  { a with excluded := a.excluded.addMember m }

def undrilled (a : AxisSet) : List Member := a.undrills.members

/-- Without roots nothing is shown, whatever the other parts hold. -/
def isEmpty (a : AxisSet) : Bool := a.roots.isEmpty

/-- The roots, opened at the drills. -/
def base? (a : AxisSet) : Option Expr :=
  a.roots.expr?.map fun roots => a.drills.expr?.elim roots (Expr.drilldownMember roots)

/-- Everything strictly below an undrilled member, and the excluded members. -/
def removed? (a : AxisSet) : Option Expr :=
  match a.undrills.expr?.map (Expr.within · 0 .after), a.excluded.expr? with
  | some hidden, some excluded => some (Expr.union hidden excluded)
  | some hidden, none => some hidden
  | none, excluded => excluded

/-- The roots opened at the drills, less what is removed. -/
def expr (a : AxisSet) : Expr :=
  match a.base?, a.removed? with
  | none, _ => Expr.emptySet
  | some base, some removed => Expr.except base removed
  | some base, none => base

end AxisSet
end CubeAxis
