import CubeAxis.Resolution.Collapsed
import CubeAxis.Resolution.Expanded
import CubeAxis.Resolution.Mode

namespace CubeAxis

/-- Resolves a selection against the positions in the pool. The answer is what
the hierarchy shows, and the positions nobody claimed. -/
def Mode.resolve (mode : Mode) (tree : SelectionTree) (levels : List Level) (pool : Pool) :
    AxisSet × Pool :=
  match mode with
  | .collapsed =>
    let p := Collapsed.resolve tree levels pool
    (p.axis, p.pool)
  | .expanded =>
    let p := Expanded.resolve tree levels pool
    (p.axis, p.pool)

/-- One hierarchy on an axis. -/
structure AxisDimension where
  selection : SelectionTree
  levels : List Level
  mode : Mode

namespace AxisDimension

def resolve (d : AxisDimension) (positions : List Member) : AxisSet :=
  (d.mode.resolve d.selection d.levels positions).1

/-- What is shown without any recorded position. -/
def fullExpr (d : AxisDimension) : Expr :=
  (d.resolve []).expr

def isVisible (d : AxisDimension) (positions : List Member) (m : Member) : Bool :=
  d.mode.isVisible d.selection positions m

end AxisDimension
end CubeAxis
