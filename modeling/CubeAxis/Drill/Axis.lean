import CubeAxis.Drill.Tree
import CubeAxis.Expr.CrossJoin
import CubeAxis.Resolution.Dimension

namespace CubeAxis
namespace DrillTree

/-- Whether a member is shown at the end of a path of shown members. -/
def shows (t : DrillTree) (dims : List AxisDimension) (path : List Member) (m : Member) : Bool :=
  dims[path.length]?.any fun d => d.isVisible (t.drilledAt path) m

/-- The recorded positions whose members are all shown. -/
def visiblePositions (t : DrillTree) (dims : List AxisDimension) : List Position :=
  (t.visit (t.shows dims)).flatMap fun node =>
    (node.2.filter (t.shows dims node.1)).map (node.1 ++ [·])

/-- Adds the terms of one trie node. `rest` are the dimensions after that of the
node, each with what it shows without positions; `crossed` is the way to the
node. Shown members with recorded positions below them get terms of their own;
all others share one. -/
def addTerms (crossed : CrossJoin) (dim : AxisDimension) :
    List (AxisDimension × Expr) → (drilled : List Member) → Forest (List Member) →
    UnionTerms → UnionTerms
  | [], drilled, _, union =>
    let shown := dim.resolve drilled
    if shown.isEmpty then union else addTerm (crossed.join shown.expr) union
  | (next, full) :: rest, drilled, below, union =>
    let shown := dim.resolve drilled
    if shown.isEmpty then union
    else
      let apart := below.trees.filter fun (m, ms, children) =>
        (!ms.isEmpty || children.anyDrilled) && dim.isVisible drilled m
      let shared := apart.foldl (fun s (m, _, _) => s.excludeMember m) shown
      let fulls := full :: rest.map (·.2)
      let union :=
        if fulls.any Expr.isEmptySet then union
        else addTerm ((crossed.join shared.expr).joinAll fulls) union
      apart.foldl
        (fun union (m, ms, children) =>
          addTerms (crossed.join (Expr.members [m])) next rest ms children union)
        union
where
  addTerm (c : CrossJoin) (union : UnionTerms) : UnionTerms :=
    c.expr?.elim union union.add

/-- A set expression for the whole axis. A single tuple is put into a set. -/
def axisExpr (t : DrillTree) (dims : List AxisDimension) : Expr :=
  match dims with
  | [] => Expr.emptySet
  | dim :: rest =>
    let union := addTerms {} dim (rest.map fun d => (d, d.fullExpr)) t.drilled t.below {}
    let expr := union.expr
    if expr.form? = some .tuple then Expr.brace [expr] else expr

end DrillTree
end CubeAxis
