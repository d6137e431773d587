import CubeAxis.AxisSet
import CubeAxis.MemberSet
import CubeAxis.Resolution.Pool
import CubeAxis.Resolution.Region

namespace CubeAxis
namespace Collapsed

/-- The positions still unclaimed and the set built so far. -/
structure Progress where
  pool : Pool
  axis : AxisSet := {}

/-- Opens the drilled members `taken`, which lie at `depth`, and goes on with the
drilled members they reveal. `depths` are the included depths further down. Where
levels in between are excluded, the members beyond are listed instead. -/
def openDepths (taken : List Member) (depth : Nat) : List Nat → Progress → Progress
  | [], p => p
  | next :: depths, p =>
    if taken.isEmpty then p
    else
      let axis :=
        if next = depth + 1 then p.axis.drill (Expr.members taken)
        else p.axis.add (Expr.within (Expr.members taken) ((next - depth : Nat) : Int) .self)
      let (below, pool) := p.pool.takeWhere fun m =>
        m.depth == next && (MemberSet.listed taken).containsAncestorOf m
      openDepths below next depths { pool := pool, axis := axis }

/-- Follows drills down a region from its outermost shown members, `frontier`,
which lie at depth `first`. -/
def openRegion (r : Region) (frontier : MemberSet) (first : Nat) (p : Progress) : Progress :=
  let (taken, pool) := p.pool.takeWhere fun m => m.depth == first && frontier.contains m
  openDepths taken first (r.includedDepths (first + 1)) { p with pool := pool }

/-- The first included depth of a region, with its level. -/
def frontierLevel? (r : Region) : Option (Nat × Level) := do
  let first ← (r.includedDepths r.childrenDepth).head?
  return (first, ← r.levels[first]?)

/-- Shows the region of a node. `drilled` tells whether the children of the node
are shown by a drill on it; the answer says whether they now are. -/
def showRegion (r : Region) (m : Member) (drilled : Bool) (p : Progress) : Bool × Progress :=
  match frontierLevel? r with
  | none => (false, p)
  | some (first, level) =>
    if first = r.childrenDepth then
      let frontier := MemberSet.children m (distinct r.overridden)
      let axis := if drilled then p.axis.drill (.member m) else p.axis.add frontier.expr
      (drilled, openRegion r frontier first { p with axis := axis })
    else
      let frontier := MemberSet.descendants m level (distinct r.overridden)
      (false, openRegion r frontier first { p with axis := p.axis.add frontier.expr })

/-- Shows one node. `revealed` tells whether every included ancestor is drilled,
`inBase` whether the member is shown by a drill on its parent. The answer is
`none` where nothing below the node is shown, else `inBase` for its children. -/
def enter (tree : SelectionTree) (levels : List Level) (i : Inherited) (revealed inBase : Bool)
    (m : Member) (o : Override) (children : Forest Override) (p : Progress) :
    Option Bool × Progress :=
  let included :=
    ((i.memberSign o.state).withLevel (tree.levelSignAt levels m.depth)).isIncluded
  let shown := revealed && included
  let (found, pool) := p.pool.take m
  let drilled := shown && found
  let pool := if shown then pool else p.pool
  let axis :=
    match shown, inBase with
    | true, false => p.axis.addMember m
    | false, true => p.axis.excludeMember m
    | _, _ => p.axis
  let p := { pool := pool, axis := axis }
  if if included then drilled else revealed then
    let region := ⟨tree, levels, ⟨some (m, i), o.state, o.sequence, children⟩⟩
    let (inBase, p) := showRegion region m drilled p
    (some inBase, p)
  else (none, p)

/-- Shows the nodes of a forest with everything below them. -/
def visit (tree : SelectionTree) (levels : List Level) (i : Inherited) (revealed inBase : Bool) :
    Forest Override → Progress → Progress
  | .nil, p => p
  | .cons m o children siblings, p =>
    let (openBelow, p) := enter tree levels i revealed inBase m o children p
    let p := match openBelow with
      | none => p
      | some inBase => visit tree levels (i.handDown o.state) true inBase children p
    visit tree levels i revealed inBase siblings p

/-- Shows the outermost included members that no node stands over. -/
def showRoots (tree : SelectionTree) (levels : List Level) (p : Progress) : Progress :=
  let region : Region := ⟨tree, levels, tree.rootSite⟩
  match frontierLevel? region with
  | none => p
  | some (first, level) =>
    let leftOut := distinct region.overridden
    let frontier := if first = 0 then MemberSet.roots level leftOut else .level level leftOut
    openRegion region frontier first { p with axis := p.axis.add frontier.expr }

/-- What a hierarchy shows that starts out collapsed: the included members whose
included ancestors are all drilled. Claimed positions leave the pool. -/
def resolve (tree : SelectionTree) (levels : List Level) (pool : Pool) : Progress :=
  visit tree levels .top true false tree.overrides (showRoots tree levels { pool := pool })

end Collapsed
end CubeAxis
