import CubeAxis.AxisSet
import CubeAxis.MemberSet
import CubeAxis.Resolution.Pool
import CubeAxis.Resolution.Region
import CubeAxis.Sorting

namespace CubeAxis
namespace Expanded

/-- What the nodes above have already shown: of a node's member, of its children
and of its deeper descendants. -/
structure Ambient where
  member : Sign
  children : Sign
  deeper : Sign

/-- Before the walk nothing is shown. -/
def Ambient.nothing : Ambient := ⟨.excluded, .excluded, .excluded⟩

/-- The positions still unclaimed, the set built so far, and by depth the members
whose subtrees are cut out of a level-wide set. -/
structure Progress where
  pool : Pool
  axis : AxisSet := {}
  cutOuts : List (Nat × Member) := []

namespace Progress

def add (p : Progress) (e : Expr) : Progress := { p with axis := p.axis.add e }

def addMember (p : Progress) (m : Member) : Progress := { p with axis := p.axis.addMember m }

def exclude (p : Progress) (e : Expr) : Progress := { p with axis := p.axis.exclude e }

def undrill (p : Progress) (m : Member) : Progress := { p with axis := p.axis.undrill m }

def cutOut (p : Progress) (depth : Nat) (m : Member) : Progress :=
  { p with cutOuts := p.cutOuts ++ [(depth, m)] }

def when (condition : Bool) (change : Progress → Progress) (p : Progress) : Progress :=
  if condition then change p else p

end Progress

/-- Shows a member, its children and its deeper descendants, as asked, in as few
sets as possible. -/
def showParts (m : Member) (self children deeper : Bool) (p : Progress) : Progress :=
  match self, children, deeper with
  | true, true, true => p.add (Expr.within (.member m) 0 .selfAndAfter)
  | self, true, true =>
    (p.when self (·.addMember m)).add (Expr.within (.member m) 1 .selfAndAfter)
  | self, children, deeper =>
    ((p.when self (·.addMember m)).when children (·.add (Expr.children m))).when deeper
      (·.add (Expr.within (.member m) 2 .selfAndAfter))

/-- The sets that hold the members two levels or more below `m`, on the levels
at the depths `unsigned`, outside the subtrees of `overridden`. -/
def deeperSets (levels : List Level) (m : Member) (overridden : List Member)
    (unsigned : List Nat) : List Expr :=
  if unsigned.length + m.depth + 2 = levels.length then
    if overridden.isEmpty then [Expr.within (.member m) 2 .selfAndAfter]
    else [Expr.within (MemberSet.grandchildrenOutside m overridden).expr 0 .selfAndAfter]
  else
    unsigned.filterMap fun d => levels[d]?.map fun level =>
      (MemberSet.descendants m level (distinct overridden)).expr

/-- Removes the deeper members of a region, exactly. -/
def excludeDeeper (levels : List Level) (m : Member) (overridden : List Member)
    (unsigned : List Nat) (p : Progress) : Progress :=
  (deeperSets levels m overridden unsigned).foldl Progress.exclude p

/-- Of the candidates, outermost first, those below no other. -/
def outermost (candidates : List Member) : List Member :=
  (sortBy Member.depth candidates).foldl keepUnlessBelow []
where
  keepUnlessBelow (kept : List Member) (m : Member) : List Member :=
    if m.ancestors.any kept.contains then kept else insertNew kept m

/-- Closes the members of a region that are recorded and included. -/
def closeRegion (r : Region) (p : Progress) : Progress :=
  let (taken, pool) := p.pool.takeWhere fun m => r.owns m && (r.signAt m.depth).isIncluded
  (outermost taken).foldl Progress.undrill { p with pool := pool }

/-- Records the members that more specific signs cut out of level-wide sets. -/
def cutOutNode (r : Region) (m : Member) (p : Progress) : Progress :=
  let p := p.when ((r.levelSign m.depth).isSome && r.site.state.member.isSome)
    (·.cutOut m.depth m)
  p.when (r.hasExplicitChildren && (r.levelSign (m.depth + 1)).isSome)
    (·.cutOut (m.depth + 1) m)

/-- The sign the walk has to give the children of a node; none where a level-wide
set takes care of them. -/
def childrenTarget (r : Region) : Option Sign :=
  if r.hasExplicitChildren || (r.levelSign r.childrenDepth).isNone then
    some (r.signAt r.childrenDepth)
  else none

/-- The depths below the children that have no level-wide sign. -/
def unsignedDepths (r : Region) : List Nat :=
  (List.range' (r.childrenDepth + 1) (r.levels.length - (r.childrenDepth + 1))).filter
    fun d => (r.levelSign d).isNone

/-- Brings the region of a node from what is shown to what should be: what is
missing is shown together with the member, if `self` asks for it, and what is too
much is removed. The answer is the ambient of the nodes below. -/
def showRegion (r : Region) (m : Member) (ambient : Ambient) (self : Bool) (p : Progress) :
    Ambient × Progress :=
  let inside : Bool := r.childrenDepth < r.levels.length
  let target := childrenTarget r
  let children := inside && target = some .included && ambient.children = .excluded
  let p := p.when (inside && target = some .excluded && ambient.children = .included)
    (·.exclude (MemberSet.childrenExpr m r.overridden))
  let wanted := r.site.descendantsDefault.sign
  let unsigned := unsignedDepths r
  let differs := inside && !unsigned.isEmpty && wanted != ambient.deeper
  let deeper := differs && wanted = .included
  let p := p.when (differs && wanted = .excluded) (excludeDeeper r.levels m r.overridden unsigned)
  let p := closeRegion r (showParts m self children deeper p)
  let below := if deeper then .included else ambient.deeper
  (⟨if children then .included else ambient.children, below, below⟩, p)

/-- Shows one node. The answer is `none` where the member is closed, so that
nothing below it matters, else the ambient of the nodes below. -/
def enter (tree : SelectionTree) (levels : List Level) (i : Inherited) (ambient : Ambient)
    (m : Member) (o : Override) (children : Forest Override) (p : Progress) :
    Option Ambient × Progress :=
  let r : Region := ⟨tree, levels, ⟨some (m, i), o.state, o.sequence, children⟩⟩
  let levelSign := r.levelSign m.depth
  let final := (i.memberSign o.state).withLevel levelSign
  let p := cutOutNode r m p
  let byLevel := levelSign.isSome && o.state.member.isNone && i.children.isNone
  let differs := !byLevel && final != ambient.member
  let self := differs && final.isIncluded
  let p := p.when (differs && !final.isIncluded)
    (fun p => { p with axis := p.axis.excludeMember m })
  let (found, pool) := p.pool.take m
  if final.isIncluded && found then
    (none, (({ p with pool := pool } : Progress).when self (·.addMember m)).undrill m)
  else
    let (ambient, p) := showRegion r m ambient self p
    (some ambient, p)

/-- Shows the nodes of a forest with everything below them. -/
def visit (tree : SelectionTree) (levels : List Level) (i : Inherited) (ambient : Ambient) :
    Forest Override → Progress → Progress
  | .nil, p => p
  | .cons m o children siblings, p =>
    let (below, p) := enter tree levels i ambient m o children p
    let p := match below with
      | none => p
      | some ambient => visit tree levels (i.handDown o.state) ambient children p
    visit tree levels i ambient siblings p

/-- The set of one level-wide sign, less the members cut out of it. -/
def showLevel (tree : SelectionTree) (p : Progress) (level : Level) (depth : Nat) : Progress :=
  let cut := p.cutOuts.filterMap fun c => if c.1 = depth then some c.2 else none
  let set := (MemberSet.level level (distinct cut)).expr
  match tree.levelSign level with
  | none => p
  | some .included => p.add set
  | some .excluded => p.exclude set

/-- Shows the level-wide sets, outermost level first. -/
def showLevels (tree : SelectionTree) (levels : List Level) (p : Progress) : Progress :=
  levels.zipIdx.foldl (fun p l => showLevel tree p l.1 l.2) p

/-- What a hierarchy shows that starts out expanded: the included members without
an included ancestor in the pool. Claimed positions leave the pool. -/
def resolve (tree : SelectionTree) (levels : List Level) (pool : Pool) : Progress :=
  let p := closeRegion ⟨tree, levels, tree.rootSite⟩ { pool := pool }
  showLevels tree levels (visit tree levels .top .nothing tree.overrides p)

end Expanded
end CubeAxis
