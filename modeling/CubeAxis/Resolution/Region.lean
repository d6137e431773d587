import CubeAxis.Selection.Node

namespace CubeAxis

/-- The members below a node that have no node of their own. Which sign they
have depends on their depth alone. -/
structure Region where
  tree : SelectionTree
  levels : List Level
  site : Site

namespace Region

def childrenDepth (r : Region) : Nat :=
  r.site.member?.elim 0 (fun m => m.depth + 1)

def levelSign (r : Region) (depth : Nat) : Option Sign :=
  r.tree.levelSignAt r.levels depth

def hasExplicitChildren (r : Region) : Bool :=
  r.site.state.children.isSome

/-- The final sign of the members at a depth. -/
def signAt (r : Region) (depth : Nat) : Sign :=
  let resolved := if depth = r.childrenDepth then r.site.childrenSign else r.site.descendantsDefault
  resolved.withLevel (r.levelSign depth)

/-- The depths from `start` on whose members are included, downwards. -/
def includedDepths (r : Region) (start : Nat) : List Nat :=
  (List.range' start (r.levels.length - start)).filter fun d => (r.signAt d).isIncluded

/-- The members that have a node below this one. -/
def overridden (r : Region) : List Member :=
  r.site.children.labels

/-- Whether a member lies in the region. -/
def owns (r : Region) (m : Member) : Bool :=
  r.childrenDepth ≤ m.depth &&
    r.site.member?.all (·.isAncestorOf m) &&
    (m.ancestorAt? r.childrenDepth).any fun top => !r.overridden.contains top

end Region
end CubeAxis
