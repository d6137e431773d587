import CubeAxis.Selection.Tree

namespace CubeAxis

/-- How a hierarchy starts out, and so what a recorded position means. -/
inductive Mode where
  /-- closed; a position opens a member -/
  | collapsed
  /-- open; a position closes a member -/
  | expanded
  deriving DecidableEq, Repr

namespace Mode

def text : Mode → String
  | collapsed => "collapsed"
  | expanded => "expanded"

def ofText? : String → Option Mode
  | "collapsed" => some collapsed
  | "expanded" => some expanded
  | _ => none

/-- Whether an included member is shown: every included ancestor is open. -/
def opens (mode : Mode) (positions includedAncestors : List Member) : Bool :=
  match mode with
  | collapsed => includedAncestors.all positions.contains
  | expanded => !includedAncestors.any positions.contains

/-- Whether a member is shown under a selection and recorded positions. -/
def isVisible (mode : Mode) (tree : SelectionTree) (positions : List Member) (m : Member) :
    Bool :=
  tree.isIncluded m && mode.opens positions (m.ancestors.filter tree.isIncluded)

end Mode
end CubeAxis
