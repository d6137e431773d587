import CubeAxis.Selection.Tree
import CubeAxis.Sorting

namespace CubeAxis

/-- The actions that record the states of all nodes, each with its number. -/
def Forest.numberedSelections : Forest Override → List (Nat × Selection)
  | .nil => []
  | .cons m o children siblings =>
    (o.state.selections m).map (o.sequence, ·) ++
      (children.numberedSelections ++ siblings.numberedSelections)

namespace SelectionTree

def numberedSelections (t : SelectionTree) : List (Nat × Selection) :=
  t.overrides.numberedSelections ++
    t.levels.map fun o => (o.sequence, .onLevel o.sign o.level)

/-- A list of actions that leads back to the tree, in the order of the numbers. -/
def selections (t : SelectionTree) : List Selection :=
  (sortBy (·.1) t.numberedSelections).map (·.2)

/-- The tree after a list of actions on an empty one. -/
def ofSelections (as : List Selection) : SelectionTree :=
  as.foldl apply empty

def replay (t : SelectionTree) : SelectionTree :=
  ofSelections t.selections

end SelectionTree
end CubeAxis
