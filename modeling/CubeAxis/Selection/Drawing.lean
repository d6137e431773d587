import CubeAxis.Selection.Tree

namespace CubeAxis

/-- A node's name with its recorded signs. -/
def SelectionState.caption (st : SelectionState) (name : String) : String :=
  let signs := [Operator.member, .children, .descendants].filterMap fun op =>
    (st.sign op).map fun s => s.text ++ " " ++ op.text
  if signs.isEmpty then name else name ++ " [" ++ ", ".intercalate signs ++ "]"

/-- One line per node, each hung from its parent; the last sibling closes the rail. -/
def Forest.drawing (rail : String) : Forest Override → List String
  | .nil => []
  | .cons m o children siblings =>
    let last := siblings.isEmpty
    (rail ++ (if last then "└── " else "├── ") ++ o.state.caption m.name) ::
      (children.drawing (rail ++ if last then "    " else "│   ") ++ siblings.drawing rail)

/-- The tree as text, every line ended. -/
def SelectionTree.drawing (t : SelectionTree) : String :=
  let root := (SelectionState.withDescendants .excluded).caption "(root)"
  String.join ((root :: t.overrides.drawing "").map (· ++ "\n"))

end CubeAxis
