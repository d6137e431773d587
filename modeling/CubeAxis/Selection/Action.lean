import CubeAxis.Member
import CubeAxis.Selection.State

namespace CubeAxis

inductive SelectionTarget where
  | member (m : Member)
  /-- every member of a level -/
  | level (l : Level)

/-- One selection action. The operator plays no part for a level. -/
structure Selection where
  sign : Sign
  operator : Operator
  target : SelectionTarget

namespace Selection

def onMember (s : Sign) (op : Operator) (m : Member) : Selection := ⟨s, op, .member m⟩

def onLevel (s : Sign) (l : Level) : Selection := ⟨s, .member, .level l⟩

/-- The operator and target, as text. -/
def targetText (a : Selection) : String :=
  match a.target with
  | .member m => a.operator.text ++ " " ++ m.uniqueName
  | .level l => "level " ++ l.uniqueName

def text (a : Selection) : String :=
  a.sign.text ++ " " ++ a.targetText

/-- Equality up to the unique names of targets. -/
def same (a b : Selection) : Bool :=
  a.sign == b.sign && a.operator == b.operator &&
    match a.target, b.target with
    | .member m, .member k => m == k
    | .level l, .level k => l == k
    | _, _ => false

instance : BEq Selection := ⟨same⟩

end Selection

/-- The fewest actions that record a state on a member. -/
def SelectionState.selections (st : SelectionState) (m : Member) : List Selection :=
  (st.descendants.map (.onMember · .descendants m)).toList ++
    if st.member = st.children then
      (st.member.map (.onMember · .memberAndChildren m)).toList
    else
      (st.member.map (.onMember · .member m)).toList ++
        (st.children.map (.onMember · .children m)).toList

end CubeAxis
