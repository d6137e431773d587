import CubeAxis.Selection.Sign

namespace CubeAxis

/-- The signs recorded on one node: for the member, for its children and for
the whole subtree. They are stored as `SignSets`. -/
structure SelectionState where
  member : Option Sign := none
  children : Option Sign := none
  descendants : Option Sign := none
  deriving DecidableEq, Repr

namespace SelectionState

/-- The state of a node whose subtree has the sign `s`. -/
def withDescendants (s : Sign) : SelectionState := { descendants := some s }

def isEmpty (st : SelectionState) : Bool :=
  st == {}

/-- The recorded sign, without any default. Only the member, the children and
the subtree have one. -/
def sign (st : SelectionState) : Operator → Option Sign
  | .member => st.member
  | .children => st.children
  | .descendants => st.descendants
  | .memberAndChildren | .ancestors | .siblings => none

/-- What is recorded for the member or its children: nothing if the sign is the
default anyway, be it from the subtree sign or inherited. -/
def recorded (st : SelectionState) (s : Sign) (inherited : Option Sign) : Option Sign :=
  if st.descendants.or inherited = some s then none else some s

/-- Records an action. `inherited` is the sign that holds without a record. A
subtree sign forgets the others. -/
def apply (st : SelectionState) (s : Sign) (op : Operator) (inherited : Option Sign) :
    SelectionState :=
  match op with
  | .descendants => withDescendants s
  | .member => { st with member := st.recorded s inherited }
  | .children => { st with children := st.recorded s inherited }
  | .memberAndChildren =>
    { st with member := st.recorded s inherited, children := st.recorded s inherited }
  | .ancestors | .siblings => st

/-- The sign in force: the recorded one, then the subtree sign, then `fallback`. -/
def effectiveSign (st : SelectionState) (op : Operator) (fallback : Option Sign) :
    Option Sign :=
  match op with
  | .member => (st.member.or st.descendants).or fallback
  | .children => (st.children.or st.descendants).or fallback
  | .descendants => st.descendants.or fallback
  | .memberAndChildren | .ancestors | .siblings => fallback

end SelectionState
end CubeAxis
