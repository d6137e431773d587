import CubeAxis.Selection.Action
import Std.Data.ExtTreeSet

namespace CubeAxis

instance : Ord Operator := ⟨compareOn Operator.ctorIdx⟩

instance : Std.TransOrd Operator :=
  inferInstanceAs (Std.TransCmp (compareOn Operator.ctorIdx))

instance : Std.LawfulEqOrd Operator where
  eq_of_compare {a b} same := by cases a <;> cases b <;> first | rfl | cases same

/-- The signs recorded on one node, as the operators that have either sign. -/
structure SignSets where
  included : Std.ExtTreeSet Operator := ∅
  excluded : Std.ExtTreeSet Operator := ∅

namespace SignSets

def isEmpty (st : SignSets) : Bool :=
  st.included.isEmpty && st.excluded.isEmpty

def insert (st : SignSets) (s : Sign) (op : Operator) : SignSets :=
  match s with
  | .included => { st with included := st.included.insert op }
  | .excluded => { st with excluded := st.excluded.insert op }

/-- The recorded sign, without any default. -/
def sign (st : SignSets) (op : Operator) : Option Sign :=
  if st.included.contains op then some .included
  else if st.excluded.contains op then some .excluded
  else none

/-- Records a sign for the member or its children, unless it is the default anyway. -/
def record (st : SignSets) (s : Sign) (op : Operator) (inherited : Option Sign) : SignSets :=
  let without : SignSets := ⟨st.included.erase op, st.excluded.erase op⟩
  if (st.sign .descendants).or inherited = some s then without else without.insert s op

/-- Records an action. `inherited` is the sign that holds without a record. A subtree sign
forgets the others. -/
def apply (st : SignSets) (s : Sign) (op : Operator) (inherited : Option Sign) : SignSets :=
  match op with
  | .descendants => ({} : SignSets).insert s .descendants
  | .member | .children => st.record s op inherited
  | .memberAndChildren => (st.record s .member inherited).record s .children inherited
  | .ancestors | .siblings => st

/-- The state of a node whose subtree has the sign `s`. -/
def withDescendants (s : Sign) : SignSets :=
  ({} : SignSets).apply s .descendants none

/-- The sign in force: the recorded one, then the subtree sign, then `fallback`. -/
def effectiveSign (st : SignSets) (op : Operator) (fallback : Option Sign) : Option Sign :=
  match op with
  | .member | .children => ((st.sign op).or (st.sign .descendants)).or fallback
  | .descendants => (st.sign .descendants).or fallback
  | .memberAndChildren | .ancestors | .siblings => fallback

/-- The fewest actions that record the signs on a member. -/
def selections (st : SignSets) (m : Member) : List Selection :=
  ((st.sign .descendants).map (.onMember · .descendants m)).toList ++
    if st.sign .member = st.sign .children then
      ((st.sign .member).map (.onMember · .memberAndChildren m)).toList
    else
      ((st.sign .member).map (.onMember · .member m)).toList ++
        ((st.sign .children).map (.onMember · .children m)).toList

/-- A node's name with its recorded signs. -/
def caption (st : SignSets) (name : String) : String :=
  let signs := [Operator.member, .children, .descendants].filterMap fun op =>
    (st.sign op).map fun s => s.text ++ " " ++ op.text
  if signs.isEmpty then name else name ++ " [" ++ ", ".intercalate signs ++ "]"

end SignSets
end CubeAxis
