namespace CubeAxis

/-- A level of a hierarchy: the members at one depth. -/
structure Level where
  hierarchy : String
  name : String
  depth : Nat

def Level.uniqueName (l : Level) : String :=
  "[" ++ l.hierarchy ++ "].[" ++ l.name ++ "]"

/-- Levels are told apart by unique name alone: two levels of one name in a
hierarchy are the same level, whatever their depths. -/
instance : BEq Level := ⟨fun a b => a.uniqueName == b.uniqueName⟩

end CubeAxis
