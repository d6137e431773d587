namespace CubeAxis

/-- A step from a value to one of its parts. -/
inductive KeyStep where
  | field (name : String)
  | item (index : Int)
  deriving DecidableEq

/-- What a value has to be to have the part. -/
def KeyStep.holder : KeyStep → String
  | field _ => "map"
  | item _ => "sequence"

/-- A number that fits in a signed word of 64 bits. -/
def wordOfDigits? (negative : Bool) (digits : List Char) : Option Int := do
  let size ← (String.ofList digits).toNat?
  guard (size < 0x8000000000000000 + if negative then 1 else 0)
  return if negative then -(size : Int) else size

/-- A key of the settings: a name, and steps into its value. -/
structure SettingsKey where
  root : String
  steps : List KeyStep
  deriving DecidableEq

namespace SettingsKey

def isNameChar (c : Char) : Bool := c.isAlphanum || [' ', '_', '-'].contains c

/-- A name at the front, and the rest. -/
def name? (cs : List Char) : Option (String × List Char) :=
  let (name, rest) := cs.span isNameChar
  if name.isEmpty then none else some (String.ofList name, rest)

/-- The rest of an index after its bracket, blanks around the number. -/
def index? (cs : List Char) : Option (Int × List Char) := do
  let isBlank (c : Char) := c == ' ' || c == '\t'
  let cs := cs.dropWhile isBlank
  let negative := cs.head? == some '-'
  let (digits, rest) := (if negative then cs.drop 1 else cs).span Char.isDigit
  let index ← wordOfDigits? negative digits
  match rest.dropWhile isBlank with
  | ']' :: rest => some (index, rest)
  | _ => none

/-- Steps to the end of a key: names after dots and indices in brackets. -/
def steps? : (fuel : Nat) → List Char → Option (List KeyStep)
  | _, [] => some []
  | fuel + 1, '.' :: cs => do
    let (name, rest) ← name? cs
    return .field name :: (← steps? fuel rest)
  | fuel + 1, '[' :: cs => do
    let (index, rest) ← index? cs
    return .item index :: (← steps? fuel rest)
  | _, _ => none

def read? (text : String) : Option SettingsKey := do
  let (root, rest) ← name? text.toList
  return ⟨root, ← steps? rest.length rest⟩

/-- A list is filled up to the item asked for, which bounds the index. -/
def itemLimit : Int := 0x100000000000000

/-- The first index without an item: beyond the limit, or counted from the end of a
list, which is empty before its first item. -/
def missingItem? (key : SettingsKey) : Option Int :=
  key.steps.findSome? fun
    | .item index => if 0 ≤ index ∧ index < itemLimit then none else some index
    | .field _ => none

end SettingsKey
end CubeAxis
