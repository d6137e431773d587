namespace CubeAxis

/-- A structured document. Numbers and dates are never read here, so they stay as
they were written. -/
inductive Document where
  | null
  | bool (b : Bool)
  | scalar (text : String)
  | string (s : String)
  | array (items : List Document)
  | table (entries : List (String × Document))

/-- The format a document is written in. -/
inductive Format where
  | json
  | toml
  deriving DecidableEq

namespace Document

def string? : Document → Option String
  | string s => some s
  | _ => none

def bool? : Document → Option Bool
  | bool b => some b
  | _ => none

def array? : Document → Option (List Document)
  | array items => some items
  | _ => none

/-- Null where a value may be left out. -/
def nullable {α : Type} (read : Document → Option α) : Document → Option (Option α)
  | null => some none
  | d => (read d).map some

def list {α : Type} (read : Document → Option α) (d : Document) : Option (List α) :=
  d.array?.bind (·.mapM read)

/-- Says nothing: null, or in a format without null an empty table or array. -/
def saysNothing (format : Format) : Document → Bool
  | null => format = .json
  | table [] => format = .toml
  | array [] => format = .toml
  | _ => false

/-- A word of a closed vocabulary: the word itself, or a table with the word as
its only key and nothing to say about it. -/
def word {α : Type} (format : Format) (ofText? : String → Option α) : Document → Option α
  | string s => ofText? s
  | table [(s, d)] => if d.saysNothing format then ofText? s else none
  | _ => none

/-- The fields of a record: a table by key, or an array in the order of `keys`. A
missing field is `none`; keys that are not asked for are ignored. JSON arrays may
not be longer than the record. -/
def fields? (format : Format) (keys : List String) : Document → Option (List (Option Document))
  | table entries => some (keys.map (entries.lookup ·))
  | array items =>
    if format = .toml ∨ items.length ≤ keys.length then
      some (keys.zipIdx.map fun k => items[k.2]?)
    else none
  | _ => none

def isTable : Document → Bool
  | table _ => true
  | _ => false

end Document
end CubeAxis
