import CubeAxis.Toml.Draft
import CubeAxis.Toml.Quoted

namespace CubeAxis.Toml

/-- Nothing nests deeper than this, and no key has as many parts. -/
def depthLimit : Nat := 80

def isKeyChar (c : Char) : Bool := c.isAlphanum || c == '_' || c == '-'

/-- One part of a key, bare or quoted. -/
def simpleKey (cs : List Char) : Option (String × List Char) :=
  match cs with
  | '"' :: _ => quotedLine cs
  | '\'' :: _ => quotedLine cs
  | _ =>
    let (key, rest) := cs.span isKeyChar
    if key.isEmpty then none else some (String.ofList key, rest)

/-- A key of several parts with dots in between. -/
def dottedKey : (fuel : Nat) → List Char → Option (List String × List Char)
  | 0, _ => none
  | fuel + 1, cs => do
    let (part, rest) ← simpleKey cs
    match skipBlanks rest with
    | '.' :: more => do
      let (parts, rest) ← dottedKey fuel (skipBlanks more)
      return (part :: parts, rest)
    | _ => return ([part], rest)

def key (cs : List Char) : Option (List String × List Char) :=
  dottedKey (depthLimit - 1) cs

/-- Skips a comment up to the end of its line. -/
def skipComment : List Char → List Char
  | '#' :: cs => cs.dropWhile isPlain
  | cs => cs

/-- Skips blanks, comments and line ends. -/
def skipLines : (fuel : Nat) → List Char → List Char
  | 0, cs => cs
  | fuel + 1, cs =>
    let cs := skipComment (skipBlanks cs)
    match lineEnd? cs with
    | some rest => skipLines fuel rest
    | none => cs

/-- The rest of an array after its bracket or a comma. -/
def arrayItems (item : List Char → Option (Document × List Char)) :
    (fuel : Nat) → List Char → Option (List Document × List Char)
  | 0, _ => none
  | fuel + 1, cs =>
    match skipLines cs.length cs with
    | ']' :: rest => some ([], rest)
    | cs => do
      let (d, rest) ← item cs
      match skipLines rest.length rest with
      | ',' :: rest => do
        let (ds, rest) ← arrayItems item fuel rest
        return (d :: ds, rest)
      | ']' :: rest => return ([d], rest)
      | _ => none

/-- A key with its value. -/
def keyValue (item : List Char → Option (Document × List Char)) (cs : List Char) :
    Option ((List String × Document) × List Char) := do
  let (path, rest) ← key cs
  match skipBlanks rest with
  | '=' :: rest => do
    let (d, rest) ← item (skipBlanks rest)
    return ((path, d), rest)
  | _ => none

/-- The rest of an inline table from an entry on. -/
def inlineEntries (item : List Char → Option (Document × List Char)) :
    (fuel : Nat) → Entries → List Char → Option (Entries × List Char)
  | 0, _, _ => none
  | fuel + 1, entries, cs => do
    let ((path, d), rest) ← keyValue item (skipBlanks cs)
    let entries ← insertValue path d entries
    match skipBlanks rest with
    | ',' :: rest => inlineEntries item fuel entries rest
    | '\x7d' :: rest => return (entries, rest)
    | _ => none

/-- A table on one line, after its brace. -/
def inlineTable (item : List Char → Option (Document × List Char)) (cs : List Char) :
    Option (Document × List Char) :=
  match skipBlanks cs with
  | '\x7d' :: rest => some (.table [], rest)
  | cs => do
    let (entries, rest) ← inlineEntries item (cs.length + 1) [] cs
    return (.table (finishEntries entries), rest)

/-- A value in which arrays and inline tables nest at most `room` deep. -/
def value (room : Nat) (cs : List Char) : Option (Document × List Char) :=
  match room, cs with
  | room + 1, '[' :: rest => do
    let (items, rest) ← arrayItems (value room) (rest.length + 1) rest
    return (.array items, rest)
  | room + 1, '\x7b' :: rest => inlineTable (value room) rest
  | _, '"' :: _ => (quoted cs).map fun (s, rest) => (.string s, rest)
  | _, '\'' :: _ => (quoted cs).map fun (s, rest) => (.string s, rest)
  | _, _ =>
    let (word, rest) := takeWord cs
    (scalar? word).map (·, rest)

/-- The end of a line after its contents. -/
def closeLine (cs : List Char) : Option (List Char) :=
  match skipComment (skipBlanks cs) with
  | [] => some []
  | cs => lineEnd? cs

/-- A header in its brackets, and the rest. -/
def bracketed (close : List Char) (cs : List Char) : Option (List String × List Char) := do
  let (path, rest) ← key (skipBlanks cs)
  let rest := skipBlanks rest
  guard (close.isPrefixOf rest)
  return (path, rest.drop close.length)

/-- The lines of a document from a table on. `path` names the table. -/
def lines : (fuel : Nat) → (path : List String) → Entries → List Char → Option Entries
  | 0, _, _, _ => none
  | fuel + 1, path, root, cs =>
    match skipLines cs.length cs with
    | [] => some root
    | '[' :: '[' :: rest => do
      let (path, rest) ← bracketed [']', ']'] rest
      lines fuel path (← openArrayTable path root) (← closeLine rest)
    | '[' :: rest => do
      let (path, rest) ← bracketed [']'] rest
      lines fuel path (← openTable path root) (← closeLine rest)
    | cs => do
      let ((key, d), rest) ← keyValue (value (depthLimit - 1)) cs
      lines fuel path (← inTable path (insertValue key d) root) (← closeLine rest)

/-- Reads a document. A byte order mark may stand in front. -/
def read? (text : String) : Option Document :=
  let cs := match text.toList with
    | '\ufeff' :: cs => cs
    | cs => cs
  (lines (cs.length + 1) [] [] cs).map fun root => .table (finishEntries root)

end CubeAxis.Toml
