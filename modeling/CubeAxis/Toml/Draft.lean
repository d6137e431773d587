import CubeAxis.Document

namespace CubeAxis.Toml

/-- How a table came to be. -/
inductive Origin where
  /-- on the way to a table named in a header -/
  | implied
  /-- by a header of its own -/
  | header
  /-- by a dotted key -/
  | dotted
  deriving DecidableEq

/-- A document under construction. A finished value takes no more entries; an
array of tables is open at its last table. -/
inductive Draft where
  | value (d : Document)
  | table (origin : Origin) (entries : List (String × Draft))
  | tables (closed : List (List (String × Draft))) (last : List (String × Draft))

abbrev Entries := List (String × Draft)

mutual

def Draft.finish : Draft → Document
  | .value d => d
  | .table _ entries => .table (finishEntries entries)
  | .tables closed last => .array (finishTables closed ++ [.table (finishEntries last)])

def finishEntries : List (String × Draft) → List (String × Document)
  | [] => []
  | (key, d) :: entries => (key, d.finish) :: finishEntries entries

def finishTables : List (List (String × Draft)) → List Document
  | [] => []
  | entries :: closed => .table (finishEntries entries) :: finishTables closed

end

/-- Replaces the entry of a key, or adds one at the end. -/
def putEntry (key : String) (d : Draft) : Entries → Entries
  | [] => [(key, d)]
  | (k, e) :: entries => if k == key then (k, d) :: entries else (k, e) :: putEntry key d entries

/-- Works on the table at the end of a path. Missing tables are made on the way
with the given origin; a dotted path may not lead through a table that has a
header. The table handed to `work` comes with its origin. -/
def descend (made : Origin) (work : Origin → Entries → Option Entries) (origin : Origin) :
    List String → Entries → Option Entries
  | [], entries => work origin entries
  | key :: path, entries =>
    match entries.lookup key with
    | none => do
      let inner ← descend made work made path []
      return putEntry key (.table made inner) entries
    | some (.value _) => none
    | some (.tables closed last) => do
      let last ← descend made work .header path last
      return putEntry key (.tables closed last) entries
    | some (.table o inner) =>
      if made = .dotted ∧ o = .header then none
      else do
        let inner ← descend made work o path inner
        return putEntry key (.table o inner) entries

/-- Adds a value under a dotted key. A key of several parts has to end in a table
made by dotted keys, and no key is given twice. -/
def insertValue (path : List String) (d : Document) : Entries → Option Entries :=
  descend .dotted
    (fun origin entries => do
      let key ← path.getLast?
      guard (path.dropLast.isEmpty || origin = .dotted)
      guard (entries.lookup key).isNone
      return entries ++ [(key, .value d)])
    .header path.dropLast

/-- Opens the table of a header, unless it has been opened before. -/
def openTable (path : List String) : Entries → Option Entries :=
  descend .implied
    (fun _ entries => do
      let key ← path.getLast?
      match entries.lookup key with
      | none => return entries ++ [(key, .table .header [])]
      | some (.table .implied inner) => return putEntry key (.table .header inner) entries
      | some _ => none)
    .header path.dropLast

/-- Adds a table to an array of tables. -/
def openArrayTable (path : List String) : Entries → Option Entries :=
  descend .implied
    (fun _ entries => do
      let key ← path.getLast?
      match entries.lookup key with
      | none => return entries ++ [(key, .tables [] [])]
      | some (.tables closed last) =>
        return putEntry key (.tables (closed ++ [last]) []) entries
      | some _ => none)
    .header path.dropLast

/-- Works inside the table at a header's path. -/
def inTable (path : List String) (work : Entries → Option Entries) : Entries → Option Entries :=
  descend .implied (fun _ entries => work entries) .header path

end CubeAxis.Toml
