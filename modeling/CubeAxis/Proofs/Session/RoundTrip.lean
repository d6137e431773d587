import CubeAxis.Session.Spec

namespace CubeAxis

theorem Sign.ofText?_eq_some_iff {s : String} {sign : Sign} :
    ofText? s = some sign ↔ s = sign.text := by
  constructor
  · intro read
    unfold ofText? at read
    split at read <;> cases read <;> rfl
  · rintro rfl
    cases sign <;> rfl

theorem Operator.ofText?_eq_some_iff {s : String} {operator : Operator} :
    ofText? s = some operator ↔ s = operator.text := by
  constructor
  · intro read
    unfold ofText? at read
    split at read <;> cases read <;> rfl
  · rintro rfl
    cases operator <;> rfl

theorem Mode.ofText?_eq_some_iff {s : String} {mode : Mode} :
    ofText? s = some mode ↔ s = mode.text := by
  constructor
  · intro read
    unfold ofText? at read
    split at read <;> cases read <;> rfl
  · rintro rfl
    cases mode <;> rfl

namespace Document

/-- A field by its key in a table and by its place in an array. -/
def field? (key : String) (place : Nat) : Document → Option Document
  | table entries => entries.lookup key
  | array items => items[place]?
  | _ => none

/-- How a field of a record is written out: by which key, as what if it is left out, and what
becomes of it otherwise. -/
structure Entry where
  key : String
  absent : Document := null
  rewrite : Document → Document := id

/-- A record as a table of its fields in their order, with those that are left out. -/
def writtenOut (fields : List Entry) (d : Document) : Document :=
  table (fields.zipIdx.map fun (f, place) =>
    (f.key, (d.field? f.key place).elim f.absent f.rewrite))

/-- The word alone, of one that is written as a key. -/
def spelled : Document → Document
  | table [(s, _)] => string s
  | d => d

def mapItems (f : Document → Document) : Document → Document
  | array items => array (items.map f)
  | d => d

theorem mapItems_id (d : Document) : mapItems id d = d := by
  cases d <;> simp [mapItems]

variable {α : Type} {read : Document → Option α} {write : α → Document}
  {rewrite : Document → Document} {format : Format}

/-- What is written is read back, and of what is read the rewritten document is written. -/
structure Codes (read : Document → Option α) (write : α → Document)
    (rewrite : Document → Document) : Prop where
  read_write : ∀ v, read (write v) = some v
  write_read : ∀ d v, read d = some v → write v = rewrite d

namespace Codes

theorem string : Codes string? Document.string id where
  read_write _ := rfl
  write_read d v run := by
    cases d <;> cases run
    rfl

theorem word {ofText? : String → Option α} {text : α → String}
    (spells : ∀ {s v}, ofText? s = some v ↔ s = text v) :
    Codes (word format ofText?) (fun v => .string (text v)) spelled where
  read_write _ := spells.mpr rfl
  write_read d v run := by
    unfold Document.word at run
    split at run
    · exact congrArg _ (spells.mp run).symm
    · split at run
      · exact congrArg _ (spells.mp run).symm
      · cases run
    · cases run

theorem list (items : Codes read write rewrite) :
    Codes (list read) (fun vs => array (vs.map write)) (mapItems rewrite) where
  read_write vs := by
    change (vs.map write).mapM read = some vs
    induction vs with
    | nil => rfl
    | cons v vs ih => rw [List.map_cons, List.mapM_cons, items.read_write, ih]; rfl
  write_read d vs run := by
    cases d with
    | array ds =>
      change ds.mapM read = some vs at run
      refine congrArg array ?_
      induction ds generalizing vs with
      | nil => cases run; rfl
      | cons d ds ih =>
        rw [List.mapM_cons] at run
        obtain ⟨v, one, run⟩ := Option.bind_eq_some_iff.mp run
        obtain ⟨others, rest, run⟩ := Option.bind_eq_some_iff.mp run
        cases run
        rw [List.map_cons, List.map_cons, items.write_read d v one, ih others rest]
    | _ => cases run

theorem strings : Codes (Document.list string?) strings id where
  read_write := string.list.read_write
  write_read d vs run := (string.list.write_read d vs run).trans (mapItems_id d)

end Codes

/-- The same for what may be left out. -/
structure EntryCodes (read : Option Document → Option α) (write : α → Document)
    (absent : Document) (rewrite : Document → Document) : Prop where
  read_write : ∀ v, read (some (write v)) = some v
  write_read : ∀ d v, read d = some v → write v = d.elim absent rewrite

namespace Codes

variable (codes : Codes read write rewrite)

include codes

/-- What has to be there is never left out, so it does not matter as what it would be written. -/
theorem required (absent : Document) : EntryCodes (required read) write absent rewrite where
  read_write := codes.read_write
  write_read d v run := by
    obtain ⟨d, rfl, run⟩ := Option.bind_eq_some_iff.mp run
    exact codes.write_read d v run

theorem orDefault (default : α) :
    EntryCodes (orDefault default read) write (write default) rewrite where
  read_write := codes.read_write
  write_read d v run := by
    cases d with
    | none => cases run; rfl
    | some d => exact codes.write_read d v run

theorem orNull (inTable : Bool) (proper : ∀ v, write v ≠ null) (keeps : rewrite null = null) :
    EntryCodes (orNull inTable read) (ofOption write) null rewrite where
  read_write v := by
    cases v with
    | none => rfl
    | some v =>
      -- no value is written as null, which would be read as none
      change nullable read (write v) = _
      rw [nullable.eq_2 _ _ (proper v), codes.read_write]
      rfl
  write_read d v run := by
    cases d with
    | none =>
      cases inTable <;> cases run
      rfl
    | some d =>
      change nullable read d = _ at run
      unfold nullable at run
      split at run
      · cases run
        exact keeps.symm
      · obtain ⟨v, one, rfl⟩ := Option.map_eq_some_iff.mp run
        exact codes.write_read d v one

end Codes

/-- Past the look at its shape, a record is read field by field. -/
theorem of_bind_fields? {keys : List String} {d : Document} {v : α}
    {next : List (Option Document) → Option α} (run : (d.fields? format keys).bind next = some v) :
    next (keys.zipIdx.map fun (key, place) => d.field? key place) = some v := by
  obtain ⟨fs, shape, run⟩ := Option.bind_eq_some_iff.mp run
  suffices same : fs = keys.zipIdx.map fun (key, place) => d.field? key place from same ▸ run
  cases d with
  | table entries =>
    cases shape
    exact List.ext_getElem (by simp) fun place _ _ => by simp [field?]
  | array items => exact (Option.some.inj (Option.ite_none_right_eq_some.mp shape).2).symm
  | _ => cases shape

end Document

open Document

theorem Sign.codes (format : Format) :
    Codes (word format ofText?) (fun sign => .string sign.text) spelled :=
  .word ofText?_eq_some_iff

theorem Operator.codes (format : Format) :
    Codes (word format ofText?) (fun operator => .string operator.text) spelled :=
  .word ofText?_eq_some_iff

theorem Mode.codes (format : Format) :
    Codes (word format ofText?) (fun mode => .string mode.text) spelled :=
  .word ofText?_eq_some_iff

namespace HierarchySpec

def fields : List Entry :=
  [{ key := "name" }, { key := "levels" }, { key := "members", absent := array [] },
    { key := "mode", rewrite := spelled }]

theorem codes (format : Format) : Codes (decode? format) encode (writtenOut fields) := by
  have name := Codes.string.required null
  have levels := Codes.strings.required null
  have members := Codes.strings.orDefault []
  have mode := fun inTable => (Mode.codes format).orNull inTable nofun rfl
  refine ⟨fun s => ?_, fun d s run => ?_⟩
  · simp [decode?, encode, fields?, keys, isTable, List.lookup_cons, name.read_write,
      levels.read_write, members.read_write, (mode true).read_write]
  · replace run := of_bind_fields? run
    obtain ⟨_, runName, run⟩ := Option.bind_eq_some_iff.mp run
    obtain ⟨_, runLevels, run⟩ := Option.bind_eq_some_iff.mp run
    obtain ⟨_, runMembers, run⟩ := Option.bind_eq_some_iff.mp run
    obtain ⟨_, runMode, run⟩ := Option.bind_eq_some_iff.mp run
    cases run
    simp only [encode, name.write_read _ _ runName, levels.write_read _ _ runLevels,
      members.write_read _ _ runMembers, (mode _).write_read _ _ runMode]
    rfl

end HierarchySpec

namespace SelectionSpec

def fields : List Entry :=
  [{ key := "hierarchy" }, { key := "sign", rewrite := spelled },
    { key := "operator", absent := string "member", rewrite := spelled }, { key := "member" },
    { key := "level" }]

theorem codes (format : Format) : Codes (decode? format) encode (writtenOut fields) := by
  have hierarchy := Codes.string.required null
  have sign := (Sign.codes format).required null
  have operator := (Operator.codes format).orDefault .member
  have given := fun inTable => Codes.string.orNull inTable nofun rfl
  refine ⟨fun s => ?_, fun d s run => ?_⟩
  · simp [decode?, encode, fields?, keys, isTable, List.lookup_cons, hierarchy.read_write,
      sign.read_write, operator.read_write, (given true).read_write]
  · replace run := of_bind_fields? run
    obtain ⟨_, runHierarchy, run⟩ := Option.bind_eq_some_iff.mp run
    obtain ⟨_, runSign, run⟩ := Option.bind_eq_some_iff.mp run
    obtain ⟨_, runOperator, run⟩ := Option.bind_eq_some_iff.mp run
    obtain ⟨_, runMember, run⟩ := Option.bind_eq_some_iff.mp run
    obtain ⟨_, runLevel, run⟩ := Option.bind_eq_some_iff.mp run
    cases run
    simp only [encode, hierarchy.write_read _ _ runHierarchy, sign.write_read _ _ runSign,
      operator.write_read _ _ runOperator, (given _).write_read _ _ runMember,
      (given _).write_read _ _ runLevel]
    rfl

end SelectionSpec

namespace DrillSpec

def fields : List Entry := [{ key := "position" }]

theorem codes (format : Format) : Codes (decode? format) encode (writtenOut fields) := by
  have position := Codes.strings.required null
  refine ⟨fun s => ?_, fun d s run => ?_⟩
  · simp [decode?, encode, fields?, keys, List.lookup_cons, position.read_write]
  · replace run := of_bind_fields? run
    obtain ⟨_, runPosition, run⟩ := Option.bind_eq_some_iff.mp run
    cases run
    simp only [encode, position.write_read _ _ runPosition]
    rfl

end DrillSpec

namespace SessionSpec

def fields : List Entry :=
  [⟨"hierarchy", array [], mapItems (writtenOut HierarchySpec.fields)⟩,
    ⟨"selection", array [], mapItems (writtenOut SelectionSpec.fields)⟩,
    ⟨"drill", array [], mapItems (writtenOut DrillSpec.fields)⟩]

theorem codes (format : Format) : Codes (decode? format) encode (writtenOut fields) := by
  have hierarchies := (HierarchySpec.codes format).list.orDefault []
  have selections := (SelectionSpec.codes format).list.orDefault []
  have drills := (DrillSpec.codes format).list.orDefault []
  refine ⟨fun s => ?_, fun d s run => ?_⟩
  · simp [decode?, encode, fields?, keys, List.lookup_cons, hierarchies.read_write,
      selections.read_write, drills.read_write]
  · replace run := of_bind_fields? run
    obtain ⟨_, runHierarchies, run⟩ := Option.bind_eq_some_iff.mp run
    obtain ⟨_, runSelections, run⟩ := Option.bind_eq_some_iff.mp run
    obtain ⟨_, runDrills, run⟩ := Option.bind_eq_some_iff.mp run
    cases run
    simp only [encode, hierarchies.write_read _ _ runHierarchies,
      selections.write_read _ _ runSelections, drills.write_read _ _ runDrills]
    rfl

/-- What is written is read back. What is read is written with nothing left out, and that is read
as the same and written the same again. -/
theorem round_trip :
    (∀ s : SessionSpec, decode? .json s.encode = some s) ∧
      ∀ d s, decode? .json d = some s → s.encode = writtenOut fields d ∧
        decode? .json s.encode = some s ∧
        (decode? .json s.encode).map encode = some s.encode := by
  have codes := codes .json
  refine ⟨codes.read_write, fun d s run => ⟨codes.write_read d s run, codes.read_write s, ?_⟩⟩
  rw [codes.read_write, Option.map_some]

/-- A session with a key that is not asked for, a word as a key, and all left out that may be. -/
def terse : Document :=
  table [("hierarchy", array [table [("levels", strings ["Year"]), ("name", string "Time")]]),
    ("comment", string "every year"),
    ("selection", array [table [("hierarchy", string "Time"), ("sign", table [("include", null)]),
      ("level", string "Year")]])]

theorem round_trip_terse :
    ∃ s : SessionSpec, decode? .json terse = some s ∧
      s.encode = table [
        ("hierarchy", array [table [("name", string "Time"), ("levels", strings ["Year"]),
          ("members", array []), ("mode", null)]]),
        ("selection", array [table [("hierarchy", string "Time"), ("sign", string "include"),
          ("operator", string "member"), ("member", null), ("level", string "Year")]]),
        ("drill", array [])] ∧
      decode? .json s.encode = some s ∧ (decode? .json s.encode).map encode = some s.encode :=
  ⟨_, rfl, round_trip.2 terse _ rfl⟩

end SessionSpec
end CubeAxis
