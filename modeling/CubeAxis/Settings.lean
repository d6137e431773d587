import CubeAxis.Document
import CubeAxis.Resolution.Mode
import CubeAxis.Session.Spec
import CubeAxis.Settings.Key
import CubeAxis.Text.Lowercase
import CubeAxis.Text.Quoted

namespace CubeAxis

/-- The settings of the program. -/
structure Settings where
  /-- for hierarchies that declare no mode -/
  defaultMode : Mode := .collapsed
  /-- whether compiling also prints the selection trees -/
  showTree : Bool := false
  deriving DecidableEq

/-- A layer of settings; what it leaves open stays as it is below. -/
structure SettingsLayer where
  defaultMode : Option Mode := none
  showTree : Option Bool := none

inductive SettingsError where
  | unknownMode (text : String)
  | notABoolean (text : String)
  /-- a variable names a part of a value that has none -/
  | partOf (key holder expected : String)
  /-- a variable names an item that cannot be made -/
  | noItem (index : Int)

def SettingsError.message : SettingsError → String
  | unknownMode text => "default_mode must be 'collapsed' or 'expanded', got '" ++ text ++ "'"
  | notABoolean text =>
    "invalid type: string " ++ Text.quoted text ++
      ", expected a boolean for key \x60show_tree\x60 in the environment"
  | partOf key holder expected =>
    "invalid type: " ++ holder ++ ", expected " ++ expected ++ " for key \x60" ++ key ++ "\x60"
  | noItem index => "no place for item " ++ toString index ++ " in the environment"

namespace SettingsLayer

def keys : List String := ["default_mode", "show_tree"]

def decode? (d : Document) : Option SettingsLayer := do
  match ← d.fields? .toml keys with
  | [mode, showTree] =>
    let readMode := Document.nullable (Document.word .toml Mode.ofText?)
    return {
      defaultMode := ← Document.orDefault none readMode mode
      showTree := ← Document.orDefault none (Document.nullable Document.bool?) showTree }
  | _ => none

end SettingsLayer

namespace Settings

def overlay (s : Settings) (layer : SettingsLayer) : Settings where
  defaultMode := layer.defaultMode.getD s.defaultMode
  showTree := layer.showTree.getD s.showTree

/-- The spellings of a truth value, in lower case. -/
def boolOfText? (text : String) : Option Bool :=
  if ["true", "1", "on", "yes"].contains text then some true
  else if ["false", "0", "off", "no"].contains text then some false
  else none

/-- The variables with the prefix by their keys. Two underscores stand for a dot. -/
def keyed (vars : List (String × String)) : List (SettingsKey × String) :=
  vars.filterMap fun (name, value) => do
    let cs := (Text.lowercase name).toList
    guard ("seldrill__".toList.isPrefixOf cs)
    let key ← SettingsKey.read? (".".intercalate ((String.ofList (cs.drop 10)).splitOn "__"))
    return (key, value)

/-- The value of a key among the variables; the last one given counts. -/
def valueOf? (vars : List (SettingsKey × String)) (key expected : String) :
    Except SettingsError (Option String) :=
  let found := vars.filter (·.1.root == key)
  match found.findSome? (·.1.steps.head?) with
  | some step => .error (.partOf key step.holder expected)
  | none => .ok (found.getLast?.map (·.2))

/-- Applies the environment, the mode before the truth value. Items that cannot be
made come first, whatever their key. -/
def applyVariables (s : Settings) (vars : List (String × String)) :
    Except SettingsError Settings := do
  let vars := keyed vars
  if let some index := vars.findSome? (·.1.missingItem?) then throw (.noItem index)
  let mode ← match ← valueOf? vars "default_mode" "a string" with
    | none => pure none
    | some text => match Mode.ofText? text.toLower with
      | some mode => pure (some mode)
      | none => throw (.unknownMode text.toLower)
  let showTree ← match ← valueOf? vars "show_tree" "a boolean" with
    | none => pure none
    | some text =>
      let text := Text.lowercase text
      match boolOfText? text with
      | some b => pure (some b)
      | none => throw (.notABoolean text)
  return s.overlay ⟨mode, showTree⟩

/-- The settings as lines of a settings file. -/
def text (s : Settings) : String :=
  "default_mode = \"" ++ s.defaultMode.text ++ "\"\nshow_tree = " ++
    (if s.showTree then "true" else "false") ++ "\n"

end Settings
end CubeAxis
