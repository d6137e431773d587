import CubeAxis.CommandLine.Arguments
import CubeAxis.Selection.Drawing
import CubeAxis.Session
import CubeAxis.Settings
import CubeAxis.Toml.Document

namespace CubeAxis.CommandLine

/-- What is found at a path. -/
inductive FileContent where
  | text (s : String)
  | absent
  | notDirectory
  | directory
  | notText
  | nameWithNul
  | nameTooLong

inductive CommandError where
  | configNotFound (path : String)
  | noCommand
  | configRead (path cause : String)
  | configParse (path : String)
  | settings (e : SettingsError)
  | sessionRead (path cause : String)
  | sessionParse (path : String)
  | session (e : SessionError)

namespace CommandError

def message : CommandError → String
  | configNotFound path => "invalid arguments: config file not found: " ++ path
  | noCommand => "no command given, see 'seldrill --help'"
  | configRead path cause => "config error: read " ++ path ++ ": " ++ cause
  | configParse path => "config error: parse " ++ path ++ ": not a settings file"
  | settings e => "config error: " ++ e.message
  | sessionRead path cause => "cannot read session " ++ path ++ ": " ++ cause
  | sessionParse path => "invalid session " ++ path ++ ": not a session file"
  | session e => e.message

def exitCode : CommandError → Nat
  | configNotFound _ | noCommand => 64
  | sessionParse _ | session _ => 65
  | sessionRead .. => 66
  | configRead .. | configParse _ | settings _ => 78

end CommandError

/-- Where a run takes place. -/
structure Environment where
  /-- the settings file of the user, if there is a place for one -/
  globalConfig : Option String
  vars : List (String × String)
  color : Bool
  file : String → FileContent

/-- What a run prints, and why it failed if it did. -/
structure Report where
  stdout : String := ""
  stderr : String := ""
  failure : Option CommandError := none

namespace FileContent

def exists? : FileContent → Bool
  | absent | notDirectory | nameWithNul | nameTooLong => false
  | _ => true

/-- The text, or what keeps it from being read. -/
def read : FileContent → Except String String
  | text s => .ok s
  | absent => .error "No such file or directory (os error 2)"
  | notDirectory => .error "Not a directory (os error 20)"
  | directory => .error "Is a directory (os error 21)"
  | notText => .error "stream did not contain valid UTF-8"
  | nameWithNul => .error "file name contained an unexpected NUL byte"
  | nameTooLong => .error "File name too long (os error 36)"

end FileContent

namespace Environment

def loadLayer (env : Environment) (path : String) : Except CommandError SettingsLayer :=
  match (env.file path).read with
  | .error cause => .error (.configRead path cause)
  | .ok text =>
    match (Toml.read? text).bind SettingsLayer.decode? with
    | none => .error (.configParse path)
    | some layer => .ok layer

/-- The settings: defaults, the user's file, the file asked for, the variables. -/
def loadSettings (env : Environment) (asked : Option String) : Except CommandError Settings := do
  if let some path := asked then
    unless (env.file path).exists? do throw (.configNotFound path)
  let files := (env.globalConfig.filter fun path => (env.file path).exists?).toList ++ asked.toList
  let settings ← files.foldlM addLayer ({} : Settings)
  (settings.applyVariables env.vars).mapError .settings
where
  addLayer (s : Settings) (path : String) : Except CommandError Settings := do
    return s.overlay (← env.loadLayer path)

def loadSession (env : Environment) (settings : Settings) (path : String) :
    Except CommandError Session :=
  match (env.file path).read with
  | .error cause => .error (.sessionRead path cause)
  | .ok text =>
    match (Toml.read? text).bind (SessionSpec.decode? .toml) with
    | none => .error (.sessionParse path)
    | some spec => (Session.build spec settings.defaultMode).mapError .session

def reset : String := "\x1b[0m"

/-- Puts a text in a style. Inside the text the style is taken up again after
every reset. -/
def paint (env : Environment) (style text : String) : String :=
  if env.color then style ++ (reset ++ style).intercalate (text.splitOn reset) ++ reset else text

def header (env : Environment) (text : String) : String :=
  env.paint "\x1b[1;36m" text ++ "\n"

end Environment

def detail (text : String) : String := "  " ++ text ++ "\n"

def tupleText : Tuple → String
  | [m] => m.uniqueName
  | t => "(" ++ ", ".intercalate (t.map (·.uniqueName)) ++ ")"

/-- The selection tree of every hierarchy, with its level-wide signs. -/
def trees (env : Environment) (s : Session) : String :=
  String.join <| s.dimensions.map fun d =>
    env.header (d.hierarchy.uniqueName ++ " (" ++ d.mode.text ++ ")") ++ d.selection.drawing ++
      String.join (d.selection.levels.map fun o =>
        detail ("level " ++ o.level.uniqueName ++ ": " ++ o.sign.text))

/-- The expression of a session and, if asked for, the tuples it denotes. -/
def compile (env : Environment) (settings : Settings) (s : Session) (members : Bool) : Report :=
  let expr := s.expr.text ++ "\n"
  let trees := if settings.showTree then trees env s else ""
  if members then
    match s.evaluate with
    | .error e => { stdout := expr, failure := some (.session e) }
    | .ok tuples =>
      { stdout := expr ++ String.join (tuples.map (detail <| tupleText ·)) ++ trees }
  else { stdout := expr ++ trees }

def actionLine (env : Environment) (a : Selection) : String :=
  let mark := match a.sign with
    | .included => env.paint "\x1b[32m" "+"
    | .excluded => env.paint "\x1b[31m" "-"
  "  " ++ mark ++ " " ++ a.targetText ++ "\n"

/-- The shortest list of actions per hierarchy. -/
def selections (env : Environment) (s : Session) : Report where
  stdout := String.join <| s.selections.map fun (h, actions) =>
    env.header h.uniqueName ++
      if actions.isEmpty then detail "(nothing selected)"
      else String.join (actions.map (actionLine env))

/-- The shown positions, and a warning for each recorded one that is not shown. -/
def positions (env : Environment) (s : Session) : Report :=
  { stdout := String.join (s.visiblePositions.map (tupleText · ++ "\n"))
    stderr := String.join <| s.hiddenPositions.map fun p =>
      env.paint "\x1b[33m" "Warning" ++ ": hidden position " ++ tupleText p ++ "\n" }

def onSession (env : Environment) (settings : Settings) (path : String)
    (report : Session → Report) : Report :=
  match env.loadSession settings path with
  | .error e => { failure := some e }
  | .ok s => report s

/-- Runs what the arguments ask for. -/
def runCommand (env : Environment) (i : Invocation) : Report :=
  match env.loadSettings i.config with
  | .error e => { failure := some e }
  | .ok settings =>
    match i.command with
    | none => { failure := some .noCommand }
    | some .config => { stdout := settings.text ++ "\n" }
    | some (.completion _) => {}
    | some (.compile path members) =>
      onSession env settings path (compile env settings · members)
    | some (.tree path) => onSession env settings path fun s => { stdout := trees env s }
    | some (.selections path) => onSession env settings path (selections env)
    | some (.positions path) => onSession env settings path (positions env)

/-- A failure ends the error output with a line of its own. -/
def Report.allStderr (env : Environment) (r : Report) : String :=
  r.stderr ++ r.failure.elim "" fun e => env.paint "\x1b[1;31m" "error" ++ ": " ++ e.message ++ "\n"

def Report.exitCode (r : Report) : Nat :=
  r.failure.elim 0 (·.exitCode)

end CubeAxis.CommandLine
