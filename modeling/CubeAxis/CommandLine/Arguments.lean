namespace CubeAxis.CommandLine

inductive Command where
  | compile (session : String) (members : Bool)
  | tree (session : String)
  | selections (session : String)
  | positions (session : String)
  | config
  | completion (shell : String)
  deriving DecidableEq

/-- What the arguments ask for. -/
structure Invocation where
  config : Option String
  command : Option Command
  deriving DecidableEq

/-- Why nothing is run. -/
inductive Stop where
  | help
  | version
  | unknownArgument
  | invalidSubcommand
  | missingArgument
  | invalidValue
  | tooManyValues
  | repeated
  deriving DecidableEq

def Stop.exitCode : Stop → Nat
  | help | version => 0
  | _ => 2

inductive Operand where
  | path
  | shell
  deriving DecidableEq

/-- What may be written after the program name or after a subcommand. -/
structure Grammar where
  operand : Option Operand := none
  members : Bool := false
  subcommands : Bool := false

def subcommands : List String :=
  ["compile", "tree", "selections", "positions", "config", "completion", "help"]

def shells : List String := ["bash", "elvish", "fish", "powershell", "zsh"]

def Grammar.program : Grammar := { subcommands := true }

def Grammar.ofSubcommand : String → Grammar
  | "compile" => { operand := some .path, members := true }
  | "completion" => { operand := some .shell }
  | "config" => {}
  | _ => { operand := some .path }

/-- A value that has been read but not yet checked. It is checked when the next
argument turns up that is no part of it. -/
inductive Pending where
  | nothing
  | config (given : Option String)
  | operand (text : String)

/-- The arguments seen so far at one level. -/
structure Seen where
  config : Option String := none
  members : Bool := false
  operand : Option String := none
  pending : Pending := .nothing

def Operand.accepts : Operand → String → Bool
  | path, text => !text.isEmpty
  | shell, text => shells.contains text

/-- Checks the pending value. -/
def Seen.settle (g : Grammar) (s : Seen) : Except Stop Seen :=
  match s.pending with
  | .nothing => .ok s
  | .config none => .error .invalidValue
  | .config (some text) =>
    if s.config.isSome then .error .repeated
    else if text.isEmpty then .error .invalidValue
    else .ok { s with config := some text, pending := .nothing }
  | .operand text =>
    if g.operand.any (·.accepts text) then .ok { s with operand := some text, pending := .nothing }
    else .error .invalidValue

/-- An option without a value, by its long name. -/
def Seen.flag (g : Grammar) (s : Seen) (name : String) : Except Stop Seen :=
  match name with
  | "debug" => s.settle g
  | "help" => (s.settle g).bind fun _ => .error .help
  | "version" => (s.settle g).bind fun _ => .error .version
  | _ =>
    if g.members && name == "members" then do
      let s ← s.settle g
      if s.members then throw .repeated else return { s with members := true }
    else .error .unknownArgument

def isFlag (g : Grammar) (name : String) : Bool :=
  ["debug", "help", "version"].contains name || (g.members && name == "members")

/-- An option by its long name, with the value written after an equals sign. -/
def Seen.long (g : Grammar) (s : Seen) (text : List Char) : Except Stop Seen :=
  let (name, rest) := text.span (· != '=')
  let name := String.ofList name
  match name, rest with
  | "config", [] => do return { ← s.settle g with pending := .config none }
  | "config", _ :: value => do
    Seen.settle g { ← s.settle g with pending := .config (some (String.ofList value)) }
  | _, [] => s.flag g name
  | _, _ :: _ => .error (if isFlag g name then .tooManyValues else .unknownArgument)

/-- Options by their letters, one after the other. -/
def Seen.letters (g : Grammar) : Seen → List Char → Except Stop Seen
  | s, [] => .ok s
  | s, c :: cs => do
    let name ← match c with
      | 'd' => pure "debug"
      | 'h' => pure "help"
      | 'V' => pure "version"
      | 'm' => pure "members"
      | _ => throw .unknownArgument
    Seen.letters g (← s.flag g name) cs

/-- An argument that is no option. -/
def Seen.plain (g : Grammar) (trailing : Bool) (s : Seen) (text : String) : Except Stop Seen :=
  let free := s.operand.isNone && match s.pending with
    | .operand _ => false
    | _ => true
  if g.operand.isSome && free then do
    return { ← s.settle g with pending := .operand text }
  else if g.subcommands && !(trailing && subcommands.contains text) then
    .error .invalidSubcommand
  else .error .unknownArgument

def Seen.awaitsValue (s : Seen) : Bool :=
  match s.pending with
  | .config none => true
  | _ => false

/-- Reads arguments up to the first subcommand. After `--` nothing is an option. -/
def scan (g : Grammar) : (trailing : Bool) → Seen → List String →
    Except Stop (Seen × Option (String × List String))
  | _, s, [] => .ok (s, none)
  | true, s, arg :: args => do scan g true (← s.plain g true arg) args
  | false, s, arg :: args =>
    if g.subcommands && !s.awaitsValue && subcommands.contains arg then
      .ok (s, some (arg, args))
    else match arg.toList with
      | ['-', '-'] => scan g true s args
      | '-' :: '-' :: text => do scan g false (← s.long g text) args
      | '-' :: c :: cs => do scan g false (← s.letters g (c :: cs)) args
      | _ =>
        if s.awaitsValue then scan g false { s with pending := .config (some arg) } args
        else do scan g false (← s.plain g false arg) args

/-- Help on subcommands by name. Only the program itself has subcommands. -/
def helpOn : List String → Stop
  | [] => .help
  | [name] => if subcommands.contains name then .help else .invalidSubcommand
  | _ => .invalidSubcommand

def commandOf (name : String) (s : Seen) : Except Stop Command :=
  if name == "config" then .ok .config
  else match s.operand with
    | none => .error .missingArgument
    | some text => .ok <| match name with
      | "compile" => .compile text s.members
      | "tree" => .tree text
      | "selections" => .selections text
      | "positions" => .positions text
      | _ => .completion text

/-- Reads the arguments. The settings file given last and innermost counts. -/
def parse (args : List String) : Except Stop Invocation := do
  let (outer, rest) ← scan .program false {} args
  match rest with
  | none => return ⟨(← outer.settle .program).config, none⟩
  | some ("help", names) => throw (helpOn names)
  | some (name, args) =>
    let g := Grammar.ofSubcommand name
    let (inner, _) ← scan g false {} args
    let inner ← inner.settle g
    let command ← commandOf name inner
    let outer ← outer.settle .program
    return ⟨inner.config.or outer.config, some command⟩

end CubeAxis.CommandLine
