import CubeAxis.CommandLine.Run

namespace CubeAxis.CommandLine

/-- Reads a file for the pure part of the program. -/
def FileContent.ofPath (path : String) : IO FileContent := do
  if path.toList.contains '\x00' then return .nameWithNul
  try
    let bytes ← IO.FS.readBinFile path
    return (String.fromUTF8? bytes).elim .notText .text
  catch
    | .noFileOrDirectory .. | .noSuchThing .. => return .absent
    | .inappropriateType .. => return .directory
    | _ => return .absent

/-- The settings file of the user. -/
def globalConfigPath : IO (Option String) := do
  match ← IO.getEnv "XDG_CONFIG_HOME" with
  | some dir => return some (dir ++ "/seldrill/seldrill.toml")
  | none => return (← IO.getEnv "HOME").map (· ++ "/.config/seldrill/seldrill.toml")

/-- The paths a run may look at. -/
def Invocation.paths (i : Invocation) : List String :=
  i.config.toList ++ match i.command with
    | some (.compile path _) | some (.tree path) | some (.selections path)
    | some (.positions path) => [path]
    | _ => []

def gatherEnvironment (i : Invocation) : IO Environment := do
  let globalConfig ← globalConfigPath
  let files ← (globalConfig.toList ++ i.paths).mapM fun path => do
    return (path, ← FileContent.ofPath path)
  let names := ["SELDRILL__DEFAULT_MODE", "SELDRILL__SHOW_TREE"]
  let vars ← names.filterMapM fun name => do
    return (← IO.getEnv name).map (name, ·)
  return {
    globalConfig := globalConfig
    vars := vars
    color := (← IO.getEnv "CLICOLOR_FORCE").any (· != "0") && (← IO.getEnv "NO_COLOR").isNone
    file := fun path => (files.lookup path).getD .absent }

def usage : String :=
  "usage: seldrill [-d] [--config FILE] (compile [-m] | tree | selections | positions) SESSION\n" ++
    "       seldrill [-d] [--config FILE] config\n"

end CubeAxis.CommandLine

open CubeAxis.CommandLine in
def main (args : List String) : IO UInt32 := do
  match parse args with
  | .error .help => IO.print usage; return 0
  | .error .version => IO.println "seldrill 0.3.0-alpha.0"; return 0
  | .error _ => IO.eprint usage; return 2
  | .ok invocation =>
    let env ← gatherEnvironment invocation
    let report := runCommand env invocation
    IO.print report.stdout
    IO.eprint (report.allStderr env)
    return report.exitCode.toUInt32
