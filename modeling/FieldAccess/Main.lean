import FieldAccess.CommandLine.Command

/-! The command line program. -/
namespace FieldAccess

open CommandLine

/-- Runs an action and says whether it went well. -/
def succeeds (action : IO Unit) : IO Bool := do
  try
    action
    return true
  catch _ => return false

instance : Host IO where
  read? path := do
    try
      return some (← IO.FS.readFile path)
    catch _ => return none
  isPresent path := succeeds do discard <| IO.FS.realPath path
  makeDirectory path := succeeds do IO.FS.createDirAll path
  write path text := succeeds do IO.FS.writeFile path text
  print := IO.print
  printError := IO.eprint

/-- Where configuration files are kept. -/
def configHome? : IO (Option String) := do
  match ← IO.getEnv "XDG_CONFIG_HOME" with
  | some home => if home.startsWith "/" then return some home else fallback
  | none => fallback
where
  fallback : IO (Option String) := return (← IO.getEnv "HOME").map (joinPath · ".config")

end FieldAccess

def main (args : List String) : IO UInt32 := do
  let home ← FieldAccess.configHome?
  let env : FieldAccess.CommandLine.Environment :=
    { inlineSetting := ← IO.getEnv "FMAPPER_INLINE"
      defaultConfig := home.map (FieldAccess.CommandLine.joinPath · "fmapper/config.yaml") }
  return (← FieldAccess.CommandLine.execute .standard env args).toUInt32
