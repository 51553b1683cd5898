import FieldAccess.ClassFile.Format
import FieldAccess.CommandLine.Arguments
import FieldAccess.CommandLine.FileTree
import FieldAccess.CommandLine.Listing
import FieldAccess.Java.Source
import FieldAccess.Json.Printer
import FieldAccess.Program.Json

/-! The commands and their configuration. They run wherever there is a `Host`. -/
namespace FieldAccess

/-- Configuration of a run. -/
structure Config where
  /-- Whether marked classes get their mapper. -/
  inline : Bool := false
deriving DecidableEq, Repr

namespace Config

def ofYaml (n : Yaml.Node) : Yaml.Reading Config := do
  let fields ← Yaml.Reading.record ["inline"] n
  let inline ← Yaml.Reading.fieldOr fields "inline" false Yaml.Reading.bool
  return { inline }

/-- Reads a configuration; a blank text is the default one. -/
def parse (text : String) : Except Yaml.Fault Config :=
  if Text.isBlankText text then .ok {} else Yaml.read ofYaml text

end Config

end FieldAccess

namespace FieldAccess.CommandLine

/-- Why a command stops. -/
inductive Failure where
  | config (path : String)
  | classFile (path : String)
  /-- The text of a scalar in a file does not fit in its space. -/
  | overflow (path : String)
  | directory (path : String)
  | emit (className : String)
  | source (path : String)
  /-- Faults of the input that were reported one by one. -/
  | reported (count : Nat)
  | notSynthesizable (count : Nat)
deriving DecidableEq, Repr

def Failure.message : Failure → String
  | config path => "failed to load config " ++ path
  | classFile path => "failed to load class file " ++ path
  | overflow path => "a scalar is too large in " ++ path
  | directory path => "failed to create output directory " ++ path
  | emit className => "failed to emit " ++ className
  | source path => "failed to write " ++ path
  | reported count => Nat.repr count ++ " error(s) reported"
  | notSynthesizable count => Nat.repr count ++ " class(es) cannot be synthesized"

def Failure.exitCode : Failure → Nat
  | overflow _ => 101
  | _ => 1

/-- Settings from outside the arguments. -/
structure Environment where
  /-- Whether injection is asked for, as text. -/
  inlineSetting : Option String := none
  /-- The configuration file to use when none is named. -/
  defaultConfig : Option String := none

/-- How the texts of files and the arguments are read. The commands take any way of reading. -/
structure Readers where
  classFile : String → Except Yaml.Fault ClassFile
  config : String → Except Yaml.Fault Config
  /-- Reads the arguments, given the setting for injection. -/
  command : Option String → List String → Except UsageError Command

def Readers.standard : Readers := ⟨ClassFile.parse, Config.parse, Command.parse⟩

section
variable {m : Type → Type} [Monad m] [Host m] (readers : Readers)

def say (text : String) : ExceptT Failure m Unit := Host.print (m := m) (text ++ "\n")

def sayAll : List String → ExceptT Failure m Unit
  | [] => return
  | line :: rest => do
    say line
    sayAll rest

/-- As `sayAll`, for lines about what is wrong. -/
def complainAll : List String → ExceptT Failure m Unit
  | [] => return
  | line :: rest => do
    Host.printError (m := m) (line ++ "\n")
    complainAll rest

/-- Reads a file and parses its text. -/
def load {α : Type} (parse : String → Except Yaml.Fault α) (failure : Failure) (path : String) :
    ExceptT Failure m α := do
  match (← Host.read? (m := m) path).map parse with
  | some (.ok a) => return a
  | some (.error .overflow) => throw (.overflow path)
  | some (.error .malformed) | none => throw failure

def loadConfig (path : String) : ExceptT Failure m Config :=
  load readers.config (.config path) path

/-- The named configuration, which must be there; else the one at the usual place, else the
default. -/
def resolveConfig (env : Environment) (named : Option String) : ExceptT Failure m Config := do
  match named with
  | some path => loadConfig readers path
  | none =>
    match env.defaultConfig with
    | none => return {}
    | some path => if ← Host.isPresent (m := m) path then loadConfig readers path else return {}

/-- Adds the classes of all files to a program, in order. -/
def loadProgram (verbose : Bool) : Program → List String → ExceptT Failure m Program
  | p, [] => return p
  | p, path :: rest => do
    let file ← load readers.classFile (.classFile path) path
    let (p, ids) := p.populateAll file.classes
    if verbose then
      say ("[~] Loaded " ++ Nat.repr ids.length ++ " class(es) from " ++ path)
    loadProgram verbose p rest

def analyze (c : Command) : ExceptT Failure m Unit := do
  let p ← loadProgram readers c.verbose .empty c.files
  let (lines, faulty) := listing p
  sayAll lines
  if faulty ≠ 0 then throw (.notSynthesizable faulty)

def boolText (b : Bool) : String := if b then "true" else "false"

def headerLines (c : Command) (config : Config) : List String :=
  ["fmapper - Field Accessor Synthesis",
   "==================================",
   "",
   "[~] Configuration:",
   "  Inline injection: " ++ boolText config.inline,
   "  Output directory: " ++ c.output,
   "  Input files: " ++ Nat.repr c.files.length] ++
  c.files.map ("    - " ++ ·) ++ [""]

/-- Methods of the accessor types by class name; a later class of the same name replaces the
methods. Names stand in the order of the classes, and the members of a method in that of its fields:
this takes JSON objects that keep the order of insertion. -/
def methodDump (p : Program) (classes : List NodeId) : Json :=
  .obj <| Assoc.ofPairs <| classes.filterMap fun id =>
    match p.class? id, p.findReserved? id with
    | some decl, some (mapper, _) =>
      some (decl.name, .arr ((p.methodsOf mapper).map fun method => method.2.toJson))
    | _, _ => none

/-- Writes the source of a class into a directory. -/
def writeSource (c : Command) (p : Program) (id : NodeId) : ExceptT Failure m Unit := do
  match p.class? id with
  | none => return
  | some decl =>
    match Java.emitClass p { package := c.package } id with
    | .error _ => throw (.emit decl.name)
    | .ok source =>
      let path := joinPath c.output (decl.name ++ ".java")
      unless ← Host.write (m := m) path source do throw (.source path)
      if c.verbose then say ("[✓] Generated " ++ path)

def diagnosticLine (p : Program) (d : Diagnostic) : String :=
  let owner := ((p.class? d.anchor).map ClassDecl.name).getD "<unknown>"
  d.severity.name ++ ": " ++ owner ++ ": " ++ d.message

def summary (r : Report) : String :=
  "[*] " ++ Nat.repr r.injected.length ++ " injected, " ++ Nat.repr r.alreadyPresent.length ++
    " already present, " ++ Nat.repr r.skipped.length ++ " skipped, " ++
    Nat.repr r.failed.length ++ " failed"

/-- Makes the directory for the sources of some classes, and writes them. -/
def writeSources (c : Command) (p : Program) (classes : List NodeId) : ExceptT Failure m Unit := do
  unless classes.isEmpty do
    unless ← Host.makeDirectory (m := m) c.output do throw (.directory c.output)
  for id in classes do writeSource c p id

/-- Says what a run had to say. Errors make the command fail. -/
def conclude (batch : Batch) : ExceptT Failure m Unit := do
  complainAll (batch.diagnostics.map (diagnosticLine batch.program))
  say (summary batch.report)
  let errors := batch.errors.length
  if errors ≠ 0 then throw (.reported errors)

def codegen (env : Environment) (c : Command) : ExceptT Failure m Unit := do
  let config ← resolveConfig readers env c.config
  let config : Config := { config with inline := config.inline || c.inline }
  sayAll (if c.verbose then headerLines c config else [])
  let p ← loadProgram readers c.verbose .empty c.files
  let batch := Batch.run config.inline p
  let treated := batch.report.injected ++ batch.report.alreadyPresent
  sayAll (if c.printIr then [(methodDump batch.program treated).pretty] else [])
  writeSources c batch.program treated
  conclude batch

def Command.run (env : Environment) (c : Command) : ExceptT Failure m Unit :=
  match c.action with
  | .codegen => codegen readers env c
  | .analyze => analyze readers c

/-- Runs the command that the arguments name and gives the exit code, which is 2 when they name
none. -/
def execute (env : Environment) (args : List String) : m Nat := do
  match readers.command env.inlineSetting args with
  | .error .help =>
    Host.print (UsageError.help.message ++ "\n")
    return 0
  | .error e =>
    Host.printError (e.message ++ "\n")
    return 2
  | .ok c =>
    match ← (c.run readers env : ExceptT Failure m Unit).run with
    | .ok _ => return 0
    | .error e =>
      Host.printError ("Error: " ++ e.message ++ "\n")
      return e.exitCode

end

end FieldAccess.CommandLine
