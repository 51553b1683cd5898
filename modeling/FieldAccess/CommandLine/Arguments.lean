/-! Arguments of the command line: a command, then options in any order. -/
namespace FieldAccess.CommandLine

inductive Action where
  /-- Treats marked classes and writes them as source files. -/
  | codegen
  /-- Shows what synthesis sees of marked classes. -/
  | analyze
deriving DecidableEq, Repr

def Action.ofName? (s : String) : Option Action :=
  if s = "codegen" then some .codegen else if s = "analyze" then some .analyze else none

inductive Opt where
  | files
  | output
  | inline
  | config
  | package
  | printIr
  | verbose
deriving DecidableEq, Repr

namespace Opt

def long : Opt → String
  | files => "files"
  | output => "output"
  | inline => "inline"
  | config => "config"
  | package => "package"
  | printIr => "print-ir"
  | verbose => "verbose"

def short? : Opt → Option Char
  | files => some 'f'
  | output => some 'o'
  | verbose => some 'v'
  | _ => none

def takesValue : Opt → Bool
  | files | output | config | package => true
  | inline | printIr | verbose => false

/-- Whether the value is the name of a file or directory, which is never empty. -/
def takesPath : Opt → Bool
  | files | output | config => true
  | _ => false

/-- Options of a command. -/
def of : Action → List Opt
  | .codegen => [files, output, inline, config, package, printIr, verbose]
  | .analyze => [files, verbose]

end Opt

/-- Why arguments make no command. -/
inductive UsageError where
  /-- No error: help is wanted. -/
  | help
  | missingCommand
  | unknownCommand (name : String)
  | unexpected (argument : String)
  | missingValue (opt : Opt)
  | extraValue (opt : Opt)
  | repeated (opt : Opt)
  | missingFiles
deriving DecidableEq, Repr

def UsageError.message : UsageError → String
  | help =>
    "usage: fmapper codegen -f FILE... [-o DIR] [--inline] [--config FILE] [--package NAME] " ++
      "[--print-ir] [-v]\n       fmapper analyze -f FILE... [-v]"
  | missingCommand => "error: a command is required"
  | unknownCommand name => "error: unknown command '" ++ name ++ "'"
  | unexpected argument => "error: unexpected argument '" ++ argument ++ "'"
  | missingValue opt => "error: a value is required for '--" ++ opt.long ++ "'"
  | extraValue opt => "error: '--" ++ opt.long ++ "' takes no value"
  | repeated opt => "error: '--" ++ opt.long ++ "' cannot be used multiple times"
  | missingFiles => "error: '--files' is required"

/-- An option with its value; the value of a flag is empty. -/
structure Given where
  opt : Opt
  value : String := ""
deriving DecidableEq, Repr

/-- Adds an option to those before it. Only files may be given again, and a path is not empty. -/
def Given.add (seen : List Given) (g : Given) : Except UsageError (List Given) :=
  if g.opt ≠ .files && seen.any (·.opt = g.opt) then .error (.repeated g.opt)
  else if g.opt.takesPath && g.value.isEmpty then .error (.missingValue g.opt)
  else .ok (seen ++ [g])

/-- The options so far. The last one may still need a value. -/
structure Progress where
  given : List Given := []
  awaiting : Option Opt := none

/-- Text before and after the first equals sign. -/
def splitEquals : List Char → List Char × Option (List Char)
  | [] => ([], none)
  | c :: cs =>
    if c = '=' then ([], some cs)
    else
      let (name, value) := splitEquals cs
      (c :: name, value)

/-- An argument that starts with two dashes, without them. -/
def addLong (known : List Opt) (seen : List Given) (cs : List Char) :
    Except UsageError Progress := do
  let (name, value) := splitEquals cs
  match known.find? fun o => o.long.toList == name with
  | none =>
    if name == "help".toList && value.isNone then .error .help
    else .error (.unexpected ("--" ++ String.ofList cs))
  | some opt =>
    match opt.takesValue, value with
    | true, some v => return { given := ← Given.add seen ⟨opt, String.ofList v⟩ }
    | true, none => return { given := seen, awaiting := some opt }
    | false, some _ => .error (.extraValue opt)
    | false, none => return { given := ← Given.add seen ⟨opt, ""⟩ }

/-- Short options in one argument: flags, then maybe an option whose value is the rest, with or
without an equals sign before it. -/
def addShort (known : List Opt) (seen : List Given) : List Char → Except UsageError Progress
  | [] => .ok { given := seen }
  | c :: cs =>
    match known.find? fun o => o.short? == some c with
    | none => if c = 'h' then .error .help else .error (.unexpected ("-" ++ c.toString))
    | some opt =>
      if opt.takesValue then
        match cs with
        | [] => .ok { given := seen, awaiting := some opt }
        | '=' :: v => return { given := ← Given.add seen ⟨opt, String.ofList v⟩ }
        | v => return { given := ← Given.add seen ⟨opt, String.ofList v⟩ }
      else do
        let seen ← Given.add seen ⟨opt, ""⟩
        addShort known seen cs

/-- Reads one argument as options. A single dash is no option. -/
def addArgument (known : List Opt) (seen : List Given) (arg : String) :
    Except UsageError Progress :=
  match arg.toList with
  | '-' :: '-' :: cs => addLong known seen cs
  | '-' :: c :: cs => addShort known seen (c :: cs)
  | _ => .error (.unexpected arg)

/-- Whether an argument can be the value of the option before it. -/
def isValue (arg : String) : Bool :=
  match arg.toList with
  | '-' :: _ :: _ => false
  | _ => true

/-- Options of a list of arguments, the first fault deciding. Two dashes end the options, and
nothing may follow them. -/
def givens (known : List Opt) (seen : List Given) : List String → Except UsageError (List Given)
  | [] => .ok seen
  | arg :: rest =>
    if arg = "--" then
      match rest with
      | [] => .ok seen
      | next :: _ => .error (.unexpected next)
    else
      match addArgument known seen arg with
      | .error e => .error e
      | .ok { given, awaiting := none } => givens known given rest
      | .ok { given, awaiting := some opt } =>
        match rest with
        | [] => .error (.missingValue opt)
        | value :: rest =>
          if isValue value then do
            let given ← Given.add given ⟨opt, value⟩
            givens known given rest
          else .error (.missingValue opt)

/-- What is asked of the help command: nothing more, or help on one command. -/
def helpTopic : List String → UsageError
  | [] => .help
  | [name] =>
    if (Action.ofName? name).isSome || name = "help" then .help else .unknownCommand name
  | name :: next :: _ =>
    if (Action.ofName? name).isSome || name = "help" then .unknownCommand next
    else .unknownCommand name

def valuesOf (opt : Opt) (gs : List Given) : List String :=
  (gs.filter (·.opt = opt)).map Given.value

/-- A command with its settings. -/
structure Command where
  action : Action
  files : List String
  output : String := "generated"
  inline : Bool := false
  config : Option String := none
  package : Option String := none
  printIr : Bool := false
  verbose : Bool := false
deriving Repr

/-- Texts that mean no where a yes or no is wanted from the environment, in any case. -/
def isFalsy (s : String) : Bool :=
  ["", "n", "no", "f", "false", "off", "0"].contains (String.ofList (s.toList.map Char.toLower))

/-- The command of a list of arguments. The environment may ask for injection too. -/
def Command.parse (inlineSetting : Option String) (args : List String) :
    Except UsageError Command :=
  match args with
  | [] => .error .missingCommand
  | name :: rest =>
    match Action.ofName? name with
    | none =>
      if name = "help" then .error (helpTopic rest)
      else
        match addArgument [] [] name with
        | .error .help => .error .help
        | _ => .error (.unknownCommand name)
    | some action => do
      let gs ← givens (Opt.of action) [] rest
      let files := valuesOf .files gs
      if files.isEmpty then .error .missingFiles
      else
        let has (opt : Opt) : Bool := gs.any (·.opt = opt)
        return {
          action, files
          output := (valuesOf .output gs).head?.getD "generated"
          inline := has .inline || inlineSetting.any (!isFalsy ·)
          config := (valuesOf .config gs).head?
          package := (valuesOf .package gs).head?
          printIr := has .printIr
          verbose := has .verbose }

end FieldAccess.CommandLine
