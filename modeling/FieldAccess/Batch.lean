import FieldAccess.Injection

/-! A batch run over all marked classes. A fault in one class is reported and does not touch the
others. -/
namespace FieldAccess

inductive Severity where
  | error
  | warning
deriving DecidableEq, Repr

def Severity.name : Severity → String
  | error => "error"
  | warning => "warning"

/-- A message about a node. -/
structure Diagnostic where
  severity : Severity
  message : String
  anchor : NodeId
deriving DecidableEq, Repr

/-- Classes by what happened to them. -/
structure Report where
  injected : List NodeId := []
  alreadyPresent : List NodeId := []
  /-- Marked classes without a field. -/
  skipped : List NodeId := []
  failed : List NodeId := []
deriving DecidableEq, Repr

def Report.isEmpty (r : Report) : Bool :=
  r.injected.isEmpty && r.alreadyPresent.isEmpty && r.skipped.isEmpty && r.failed.isEmpty

/-- A program in the middle of a run, with what has been said so far. -/
structure Batch where
  program : Program
  report : Report := {}
  diagnostics : List Diagnostic := []

namespace Batch

/-- Annotation that marks a class for synthesis. -/
def marker : String := "Entity"

def errors (b : Batch) : List Diagnostic := b.diagnostics.filter fun d => d.severity == .error

def warnings (b : Batch) : List Diagnostic := b.diagnostics.filter fun d => d.severity == .warning

/-- Marked fields and methods are reported at the class around them. -/
def misplacedMarkers (p : Program) : List Diagnostic :=
  p.indexed.filterMap fun (id, n) =>
    if !n.isClass && n.annotations.contains marker then
      some
        { severity := .error
          message := "@" ++ marker ++ " can only be applied to classes"
          anchor := ((p.parent? id).bind p.enclosingClass?).getD id }
    else none

/-- Marked classes in node order. -/
def candidates (p : Program) : List NodeId :=
  (p.classes.filter fun c => c.2.isMarked marker).map Prod.fst

def alreadyPresentMessage (className : String) : String :=
  "fmapper: " ++ className ++ " already declares a nested type named " ++ mapperName ++
    "; accessors were not injected"

def injectionFailedMessage (className : String) (error : InjectError) : String :=
  "fmapper: inline injection failed for " ++ className ++ " (" ++ error.message ++ ")"

/-- One marked class. -/
def step (types : Hierarchy) (b : Batch) (id : NodeId) : Batch :=
  let className := ((b.program.class? id).map ClassDecl.name).getD ""
  if (b.program.fieldsOf id).isEmpty then
    { b with report := { b.report with skipped := b.report.skipped ++ [id] } }
  else
    match synthesize b.program types id with
    | .error errors =>
      { b with
        report := { b.report with failed := b.report.failed ++ [id] }
        diagnostics := b.diagnostics ++ errors.map fun e => ⟨.error, e.message, id⟩ }
    | .ok mapper =>
      match b.program.inject id mapper with
      | .ok (p, .injected _) =>
        { b with
          program := p
          report := { b.report with injected := b.report.injected ++ [id] } }
      | .ok (p, .alreadyPresent _ origin) =>
        { program := p
          report := { b.report with alreadyPresent := b.report.alreadyPresent ++ [id] }
          diagnostics :=
            if origin = .user then
              b.diagnostics ++ [⟨.warning, alreadyPresentMessage className, id⟩]
            else b.diagnostics }
      | .error e =>
        { b with
          report := { b.report with failed := b.report.failed ++ [id] }
          diagnostics := b.diagnostics ++ [⟨.warning, injectionFailedMessage className e, id⟩] }

/-- Reports misplaced markers and, when injection is on, treats every marked class. Types and
candidates are those of the program before the run. -/
def run (inline : Bool) (p : Program) : Batch :=
  let start : Batch := { program := p, diagnostics := misplacedMarkers p }
  if inline then (candidates p).foldl (step (Hierarchy.ofProgram p)) start else start

end Batch

end FieldAccess
