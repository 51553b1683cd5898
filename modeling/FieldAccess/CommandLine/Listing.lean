import FieldAccess.Batch

/-! What synthesis sees of the marked classes of a program, as text. -/
namespace FieldAccess.CommandLine

/-- A method with the types of its parameters and its result. -/
def methodLabel (p : Program) (id : NodeId) : String :=
  match p.method? id with
  | some m =>
    NodeId.label id ++ "(" ++ String.intercalate ", " (m.params.map fun q => q.type.text) ++
      "): " ++ m.returnType.text
  | none => NodeId.label id

def fieldLine (p : Program) (f : FieldDesc) : String :=
  "  " ++ f.name ++ ": " ++ f.type.declared.text ++ " (" ++ f.type.kindName ++ ") get" ++
    f.capitalized ++ " -> " ++ methodLabel p f.getter ++ ", set" ++ f.capitalized ++ " -> " ++
    methodLabel p f.setter

def originLabel : Origin → String
  | .user => "User"
  | .synthesized => "Synthesized"

def reservedLines (p : Program) (id : NodeId) : List String :=
  match p.findReserved? id with
  | some (existing, origin) =>
    ["  (already has a " ++ mapperName ++ ": " ++ NodeId.label existing ++ " " ++
      originLabel origin ++ ")"]
  | none => []

/-- Lines for the catalog of a class. -/
def catalogLines (p : Program) : Except (List CatalogError) (List FieldDesc) → List String
  | .ok [] => ["  no fields, skipped"]
  | .ok fields => fields.map (fieldLine p)
  | .error errors => errors.map fun e => "  error: " ++ e.message

/-- Lines for all marked classes, and how many of them have faults. -/
def listing (p : Program) : List String × Nat :=
  let types := Hierarchy.ofProgram p
  let marked := p.classes.filter fun c => c.2.isMarked Batch.marker
  let catalogs := marked.map fun (id, c) => (id, c, catalog p types id)
  let lines := catalogs.flatMap fun (id, c, result) =>
    c.name :: reservedLines p id ++ catalogLines p result
  let faulty := catalogs.filter fun (_, _, result) => !result.isOk
  if marked.isEmpty then (["[~] No @" ++ Batch.marker ++ " classes found"], 0)
  else (lines, faulty.length)

end FieldAccess.CommandLine
