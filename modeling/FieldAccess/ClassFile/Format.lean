import FieldAccess.ClassFile.Basic
import FieldAccess.Program.Json
import FieldAccess.Yaml.Reading

/-! Class files as JSON and as YAML. Both hold the same records, which are read in one way. -/
namespace FieldAccess

/-! ### Formats -/

/-- What is needed to read records: scalars, lists and structures with named entries, where `N` is
what stands for a value, `R` is a structure and `m` is how reading may fail. -/
structure Format (m : Type → Type) (N R : Type) where
  text : N → m String
  bool : N → m Bool
  /-- One of several names. -/
  choice {α : Type} : (String → Option α) → N → m α
  list {α : Type} : (N → m α) → N → m (List α)
  /-- A structure with entries among the given ones. -/
  record : List String → N → m R
  /-- An entry that has to be there. -/
  field {α : Type} : R → String → (N → m α) → m α
  /-- An entry with a default. -/
  fieldOr {α : Type} : R → String → α → (N → m α) → m α
  /-- What has been found, or a failure. -/
  found {α : Type} : Option α → m α

namespace Format

def json : Format Option Json Json where
  text := Json.asStr?
  bool := Json.asBool?
  choice := Json.choice? .outer
  list := Json.listOf?
  record := Json.record?
  field := Json.field?
  fieldOr := Json.fieldOr
  found o := o

def yaml : Format Yaml.Reading Yaml.Node (List (String × Yaml.Node)) where
  text := Yaml.Reading.text
  bool := Yaml.Reading.bool
  choice := Yaml.Reading.choice
  list := Yaml.Reading.list
  record := Yaml.Reading.record
  field := Yaml.Reading.field
  fieldOr := Yaml.Reading.fieldOr
  found := Yaml.Reading.ofOption

end Format

section
variable {m : Type → Type} [Monad m] {N R : Type} (F : Format m N R)

def TypeDesc.read (n : N) : m TypeDesc := do
  F.found (TypeDesc.parse? (← F.text n))

def Param.read (n : N) : m Param := do
  let r ← F.record ["name", "type"] n
  let name ← F.field r "name" F.text
  let type ← F.field r "type" (TypeDesc.read F)
  return { name, type }

def FieldDef.read (n : N) : m FieldDef := do
  let r ← F.record ["name", "type", "accessors", "annotations"] n
  let name ← F.field r "name" F.text
  let type ← F.field r "type" (TypeDesc.read F)
  let accessors ← F.fieldOr r "accessors" .getSet (F.choice AccessorKind.ofName?)
  let annotations ← F.fieldOr r "annotations" [] (F.list F.text)
  return { name, type, accessors, annotations }

def MethodDef.read (n : N) : m MethodDef := do
  let r ← F.record ["name", "params", "returns", "static", "annotations"] n
  let name ← F.field r "name" F.text
  let params ← F.fieldOr r "params" [] (F.list (Param.read F))
  let returns ← F.fieldOr r "returns" .void (TypeDesc.read F)
  let isStatic ← F.fieldOr r "static" false F.bool
  let annotations ← F.fieldOr r "annotations" [] (F.list F.text)
  return { name, params, returns, isStatic, annotations }

def ClassDef.read (n : N) : m ClassDef := do
  let r ← F.record ["name", "annotations", "supertypes", "fields", "methods"] n
  let name ← F.field r "name" F.text
  let annotations ← F.fieldOr r "annotations" [] (F.list F.text)
  let supertypes ← F.fieldOr r "supertypes" [] (F.list (TypeDesc.read F))
  let fields ← F.fieldOr r "fields" [] (F.list (FieldDef.read F))
  let methods ← F.fieldOr r "methods" [] (F.list (MethodDef.read F))
  return { name, annotations, supertypes, fields, methods }

def ClassFile.read (n : N) : m ClassFile := do
  let r ← F.record ["classes"] n
  let classes ← F.fieldOr r "classes" [] (F.list (ClassDef.read F))
  return { classes }

end

def ClassFile.ofJson? : Json → Option ClassFile := ClassFile.read .json

def ClassFile.ofYaml : Yaml.Node → Yaml.Reading ClassFile := ClassFile.read .yaml

/-- Reads a class file from its text. -/
def ClassFile.parse (text : String) : Except Yaml.Fault ClassFile := Yaml.read ClassFile.ofYaml text

/-! ### Writing -/

def FieldDef.toJson (f : FieldDef) : Json :=
  .obj [("name", .str f.name), ("type", f.type.toJson), ("accessors", .str f.accessors.name),
    ("annotations", .strs f.annotations)]

def MethodDef.toJson (m : MethodDef) : Json :=
  .obj [("name", .str m.name), ("params", .arr (m.params.map Param.toJson)),
    ("returns", m.returns.toJson), ("static", .bool m.isStatic),
    ("annotations", .strs m.annotations)]

def ClassDef.toJson (c : ClassDef) : Json :=
  .obj [("name", .str c.name), ("annotations", .strs c.annotations),
    ("supertypes", .arr (c.supertypes.map TypeDesc.toJson)),
    ("fields", .arr (c.fields.map FieldDef.toJson)),
    ("methods", .arr (c.methods.map MethodDef.toJson))]

def ClassFile.toJson (f : ClassFile) : Json :=
  .obj [("classes", .arr (f.classes.map ClassDef.toJson))]

end FieldAccess
