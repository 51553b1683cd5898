import FieldAccess.Assoc
import FieldAccess.Hierarchy
import FieldAccess.Program.Basic

/-! The catalog of a class: its fields, each with its kind and its conventional accessors. All
faults of a class are listed, not only the first. -/
namespace FieldAccess

/-- Declared type of a field with its kind. -/
inductive FieldType where
  | scalar (type : TypeDesc)
  | sequence (type : TypeDesc)
deriving DecidableEq, Repr

namespace FieldType

def declared : FieldType → TypeDesc
  | scalar t | sequence t => t

def isSequence : FieldType → Bool
  | sequence _ => true
  | scalar _ => false

def kindName : FieldType → String
  | scalar _ => "scalar"
  | sequence _ => "sequence"

def classify (types : Hierarchy) (t : TypeDesc) : FieldType :=
  if types.isSequence t then sequence t else scalar t

end FieldType

/-- A field with both accessors found. -/
structure FieldDesc where
  name : String
  capitalized : String
  type : FieldType
  field : NodeId
  getter : NodeId
  setter : NodeId
deriving DecidableEq, Repr

inductive CatalogError where
  | missingGetter (owner field method : String)
  | missingSetter (owner field method : String)
  | duplicateField (owner field : String)
  | emptyFieldName (owner : String)
  /-- Two fields whose accessors would have the same names. -/
  | accessorCollision (owner first second suffix : String)
  | node (error : NodeError)
deriving DecidableEq, Repr

def CatalogError.message : CatalogError → String
  | missingGetter owner field method =>
    "class '" ++ owner ++ "' is missing getter '" ++ method ++ "' for field '" ++ field ++ "'"
  | missingSetter owner field method =>
    "class '" ++ owner ++ "' is missing setter '" ++ method ++ "' for field '" ++ field ++ "'"
  | duplicateField owner field =>
    "class '" ++ owner ++ "' declares field '" ++ field ++ "' more than once"
  | emptyFieldName owner => "class '" ++ owner ++ "' declares a field with an empty name"
  | accessorCollision owner first second suffix =>
    "class '" ++ owner ++ "': fields '" ++ first ++ "' and '" ++ second ++
      "' both map to accessor suffix '" ++ suffix ++ "'"
  | node error => error.message

namespace Catalog

/-- Methods of an object with a given name and number of parameters. -/
def instanceMethods (p : Program) (owner : NodeId) (name : String) (arity : Nat) :
    List (NodeId × MethodDecl) :=
  (p.methodsOf owner).filter fun m =>
    !m.2.isStatic && m.2.name == name && m.2.params.length == arity

/-- The first method with the preferred property, else the first of all. -/
def pick (preferred : MethodDecl → Bool) (methods : List (NodeId × MethodDecl)) : Option NodeId :=
  (methods.find? fun m => preferred m.2).orElse (fun _ => methods.head?) |>.map Prod.fst

/-- Getter without parameters; one that returns the type of the field wins. -/
def getter? (p : Program) (owner : NodeId) (f : FieldDecl) : Option NodeId :=
  pick (fun m => m.returnType = f.type) (instanceMethods p owner (Naming.getter f.name) 0)

/-- Setter with one parameter; one that takes the type of the field wins. -/
def setter? (p : Program) (owner : NodeId) (f : FieldDecl) : Option NodeId :=
  pick (fun m => m.params.all fun q => q.type = f.type)
    (instanceMethods p owner (Naming.setter f.name) 1)

/-- What the fields before have taken: their names, and by suffix the field that has it. -/
structure Taken where
  names : List String := []
  suffixes : List (String × String) := []

/-- Faults for the accessors that were not found. -/
def missing (className : String) (f : FieldDecl) (getter setter : Option NodeId) :
    List CatalogError :=
  (if getter.isNone then [.missingGetter className f.name (Naming.getter f.name)] else []) ++
    (if setter.isNone then [.missingSetter className f.name (Naming.setter f.name)] else [])

/-- Faults of one field, or its description; and what is taken after it. -/
def examine (p : Program) (types : Hierarchy) (owner : NodeId) (className : String) (taken : Taken)
    (id : NodeId) (f : FieldDecl) : Taken × Except (List CatalogError) FieldDesc :=
  if f.name.isEmpty then (taken, .error [.emptyFieldName className])
  else if taken.names.contains f.name then (taken, .error [.duplicateField className f.name])
  else
    let suffix := Naming.capitalize f.name
    let named := { taken with names := taken.names ++ [f.name] }
    match Assoc.get? suffix taken.suffixes with
    | some first => (named, .error [.accessorCollision className first f.name suffix])
    | none =>
      let after := { named with suffixes := taken.suffixes ++ [(suffix, f.name)] }
      match getter? p owner f, setter? p owner f with
      | some getter, some setter =>
        (after,
          .ok { name := f.name, capitalized := suffix, type := .classify types f.type, field := id,
                getter, setter })
      | getter, setter => (after, .error (missing className f getter setter))

/-- Examines fields in order. -/
def examineAll (p : Program) (types : Hierarchy) (owner : NodeId) (className : String) :
    Taken → List (NodeId × FieldDecl) → List (Except (List CatalogError) FieldDesc)
  | _, [] => []
  | taken, (id, f) :: rest =>
    let (taken, result) := examine p types owner className taken id f
    result :: examineAll p types owner className taken rest

def errorsOf : Except (List CatalogError) FieldDesc → List CatalogError
  | .ok _ => []
  | .error es => es

def descOf? : Except (List CatalogError) FieldDesc → Option FieldDesc
  | .ok d => some d
  | .error _ => none

end Catalog

/-- Fields in declaration order, or all faults field by field. -/
def catalog (p : Program) (types : Hierarchy) (owner : NodeId) :
    Except (List CatalogError) (List FieldDesc) :=
  match p.expectClass owner with
  | .error e => .error [.node e]
  | .ok decl =>
    let results := Catalog.examineAll p types owner decl.name {} (p.fieldsOf owner)
    match results.flatMap Catalog.errorsOf with
    | [] => .ok (results.filterMap Catalog.descOf?)
    | errors => .error errors

end FieldAccess
