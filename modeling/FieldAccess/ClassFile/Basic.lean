import FieldAccess.Program.Basic

/-! Class files: what a user writes to describe classes, and the program they stand for. -/
namespace FieldAccess

/-- Which conventional accessors a field has. -/
inductive AccessorKind where
  | getSet
  | get
  | set
  | none
deriving DecidableEq, Repr

namespace AccessorKind

def hasGetter : AccessorKind → Bool
  | getSet | get => true
  | set | none => false

def hasSetter : AccessorKind → Bool
  | getSet | set => true
  | get | none => false

def name : AccessorKind → String
  | getSet => "get-set"
  | get => "get"
  | set => "set"
  | none => "none"

def all : List AccessorKind := [getSet, get, set, none]

def ofName? (s : String) : Option AccessorKind := all.find? fun k => k.name == s

end AccessorKind

structure FieldDef where
  name : String
  type : TypeDesc
  accessors : AccessorKind := .getSet
  annotations : List String := []
deriving DecidableEq, Repr

/-- A method whose implementation lives elsewhere. -/
structure MethodDef where
  name : String
  params : List Param := []
  returns : TypeDesc := .void
  isStatic : Bool := false
  annotations : List String := []
deriving DecidableEq, Repr

structure ClassDef where
  name : String
  annotations : List String := []
  supertypes : List TypeDesc := []
  fields : List FieldDef := []
  methods : List MethodDef := []
deriving DecidableEq, Repr

structure ClassFile where
  classes : List ClassDef := []
deriving DecidableEq, Repr

/-- A field followed by its accessors. -/
def FieldDef.nodes (f : FieldDef) : List Node :=
  .field { name := f.name, type := f.type, annotations := f.annotations } ::
    ((if f.accessors.hasGetter then [.method (.getterOf f.name f.type)] else []) ++
      (if f.accessors.hasSetter then [.method (.setterOf f.name f.type)] else []))

def MethodDef.node (m : MethodDef) : Node :=
  .method
    { name := m.name
      isStatic := m.isStatic
      params := m.params
      returnType := m.returns
      annotations := m.annotations }

/-- Members in order: each field with its accessors, then the methods. -/
def ClassDef.nodes (c : ClassDef) : List Node :=
  c.fields.flatMap FieldDef.nodes ++ c.methods.map MethodDef.node

/-- The class without its members. -/
def ClassDef.decl (c : ClassDef) : ClassDecl :=
  { name := c.name, annotations := c.annotations, supertypes := c.supertypes }

namespace Program

/-- Adds a class with all its members. -/
def populate (p : Program) (c : ClassDef) : Program × NodeId :=
  let (p, id) := p.addClass c.decl
  (p.attachAll id c.nodes, id)

/-- Adds classes in order and gives their ids. -/
def populateAll (p : Program) : List ClassDef → Program × List NodeId
  | [] => (p, [])
  | c :: cs =>
    let (p, id) := p.populate c
    let (p, ids) := p.populateAll cs
    (p, id :: ids)

end Program

def ClassFile.toProgram (f : ClassFile) : Program := (Program.empty.populateAll f.classes).1

end FieldAccess
