import FieldAccess.Body

/-! A program is a growing list of nodes. Classes, fields and methods are addressed by their
position; parent links and member lists hold positions only. Nodes are never removed. -/
namespace FieldAccess

inductive Origin where
  /-- Declared in the input. -/
  | user
  /-- Made by accessor synthesis. -/
  | synthesized
deriving DecidableEq, Repr

structure ClassDecl where
  name : String
  annotations : List String := []
  supertypes : List TypeDesc := []
  isStatic : Bool := false
  origin : Origin := .user
  /-- Fields, methods and nested classes in declaration order. -/
  members : List NodeId := []
deriving Repr

def ClassDecl.isMarked (c : ClassDecl) (marker : String) : Bool := c.annotations.contains marker

structure FieldDecl where
  name : String
  type : TypeDesc
  annotations : List String := []
deriving Repr

structure Param where
  name : String
  type : TypeDesc
deriving DecidableEq, Repr

structure MethodDecl where
  name : String
  isStatic : Bool := false
  params : List Param := []
  returnType : TypeDesc
  /-- Absent when the implementation lives elsewhere. -/
  body : Option Block := none
  annotations : List String := []
deriving Repr

inductive Node where
  | cls (decl : ClassDecl)
  | field (decl : FieldDecl)
  | method (decl : MethodDecl)
deriving Repr

namespace Node

def name : Node → String
  | cls c => c.name
  | field f => f.name
  | method m => m.name

def annotations : Node → List String
  | cls c => c.annotations
  | field f => f.annotations
  | method m => m.annotations

def asClass? : Node → Option ClassDecl
  | cls c => some c
  | _ => none

def asField? : Node → Option FieldDecl
  | field f => some f
  | _ => none

def asMethod? : Node → Option MethodDecl
  | method m => some m
  | _ => none

def isField : Node → Bool
  | field _ => true
  | _ => false

def isClass : Node → Bool
  | cls _ => true
  | _ => false

end Node

structure Entry where
  parent : Option NodeId
  node : Node
deriving Repr

structure Program where
  nodes : List Entry := []
  roots : List NodeId := []
deriving Repr

/-- Why a node cannot be used as a class. -/
inductive NodeError where
  | unknownNode (id : NodeId)
  | notAClass (id : NodeId)
deriving DecidableEq, Repr

def NodeError.message : NodeError → String
  | unknownNode id => "node " ++ NodeId.label id ++ " does not exist"
  | notAClass id => "node " ++ NodeId.label id ++ " is not a class"

namespace Program

def empty : Program := {}

def size (p : Program) : Nat := p.nodes.length

def node? (p : Program) (id : NodeId) : Option Node := p.nodes[id]?.map Entry.node

def parent? (p : Program) (id : NodeId) : Option NodeId := p.nodes[id]?.bind Entry.parent

def class? (p : Program) (id : NodeId) : Option ClassDecl := (p.node? id).bind Node.asClass?

def field? (p : Program) (id : NodeId) : Option FieldDecl := (p.node? id).bind Node.asField?

def method? (p : Program) (id : NodeId) : Option MethodDecl := (p.node? id).bind Node.asMethod?

def expectClass (p : Program) (id : NodeId) : Except NodeError ClassDecl :=
  match p.node? id with
  | some (.cls c) => .ok c
  | some _ => .error (.notAClass id)
  | none => .error (.unknownNode id)

/-- All nodes with their ids, in order. -/
def indexed (p : Program) : List (NodeId × Node) :=
  p.nodes.zipIdx.map fun (e, i) => (i, e.node)

/-- All classes, nested ones included, in node order. -/
def classes (p : Program) : List (NodeId × ClassDecl) :=
  p.indexed.filterMap fun (id, n) => n.asClass?.map (id, ·)

/-- First top-level class of the given name. -/
def findClass? (p : Program) (name : String) : Option NodeId :=
  p.roots.find? fun id => (p.class? id).any fun c => c.name == name

/-- Members of a class that exist, in declaration order; nothing for other nodes. -/
def members (p : Program) (id : NodeId) : List (NodeId × Node) :=
  match p.class? id with
  | none => []
  | some c => c.members.filterMap fun m => (p.node? m).map (m, ·)

def fieldsOf (p : Program) (id : NodeId) : List (NodeId × FieldDecl) :=
  (p.members id).filterMap fun (m, n) => n.asField?.map (m, ·)

def methodsOf (p : Program) (id : NodeId) : List (NodeId × MethodDecl) :=
  (p.members id).filterMap fun (m, n) => n.asMethod?.map (m, ·)

def nestedOf (p : Program) (id : NodeId) : List (NodeId × ClassDecl) :=
  (p.members id).filterMap fun (m, n) => n.asClass?.map (m, ·)

/-- Follows parent links from a node until a class is met, in at most `steps` steps. -/
def enclosingWithin (p : Program) : (steps : Nat) → NodeId → Option NodeId
  | 0, _ => none
  | steps + 1, id =>
    if (p.class? id).isSome then some id
    else (p.parent? id).bind (p.enclosingWithin steps)

/-- Nearest class around a node, the node itself if it is one. A chain of parents that does not come
back to itself is shorter than the program. -/
def enclosingClass? (p : Program) (id : NodeId) : Option NodeId :=
  p.enclosingWithin (p.size + 1) id

/-- Changes the declaration of a class; other nodes stay as they are. -/
def modifyClass (p : Program) (id : NodeId) (f : ClassDecl → ClassDecl) : Program :=
  { p with
    nodes := p.nodes.modify id fun e =>
      match e.node with
      | .cls c => { e with node := .cls (f c) }
      | _ => e }

/-- Adds a top-level class. -/
def addClass (p : Program) (c : ClassDecl) : Program × NodeId :=
  ({ nodes := p.nodes ++ [⟨none, .cls c⟩], roots := p.roots ++ [p.size] }, p.size)

/-- Adds a node as the last member of a class. -/
def attach (p : Program) (owner : NodeId) (n : Node) : Program × NodeId :=
  let grown : Program := { p with nodes := p.nodes ++ [⟨some owner, n⟩] }
  (grown.modifyClass owner fun c => { c with members := c.members ++ [p.size] }, p.size)

/-- As `attach`, when the owner is a class. -/
def addMember (p : Program) (owner : NodeId) (n : Node) : Except NodeError (Program × NodeId) := do
  let _ ← p.expectClass owner
  return p.attach owner n

def addNestedClass (p : Program) (owner : NodeId) (c : ClassDecl) :
    Except NodeError (Program × NodeId) :=
  p.addMember owner (.cls c)

def addField (p : Program) (owner : NodeId) (f : FieldDecl) : Except NodeError (Program × NodeId) :=
  p.addMember owner (.field f)

def addMethod (p : Program) (owner : NodeId) (m : MethodDecl) :
    Except NodeError (Program × NodeId) :=
  p.addMember owner (.method m)

def annotate (p : Program) (id : NodeId) (marker : String) : Program :=
  p.modifyClass id fun c => { c with annotations := c.annotations ++ [marker] }

def extend (p : Program) (id : NodeId) (supertype : TypeDesc) : Program :=
  p.modifyClass id fun c => { c with supertypes := c.supertypes ++ [supertype] }

/-- Adds members to a class one after the other. -/
def attachAll (p : Program) (owner : NodeId) (ns : List Node) : Program :=
  ns.foldl (fun p n => (p.attach owner n).1) p

end Program

/-! ### Accessors

By convention an accessor is named `get` or `set` before the field name with a capital first letter.
A getter that is backed by a field returns the field of `this`; a setter stores its one parameter,
which is named after the field, into it. -/

namespace Naming

/-- An ASCII small letter in first place becomes a capital; everything else stays. -/
def capitalizeChars : List Char → List Char
  | [] => []
  | c :: cs => c.toUpper :: cs

def capitalize (name : String) : String := String.ofList (capitalizeChars name.toList)

def getter (field : String) : String := "get" ++ capitalize field

def setter (field : String) : String := "set" ++ capitalize field

end Naming

def MethodDecl.getterOf (field : String) (type : TypeDesc) : MethodDecl :=
  { name := Naming.getter field
    returnType := type
    body := some [.ret (.loadField .this field)] }

def MethodDecl.setterOf (field : String) (type : TypeDesc) : MethodDecl :=
  { name := Naming.setter field
    params := [⟨field, type⟩]
    returnType := .void
    body := some [.storeField .this field (.var field)] }

/-- Adds a field with its getter and setter. -/
def Program.addProperty (p : Program) (owner : NodeId) (name : String)
    (type : TypeDesc) : Program :=
  p.attachAll owner
    [.field { name, type }, .method (.getterOf name type), .method (.setterOf name type)]

/-- The reserved name of the accessor type nested in a class. -/
def mapperName : String := "FieldMapper"

/-- First nested type of a class that carries the reserved name. -/
def Program.findReserved? (p : Program) (id : NodeId) : Option (NodeId × Origin) :=
  ((p.nestedOf id).find? fun n => n.2.name == mapperName).map fun n => (n.1, n.2.origin)

end FieldAccess
