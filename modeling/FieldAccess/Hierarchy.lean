import FieldAccess.Program.Basic

/-! Nominal subtyping over erased types. The hierarchy keeps the declared direct supertypes of each
name; a name is a subtype of every name that those links reach. Cycles are allowed. -/
namespace FieldAccess

structure Hierarchy where
  /-- Direct supertypes by name, each name once. -/
  entries : List (String × List String) := []
deriving Repr

namespace Hierarchy

def empty : Hierarchy := {}

/-- Appends the names that are not in the list yet. -/
def merge (known new : List String) : List String :=
  new.foldl (fun acc s => if acc.contains s then acc else acc ++ [s]) known

def declareIn (name : String) (supers : List String) :
    List (String × List String) → List (String × List String)
  | [] => [(name, merge [] supers)]
  | (n, known) :: rest =>
    if n = name then (n, merge known supers) :: rest else (n, known) :: declareIn name supers rest

/-- Adds direct supertypes to a name. -/
def declare (h : Hierarchy) (name : String) (supers : List String) : Hierarchy :=
  ⟨declareIn name supers h.entries⟩

/-- The reference types every program knows: `list` below `sequence`, and `string`. -/
def builtin : Hierarchy :=
  ((empty.declare TypeDesc.sequenceName []).declare TypeDesc.listName
    [TypeDesc.sequenceName]).declare TypeDesc.stringName []

/-- The built-in types and every class with its named supertypes. -/
def ofProgram (p : Program) : Hierarchy :=
  p.classes.foldl (fun h (_, c) => h.declare c.name (c.supertypes.filterMap TypeDesc.name?)) builtin

def parentsIn (name : String) : List (String × List String) → List String
  | [] => []
  | (n, supers) :: rest => if n = name then supers else parentsIn name rest

/-- Declared direct supertypes. -/
def parents (h : Hierarchy) (name : String) : List String := parentsIn name h.entries

def edgeCount (h : Hierarchy) : Nat := h.entries.foldr (fun e n => e.2.length + n) 0

/-- Looks for a name among those reachable from the pending ones. Every declared link is followed at
most once, so fuel for all links and all pending names is enough. -/
def search (h : Hierarchy) (goal : String) : (fuel : Nat) → (seen pending : List String) → Bool
  | 0, _, _ => false
  | _ + 1, _, [] => false
  | fuel + 1, seen, name :: pending =>
    if name = goal then true
    else if seen.contains name then h.search goal fuel seen pending
    else h.search goal fuel (name :: seen) (h.parents name ++ pending)

/-- Reflexive and transitive. -/
def isSubtype (h : Hierarchy) (sub sup : String) : Bool := h.search sup (h.edgeCount + 1) [] [sub]

/-- Whether values of one type can be stored in another, both without their arguments. -/
def isAssignable (h : Hierarchy) (source target : TypeDesc) : Bool :=
  match source.erasure, target.erasure with
  | _, .any => true
  | .named sub _, .named sup _ => h.isSubtype sub sup
  | s, t => s = t

/-- Whether a type belongs to the ordered collections. -/
def isSequence (h : Hierarchy) (t : TypeDesc) : Bool :=
  h.isAssignable t (TypeDesc.ofName TypeDesc.sequenceName)

end Hierarchy

end FieldAccess
