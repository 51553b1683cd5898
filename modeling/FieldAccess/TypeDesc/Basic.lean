/-! Declared types of fields, parameters and results, and their text: `name` or `name<arg, ...>`.
The reference form of a primitive is written `boxed<int64>`. -/
namespace FieldAccess

inductive Primitive where
  | bool
  | int8
  | int16
  | int32
  | int64
  | char
  | float32
  | float64
deriving DecidableEq, Repr

namespace Primitive

def all : List Primitive := [bool, int8, int16, int32, int64, char, float32, float64]

def name : Primitive → String
  | bool => "bool"
  | int8 => "int8"
  | int16 => "int16"
  | int32 => "int32"
  | int64 => "int64"
  | char => "char"
  | float32 => "float32"
  | float64 => "float64"

def ofName? (s : String) : Option Primitive := all.find? fun p => p.name == s

theorem ofName?_name (p : Primitive) : ofName? p.name = some p := by
  cases p <;> decide

end Primitive

inductive TypeDesc where
  | void
  | any
  | primitive (p : Primitive)
  | boxed (p : Primitive)
  | named (name : String) (args : List TypeDesc)
deriving Repr, Inhabited

namespace TypeDesc

mutual

def decEq : (a b : TypeDesc) → Decidable (a = b)
  | void, void => isTrue rfl
  | any, any => isTrue rfl
  | primitive p, primitive q =>
    if h : p = q then isTrue (h ▸ rfl) else isFalse fun e => h (by injection e)
  | boxed p, boxed q =>
    if h : p = q then isTrue (h ▸ rfl) else isFalse fun e => h (by injection e)
  | named n as, named m bs =>
    if h : n = m then
      match decEqArgs as bs with
      | isTrue h' => isTrue (h ▸ h' ▸ rfl)
      | isFalse h' => isFalse fun e => h' (by injection e)
    else isFalse fun e => h (by injection e)
  | void, any | void, primitive _ | void, boxed _ | void, named _ _
  | any, void | any, primitive _ | any, boxed _ | any, named _ _
  | primitive _, void | primitive _, any | primitive _, boxed _ | primitive _, named _ _
  | boxed _, void | boxed _, any | boxed _, primitive _ | boxed _, named _ _
  | named _ _, void | named _ _, any | named _ _, primitive _ | named _ _, boxed _ =>
    isFalse nofun

def decEqArgs : (as bs : List TypeDesc) → Decidable (as = bs)
  | [], [] => isTrue rfl
  | [], _ :: _ => isFalse nofun
  | _ :: _, [] => isFalse nofun
  | a :: as, b :: bs =>
    match decEq a b with
    | isFalse h => isFalse fun e => h (by injection e)
    | isTrue h =>
      match decEqArgs as bs with
      | isTrue h' => isTrue (h ▸ h' ▸ rfl)
      | isFalse h' => isFalse fun e => h' (by injection e)

end

instance : DecidableEq TypeDesc := decEq

/-- A nominal type without arguments. -/
def ofName (name : String) : TypeDesc := named name []

def sequenceName : String := "sequence"

def listName : String := "list"

def stringName : String := "string"

def boxedName : String := "boxed"

def string : TypeDesc := ofName stringName

/-- Name of a nominal type; the other types have none. -/
def name? : TypeDesc → Option String
  | named name _ => some name
  | _ => none

/-- The type without its arguments. -/
def erasure : TypeDesc → TypeDesc
  | named name _ => named name []
  | t => t

/-- The reference form of a primitive; every other type is one already. -/
def toBoxed : TypeDesc → TypeDesc
  | primitive p => boxed p
  | t => t

mutual

def text : TypeDesc → String
  | void => "void"
  | any => "any"
  | primitive p => p.name
  | boxed p => boxedName ++ "<" ++ p.name ++ ">"
  | named name [] => name
  | named name (a :: as) => name ++ "<" ++ a.text ++ argsText as ++ ">"

/-- The arguments after the first, each behind a comma. -/
def argsText : List TypeDesc → String
  | [] => ""
  | a :: as => ", " ++ a.text ++ argsText as

end

end TypeDesc

end FieldAccess
