import FieldAccess.Assoc
import FieldAccess.Binary.Number

/-! JSON values. Objects keep the order of their members; whole numbers are told apart from numbers
with a fraction or an exponent. -/
namespace FieldAccess

inductive Json where
  | null
  | bool (b : Bool)
  | int (n : Int)
  | float (x : Double)
  | str (s : String)
  | arr (items : List Json)
  | obj (members : List (String × Json))
deriving Repr, Inhabited

/-- Ids have 32 bits. -/
def idLimit : Nat := 0x100000000

namespace Json

/-- Member of an object. -/
def get? (j : Json) (key : String) : Option Json :=
  match j with
  | obj members => Assoc.get? key members
  | _ => none

def asStr? : Json → Option String
  | str s => some s
  | _ => none

def asBool? : Json → Option Bool
  | bool b => some b
  | _ => none

def asArr? : Json → Option (List Json)
  | arr items => some items
  | _ => none

/-- A whole number below the id limit. -/
def asIndex? : Json → Option Nat
  | int (.ofNat n) => if n < idLimit then some n else none
  | _ => none

/-- A member that must be there. -/
def field? (j : Json) (key : String) (read : Json → Option α) : Option α := (j.get? key).bind read

/-- A member that has a default when it is missing. -/
def fieldOr (j : Json) (key : String) (default : α) (read : Json → Option α) : Option α :=
  match j.get? key with
  | none => some default
  | some v => read v

/-- A list of readable items. -/
def listOf? (read : Json → Option α) (j : Json) : Option (List α) := j.asArr?.bind (·.mapM read)

/-- Null, or a readable value. -/
def optionOf? (read : Json → Option α) : Json → Option (Option α)
  | null => some none
  | j => (read j).map some

mutual

/-- How deep collections nest; one for a value that is none. -/
def depth : Json → Nat
  | arr items => depthItems items + 1
  | obj members => depthMembers members + 1
  | _ => 1

def depthItems : List Json → Nat
  | [] => 0
  | j :: js => max j.depth (depthItems js)

def depthMembers : List (String × Json) → Nat
  | [] => 0
  | (_, j) :: rest => max j.depth (depthMembers rest)

end

def ofNat (n : Nat) : Json := int n

def ofOption (f : α → Json) : Option α → Json
  | none => null
  | some a => f a

end Json

end FieldAccess
