import FieldAccess.Json.Basic

/-! Records, tagged records and choices as JSON values. A record is an object, or the list of its
members in order; a tagged record is an object with a tag, or a list that the tag starts. What
stands inside a tagged record is read a little more freely. -/
namespace FieldAccess.Json

/-- Where a value stands: on its own, or inside a tagged record. -/
inductive Place where
  | outer
  | tagged
deriving DecidableEq, Repr

/-- A record as an object. A list gives its members by position and may stop early. -/
def record? (keys : List String) : Json → Option Json
  | obj members => some (obj members)
  | arr items => if items.length ≤ keys.length then some (obj (keys.zip items)) else none
  | _ => none

/-- Names of the cases of a tagged record, each with its keys in order. -/
abbrev Cases := List (String × List String)

/-- The case that a tag names. Inside a tagged record its number also stands for it. -/
def Cases.find? (cases : Cases) (place : Place) : Json → Option (String × List String)
  | str name => List.find? (fun c => c.1 == name) cases
  | int n => if place = .tagged ∧ 0 ≤ n then cases[n.toNat]? else none
  | _ => none

/-- The name of a tagged record's case, and its members as an object. -/
def case? (cases : Cases) (tag : String) (place : Place) (j : Json) : Option (String × Json) := do
  match j with
  | arr (first :: items) =>
    let (name, keys) ← cases.find? place first
    return (name, ← record? keys (arr items))
  | _ =>
    let (name, _) ← (j.get? tag).bind (cases.find? place)
    return (name, j)

/-- Content of a case without members: null, inside a tagged record also an empty object. -/
def isUnit (place : Place) : Json → Bool
  | null => true
  | obj [] => place = .tagged
  | _ => false

/-- One of several names: the name itself, or an object with it as the only key and no content. -/
def choice? (place : Place) (ofName? : String → Option α) : Json → Option α
  | str name => ofName? name
  | obj [(name, content)] => if isUnit place content then ofName? name else none
  | _ => none

end FieldAccess.Json
