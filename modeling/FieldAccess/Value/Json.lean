import FieldAccess.Json.Record
import FieldAccess.Value.Basic

/-! Values as JSON: an object with the `kind` of the value and its content under `value`, or the
list of the two. -/
namespace FieldAccess.Value

/-- A whole number in a range. -/
def intWithin? (low high : Int) : Json → Option Int
  | .int n => if low ≤ n ∧ n ≤ high then some n else none
  | _ => none

def double? : Json → Option Double
  | .int n => some (Double.ofInt n)
  | .float x => some x
  | _ => none

/-- A whole number is rounded once; any other number is a double before. -/
def single? : Json → Option Single
  | .int n => some (Single.ofInt n)
  | .float x => some x.toSingle
  | _ => none

def char? : Json → Option Char
  | .str s =>
    match s.toList with
    | [c] => some c
    | _ => none
  | _ => none

/-- A primitive value from its bare content. -/
def ofPrimitive? (p : Primitive) (content : Json) : Option Value :=
  match p with
  | .bool => content.asBool?.map bool
  | .int8 =>
    (intWithin? Int8.minValue.toInt Int8.maxValue.toInt content).map fun n => int8 (Int8.ofInt n)
  | .int16 =>
    (intWithin? Int16.minValue.toInt Int16.maxValue.toInt content).map fun n =>
      int16 (Int16.ofInt n)
  | .int32 =>
    (intWithin? Int32.minValue.toInt Int32.maxValue.toInt content).map fun n =>
      int32 (Int32.ofInt n)
  | .int64 =>
    (intWithin? Int64.minValue.toInt Int64.maxValue.toInt content).map fun n =>
      int64 (Int64.ofInt n)
  | .char => (char? content).map char
  | .float32 => (single? content).map float32
  | .float64 => (double? content).map float64

/-- A value from its kind and content. -/
def ofContent? (kind : String) (content : Option Json) : Option Value :=
  if kind = "null" then
    match content with
    | none | some .null => some null
    | some _ => none
  else
    content.bind fun content =>
      if kind = "str" then content.asStr?.map str
      else if kind = "seq" then content.asIndex?.map seq
      else if kind = "object" then content.asIndex?.map object
      else (Primitive.ofName? kind).bind fun p => ofPrimitive? p content

/-- Reads a value. Only in an object may the content be missing. -/
def ofJson? (j : Json) : Option Value := do
  let (kind, content) ←
    match j with
    | .arr [kind, content] => some (kind, some content)
    | .arr _ => none
    | _ => (j.get? "kind").map (·, j.get? "value")
  ofContent? (← Json.choice? .outer some kind) content

end FieldAccess.Value
