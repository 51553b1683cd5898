import FieldAccess.Binary.Number
import FieldAccess.Text
import FieldAccess.TypeDesc.Basic

/-! Run-time values. A boxed primitive is the same value as the primitive; only its slot may also
hold null. Sequences and objects are handles into the heap. -/
namespace FieldAccess

/-- Position of a sequence in the heap, taken to stay below `idLimit`. -/
abbrev SeqId := Nat

/-- Position of an object in the heap, taken to stay below `idLimit`. -/
abbrev ObjectId := Nat

def SeqId.text (id : SeqId) : String := "sequence@" ++ Nat.repr id

def ObjectId.text (id : ObjectId) : String := "object@" ++ Nat.repr id

inductive Value where
  | null
  | bool (b : Bool)
  | int8 (n : Int8)
  | int16 (n : Int16)
  | int32 (n : Int32)
  | int64 (n : Int64)
  | char (c : Char)
  | float32 (x : Single)
  | float64 (x : Double)
  | str (s : String)
  | seq (id : SeqId)
  | object (id : ObjectId)
deriving DecidableEq, Inhabited

namespace Value

def isNull : Value → Bool
  | null => true
  | _ => false

/-- The primitive type whose value this is. -/
def primitive? : Value → Option Primitive
  | bool _ => some .bool
  | int8 _ => some .int8
  | int16 _ => some .int16
  | int32 _ => some .int32
  | int64 _ => some .int64
  | char _ => some .char
  | float32 _ => some .float32
  | float64 _ => some .float64
  | null | str _ | seq _ | object _ => none

def kindName : Value → String
  | null => "null"
  | str _ => "string"
  | seq _ => "sequence"
  | object _ => "object"
  | bool _ => Primitive.bool.name
  | int8 _ => Primitive.int8.name
  | int16 _ => Primitive.int16.name
  | int32 _ => Primitive.int32.name
  | int64 _ => Primitive.int64.name
  | char _ => Primitive.char.name
  | float32 _ => Primitive.float32.name
  | float64 _ => Primitive.float64.name

def zero : Primitive → Value
  | .bool => bool false
  | .int8 => int8 0
  | .int16 => int16 0
  | .int32 => int32 0
  | .int64 => int64 0
  | .char => char '\x00'
  | .float32 => float32 .zero
  | .float64 => float64 .zero

/-- First value of a slot: zero for a primitive, null for every other type. -/
def default : TypeDesc → Value
  | .primitive p => zero p
  | _ => null

def str? : Value → Option String
  | str s => some s
  | _ => none

def seq? : Value → Option SeqId
  | seq id => some id
  | _ => none

def object? : Value → Option ObjectId
  | object id => some id
  | _ => none

def text : Value → String
  | null => "null"
  | bool b => if b then "true" else "false"
  | int8 n => Text.ofInt n.toInt
  | int16 n => Text.ofInt n.toInt
  | int32 n => Text.ofInt n.toInt
  | int64 n => Text.ofInt n.toInt
  | char c => c.toString
  | float32 x => x.text
  | float64 x => x.text
  | str s => s
  | seq id => SeqId.text id
  | object id => ObjectId.text id

end Value

end FieldAccess
