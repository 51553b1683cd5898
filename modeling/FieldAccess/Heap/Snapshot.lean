import FieldAccess.Heap.Basic
import FieldAccess.Json.Basic

/-! JSON snapshots of values. A reference to a cell that is being rendered already becomes a
back-reference text; cells that are only shared are rendered each time. -/
namespace FieldAccess

/-- A cell of the heap. -/
inductive Handle where
  | object (id : ObjectId)
  | seq (id : SeqId)
deriving DecidableEq

def Handle.backReference : Handle → Json
  | object id => .str ("<cycle " ++ ObjectId.text id ++ ">")
  | seq id => .str ("<cycle " ++ SeqId.text id ++ ">")

/-- A number as JSON, which knows only finite ones. -/
def Double.toJson (x : Double) : Json := if x.isFinite then .float x else .null

/-- JSON of a value that is no reference. -/
def Value.plainJson : Value → Json
  | .null | .seq _ | .object _ => .null
  | .bool b => .bool b
  | .int8 n => .int n.toInt
  | .int16 n => .int n.toInt
  | .int32 n => .int n.toInt
  | .int64 n => .int n.toInt
  | .char c => .str c.toString
  | .float32 x => x.toDouble.toJson
  | .float64 x => x.toJson
  | .str s => .str s

/-- A step that knows the cells that are being rendered, and may fail. -/
abbrev Rendering := StateT (List Handle) (Except EvalError)

/-- Renders a cell while it is on the path. One that is on it already becomes a back-reference. -/
def Handle.rendered (c : Handle) (contents : Rendering Json) : Rendering Json := do
  if (← get).contains c then return c.backReference
  modify (c :: ·)
  let json ← contents
  modify (·.erase c)
  return json

namespace Heap

def objectJson (className : String) (fields : List (String × Json)) : Json :=
  .obj [("class", .str className), ("fields", .obj fields)]

/-- Renders a value; its cell and all below it go over one path. The path holds cells of the heap,
each once, so fuel for the cells not on it is enough. -/
def rendering (h : Heap) : (fuel : Nat) → Value → Rendering Json
  | fuel, .seq id => (Handle.seq id).rendered do
    let items ← h.sequence id
    match fuel with
    | 0 => throw (.danglingHandle (SeqId.text id))
    | fuel + 1 => return .arr (← items.mapM fun v => h.rendering fuel v)
  | fuel, .object id => (Handle.object id).rendered do
    let cell ← h.object id
    match fuel with
    | 0 => throw (.danglingHandle (ObjectId.text id))
    | fuel + 1 =>
      let fields ← cell.slots.mapM fun s => do
        return (s.1, ← h.rendering fuel s.2)
      return objectJson cell.className fields
  | _, v => return v.plainJson

def snapshot (h : Heap) (v : Value) : Except EvalError Json := (h.rendering h.size v).run' []

end Heap

end FieldAccess
