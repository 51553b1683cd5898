import FieldAccess.Assoc
import FieldAccess.Eval.Error
import FieldAccess.Value.Basic

/-! The heap: objects and sequences, each numbered from zero in order of creation. -/
namespace FieldAccess

structure ObjectCell where
  owner : NodeId
  className : String
  /-- Slots in declaration order. -/
  slots : List (String × Value)
deriving DecidableEq

structure Heap where
  objects : List ObjectCell := []
  sequences : List (List Value) := []
deriving DecidableEq, Inhabited

namespace Heap

def empty : Heap := {}

/-- Number of cells. -/
def size (h : Heap) : Nat := h.objects.length + h.sequences.length

def allocObject (h : Heap) (cell : ObjectCell) : Heap × ObjectId :=
  ({ h with objects := h.objects ++ [cell] }, h.objects.length)

def allocSequence (h : Heap) (items : List Value) : Heap × SeqId :=
  ({ h with sequences := h.sequences ++ [items] }, h.sequences.length)

def object (h : Heap) (id : ObjectId) : Except EvalError ObjectCell :=
  match h.objects[id]? with
  | some cell => .ok cell
  | none => .error (.danglingHandle (ObjectId.text id))

def sequence (h : Heap) (id : SeqId) : Except EvalError (List Value) :=
  match h.sequences[id]? with
  | some items => .ok items
  | none => .error (.danglingHandle (SeqId.text id))

/-- Writes a slot of an object. -/
def setSlot (h : Heap) (id : ObjectId) (field : String) (v : Value) : Heap :=
  { h with objects := h.objects.modify id fun c => { c with slots := Assoc.put field v c.slots } }

/-- Replaces the elements of a sequence. -/
def setSequence (h : Heap) (id : SeqId) (items : List Value) : Heap :=
  { h with sequences := h.sequences.set id items }

end Heap

end FieldAccess
