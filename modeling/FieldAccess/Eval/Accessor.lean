import FieldAccess.Eval.Basic
import FieldAccess.Program.Basic

/-! Calls into the accessor type nested in a class. -/
namespace FieldAccess

structure Accessor where
  host : NodeId
  mapper : NodeId
deriving DecidableEq, Repr

namespace Accessor

/-- The accessor type of a class. -/
def locate (p : Program) (host : NodeId) : Except EvalError Accessor :=
  match p.class? host with
  | none => .error (.notAClass host)
  | some decl =>
    match p.findReserved? host with
    | none => .error (.missingAccessorType decl.name)
    | some (mapper, _) => .ok ⟨host, mapper⟩

/-- Calls a static method of the accessor type by name when so many calls are active. -/
def callAt (a : Accessor) (ctx : Context) (depth : Nat) (name : String) (args : List Value) :
    Action Value := do
  let method ← Action.query fun _ => ctx.program.findMethod a.mapper name
  Action.invokeAt ctx depth method none args

def getAt (a : Accessor) (ctx : Context) (depth : Nat) (instance_ : Value) (field : String) :
    Action Value :=
  a.callAt ctx depth "get" [instance_, .str field]

def setAt (a : Accessor) (ctx : Context) (depth : Nat) (instance_ : Value) (field : String)
    (v : Value) : Action Unit := do
  let _ ← a.callAt ctx depth "set" [instance_, .str field, v]

def getTypedAt (a : Accessor) (ctx : Context) (depth : Nat) (instance_ : Value) (field : String) :
    Action Value :=
  a.callAt ctx depth (Naming.getter field) [instance_]

def setTypedAt (a : Accessor) (ctx : Context) (depth : Nat) (instance_ : Value) (field : String)
    (v : Value) : Action Unit := do
  let _ ← a.callAt ctx depth (Naming.setter field) [instance_, v]

/-! The same calls from outside, when none is active. -/

def get (a : Accessor) (ctx : Context) (instance_ : Value) (field : String) : Action Value :=
  a.getAt ctx 0 instance_ field

def set (a : Accessor) (ctx : Context) (instance_ : Value) (field : String) (v : Value) :
    Action Unit :=
  a.setAt ctx 0 instance_ field v

def getTyped (a : Accessor) (ctx : Context) (instance_ : Value) (field : String) : Action Value :=
  a.getTypedAt ctx 0 instance_ field

def setTyped (a : Accessor) (ctx : Context) (instance_ : Value) (field : String) (v : Value) :
    Action Unit :=
  a.setTypedAt ctx 0 instance_ field v

end Accessor

end FieldAccess
