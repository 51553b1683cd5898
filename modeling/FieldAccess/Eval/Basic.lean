import FieldAccess.Heap.Basic
import FieldAccess.Hierarchy
import FieldAccess.Program.Basic

/-! Evaluation of method bodies. An action either finishes or fails, and in both cases leaves a
heap. Statements and expressions are followed along their structure by an `Interpreter`; a call of
another method goes through `call`, which `invoke` fills in with one level of depth less. -/
namespace FieldAccess

/-! ### Checked conversion

A value crosses a cast, a parameter, a local or a slot unchanged or not at all; nothing is
widened. -/

/-- Whether a type takes a value. A primitive takes its own kind, a boxed primitive also null;
`string` and its supertypes take strings, sequence types take every sequence and class types take
objects of a subclass. Every nominal type takes null. -/
def Heap.accepts (h : Heap) (types : Hierarchy) (v : Value) : TypeDesc → Except EvalError Bool
  | .any => .ok true
  | .void => .ok false
  | .primitive p => .ok (v.primitive? == some p)
  | .boxed p => .ok (v.isNull || v.primitive? == some p)
  | .named name args =>
    match v with
    | .null => .ok true
    | .str _ => .ok (types.isSubtype TypeDesc.stringName name)
    | .seq _ => .ok (types.isSequence (.named name args))
    | .object id => do
      let cell ← h.object id
      return types.isSubtype cell.className name
    | _ => .ok false

def Heap.coerce (h : Heap) (types : Hierarchy) (v : Value) (t : TypeDesc) :
    Except EvalError Value := do
  if ← h.accepts types v t then return v
  else .error (.conversion t.text v.kindName)

/-! ### Actions -/

/-- What evaluation reads: the program and its types. -/
structure Context where
  program : Program
  types : Hierarchy

def Context.ofProgram (p : Program) : Context := ⟨p, Hierarchy.ofProgram p⟩

/-- A step that changes the heap and may fail; changes made before a failure stay. -/
abbrev Action := EStateM EvalError Heap

/-- A step that only reads the heap. -/
def Action.query {α : Type} (f : Heap → Except EvalError α) : Action α := fun h =>
  match f h with
  | .ok a => .ok a h
  | .error e => .error e h

/-- The receiver and the locals of a running method; a later binding of a name hides the earlier. -/
structure Frame where
  this : Option Value
  locals : List (String × Value)

def Frame.bind (f : Frame) (name : String) (v : Value) : Frame :=
  { f with locals := (name, v) :: f.locals }

/-- How a statement ends: the next one runs in a frame, or the method returns. -/
inductive Flow where
  | next (frame : Frame)
  | ret (v : Value)

/-- Calls a method of the program. -/
abbrev Caller := NodeId → Option Value → List Value → Action Value

namespace Action

def expectObject (v : Value) : Action ObjectId :=
  match v with
  | .object id => pure id
  | other => throw (.notAnObject other.kindName)

def expectSequence (v : Value) : Action SeqId :=
  match v with
  | .seq id => pure id
  | other => throw (.notASequence other.kindName)

def coerce (ctx : Context) (v : Value) (t : TypeDesc) : Action Value :=
  query fun h => h.coerce ctx.types v t

/-- Raw slot of an object. -/
def loadField (v : Value) (field : String) : Action Value := do
  let id ← expectObject v
  query fun h => do
    let cell ← h.object id
    match Assoc.get? field cell.slots with
    | some v => return v
    | none => .error (.noSuchField cell.className field)

/-- Stores into a declared field, after conversion to its type. -/
def storeField (ctx : Context) (id : ObjectId) (field : String) (v : Value) : Action Unit := do
  let cell ← query fun h => h.object id
  match (ctx.program.fieldsOf cell.owner).find? fun f => f.2.name == field with
  | none => throw (.noSuchField cell.className field)
  | some (_, decl) =>
    let v ← coerce ctx v decl.type
    modify fun h => h.setSlot id field v

def sequenceName : SequenceOp → String
  | .clear => "clear"
  | .appendAll => "append_all"

/-- An operation on a sequence. The elements to append are read before any is added. -/
def callSequence (op : SequenceOp) (receiver : Option Value) (args : List Value) :
    Action Value := do
  let name := sequenceName op
  let target ←
    match receiver with
    | none | some .null => throw (.nullReceiver name)
    | some v => expectSequence v
  if args.length ≠ op.arity then throw (.arityMismatch name op.arity args.length)
  match op, args with
  | .appendAll, arg :: _ =>
    let source ←
      match arg with
      | .null => throw (.nullArgument name)
      | v => expectSequence v
    let items ← query fun h => h.sequence source
    let current ← query fun h => h.sequence target
    modify fun h => h.setSequence target (current ++ items)
  | _, _ =>
    let _ ← query fun h => h.sequence target
    modify fun h => h.setSequence target []
  return .null

def lookup (frame : Frame) (name : String) : Action Value :=
  match Assoc.get? name frame.locals with
  | some v => pure v
  | none => throw (.missingLocal name)

def this (frame : Frame) : Action Value :=
  match frame.this with
  | some v => pure v
  | none => throw (.missingLocal "this")

end Action

/-! ### Bodies

A body asks for steps, for calls and for one thing to be done after another; whatever provides these
can run it. -/

/-- What a body needs: to make a step that is an action on a heap, and to call a method. -/
structure Interpreter (m : Type → Type) where
  step {α : Type} : Action α → m α
  call : NodeId → Option Value → List Value → m Value

namespace Interpreter

variable {m : Type → Type} [Monad m] (I : Interpreter m) (ctx : Context)

/-- A member call from inside a body. -/
def callMember (method : NodeId) (receiver : Option Value) (args : List Value) : m Value :=
  match ctx.program.method? method with
  | none => I.step (throw (.notAMethod method))
  | some decl =>
    if !decl.isStatic && receiver.all Value.isNull then I.step (throw (.nullReceiver decl.name))
    else I.call method receiver args

def callTarget : CallTarget → Option Value → List Value → m Value
  | .member method, receiver, args => I.callMember ctx method receiver args
  | .sequence op, receiver, args => I.step (Action.callSequence op receiver args)

mutual

def eval (frame : Frame) : Expr → m Value
  | .var name => I.step (Action.lookup frame name)
  | .this => I.step (Action.this frame)
  | .loadField object field => do
    let v ← eval frame object
    I.step (Action.loadField v field)
  | .cast type value => do
    let v ← eval frame value
    I.step (Action.coerce ctx v type)
  | .notNull value => do
    let v ← eval frame value
    return .bool !v.isNull
  | .call none target args => do
    let vs ← evalArgs frame args
    I.callTarget ctx target none vs
  | .call (some receiver) target args => do
    let v ← eval frame receiver
    let vs ← evalArgs frame args
    I.callTarget ctx target (some v) vs

/-- Arguments from left to right. -/
def evalArgs (frame : Frame) : List Expr → m (List Value)
  | [] => return []
  | e :: es => do
    let v ← eval frame e
    let vs ← evalArgs frame es
    return v :: vs

end

mutual

def exec : Stmt → Frame → m Flow
  | .expr e, frame => do
    let _ ← I.eval ctx frame e
    return .next frame
  | .ret value, frame => do
    let v ← I.eval ctx frame value
    return .ret v
  | .branch cond thenBlock elseBlock, frame => do
    match ← I.eval ctx frame cond with
    | .bool true => execBlock thenBlock frame
    | .bool false => execBlock elseBlock frame
    | other => I.step (throw (.conversion "bool" other.kindName))
  | .switch scrutinee cases default, frame => do
    match ← I.eval ctx frame scrutinee with
    | .str key => execCases key (execBlock default frame) cases frame
    | .null => execBlock default frame
    | other => I.step (throw (.conversion TypeDesc.stringName other.kindName))
  | .bind name type value, frame => do
    let v ← I.eval ctx frame value
    let v ← I.step (Action.coerce ctx v type)
    return .next (frame.bind name v)
  | .storeField object field value, frame => do
    let id ← I.step (Action.expectObject (← I.eval ctx frame object))
    let v ← I.eval ctx frame value
    I.step (Action.storeField ctx id field v)
    return .next frame
  | .throw (.unknownField key), frame => do
    let v ← I.eval ctx frame key
    I.step (throw (.unknownField v.text))

def execBlock : List Stmt → Frame → m Flow
  | [], frame => return .next frame
  | s :: ss, frame => do
    match ← exec s frame with
    | .next frame => execBlock ss frame
    | .ret v => return .ret v

/-- The body of the first case with the given label, or what is to run without one. -/
def execCases (key : String) (otherwise : m Flow) : List (String × List Stmt) → Frame → m Flow
  | [], _ => otherwise
  | (label, body) :: rest, frame =>
    if label = key then execBlock body frame else execCases key otherwise rest frame

end

/-- Steps and calls are made as they come. -/
def ofHeap (call : Caller) : Interpreter Action := ⟨id, call⟩

end Interpreter

namespace Action

/-! ### Bodies on a heap -/

variable (ctx : Context) (call : Caller) (frame : Frame)

def callMember (method : NodeId) (receiver : Option Value) (args : List Value) : Action Value :=
  (Interpreter.ofHeap call).callMember ctx method receiver args

def callTarget (target : CallTarget) (receiver : Option Value) (args : List Value) : Action Value :=
  (Interpreter.ofHeap call).callTarget ctx target receiver args

def eval (e : Expr) : Action Value := (Interpreter.ofHeap call).eval ctx frame e

def evalArgs (es : List Expr) : Action (List Value) :=
  (Interpreter.ofHeap call).evalArgs ctx frame es

def exec (s : Stmt) (frame : Frame) : Action Flow := (Interpreter.ofHeap call).exec ctx s frame

def execBlock (ss : List Stmt) (frame : Frame) : Action Flow :=
  (Interpreter.ofHeap call).execBlock ctx ss frame

def execCases (key : String) (otherwise : Action Flow) (cases : List (String × List Stmt))
    (frame : Frame) : Action Flow :=
  (Interpreter.ofHeap call).execCases ctx key otherwise cases frame

theorem callMember_eq (method : NodeId) (receiver : Option Value) (args : List Value) :
    callMember ctx call method receiver args =
      match ctx.program.method? method with
      | none => throw (.notAMethod method)
      | some decl =>
        if !decl.isStatic && receiver.all Value.isNull then throw (.nullReceiver decl.name)
        else call method receiver args := rfl

@[simp]
theorem callTarget_member (method : NodeId) (receiver : Option Value) (args : List Value) :
    callTarget ctx call (.member method) receiver args =
      callMember ctx call method receiver args := rfl

@[simp]
theorem callTarget_sequence (op : SequenceOp) (receiver : Option Value) (args : List Value) :
    callTarget ctx call (.sequence op) receiver args = callSequence op receiver args := rfl

@[simp]
theorem eval_var (name : String) : eval ctx call frame (.var name) = lookup frame name := rfl

@[simp]
theorem eval_this : eval ctx call frame .this = this frame := rfl

@[simp]
theorem eval_loadField (object : Expr) (field : String) :
    eval ctx call frame (.loadField object field) =
      (do
        let v ← eval ctx call frame object
        loadField v field) := rfl

@[simp]
theorem eval_cast (type : TypeDesc) (value : Expr) :
    eval ctx call frame (.cast type value) =
      (do
        let v ← eval ctx call frame value
        coerce ctx v type) := rfl

@[simp]
theorem eval_notNull (value : Expr) :
    eval ctx call frame (.notNull value) =
      (do
        let v ← eval ctx call frame value
        return .bool !v.isNull) := rfl

@[simp]
theorem eval_call_none (target : CallTarget) (args : List Expr) :
    eval ctx call frame (.call none target args) =
      (do
        let vs ← evalArgs ctx call frame args
        callTarget ctx call target none vs) := rfl

@[simp]
theorem eval_call_some (receiver : Expr) (target : CallTarget) (args : List Expr) :
    eval ctx call frame (.call (some receiver) target args) =
      (do
        let v ← eval ctx call frame receiver
        let vs ← evalArgs ctx call frame args
        callTarget ctx call target (some v) vs) := rfl

@[simp]
theorem evalArgs_nil : evalArgs ctx call frame [] = pure [] := rfl

@[simp]
theorem evalArgs_cons (e : Expr) (es : List Expr) :
    evalArgs ctx call frame (e :: es) =
      (do
        let v ← eval ctx call frame e
        let vs ← evalArgs ctx call frame es
        return v :: vs) := rfl

@[simp]
theorem exec_expr (e : Expr) :
    exec ctx call (.expr e) frame =
      (do
        let _ ← eval ctx call frame e
        return .next frame) := rfl

@[simp]
theorem exec_ret (value : Expr) :
    exec ctx call (.ret value) frame =
      (do
        let v ← eval ctx call frame value
        return .ret v) := rfl

@[simp]
theorem exec_branch (cond : Expr) (thenBlock elseBlock : List Stmt) :
    exec ctx call (.branch cond thenBlock elseBlock) frame =
      (do
        match ← eval ctx call frame cond with
        | .bool true => execBlock ctx call thenBlock frame
        | .bool false => execBlock ctx call elseBlock frame
        | other => throw (.conversion "bool" other.kindName)) := rfl

@[simp]
theorem exec_switch (scrutinee : Expr) (cases : List (String × List Stmt)) (default : List Stmt) :
    exec ctx call (.switch scrutinee cases default) frame =
      (do
        match ← eval ctx call frame scrutinee with
        | .str key => execCases ctx call key (execBlock ctx call default frame) cases frame
        | .null => execBlock ctx call default frame
        | other => throw (.conversion TypeDesc.stringName other.kindName)) := rfl

@[simp]
theorem exec_bind (name : String) (type : TypeDesc) (value : Expr) :
    exec ctx call (.bind name type value) frame =
      (do
        let v ← eval ctx call frame value
        let v ← coerce ctx v type
        return .next (frame.bind name v)) := rfl

@[simp]
theorem exec_storeField (object : Expr) (field : String) (value : Expr) :
    exec ctx call (.storeField object field value) frame =
      (do
        let id ← expectObject (← eval ctx call frame object)
        let v ← eval ctx call frame value
        storeField ctx id field v
        return .next frame) := rfl

@[simp]
theorem exec_throw (key : Expr) :
    exec ctx call (.throw (.unknownField key)) frame =
      (do
        let v ← eval ctx call frame key
        throw (.unknownField v.text)) := rfl

@[simp]
theorem execBlock_nil : execBlock ctx call [] frame = pure (.next frame) := rfl

@[simp]
theorem execBlock_cons (s : Stmt) (ss : List Stmt) :
    execBlock ctx call (s :: ss) frame =
      (do
        match ← exec ctx call s frame with
        | .next frame => execBlock ctx call ss frame
        | .ret v => return .ret v) := rfl

@[simp]
theorem execCases_nil (key : String) (otherwise : Action Flow) :
    execCases ctx call key otherwise [] frame = otherwise := rfl

@[simp]
theorem execCases_cons (key : String) (otherwise : Action Flow) (label : String)
    (body : List Stmt) (rest : List (String × List Stmt)) :
    execCases ctx call key otherwise ((label, body) :: rest) frame =
      if label = key then execBlock ctx call body frame
      else execCases ctx call key otherwise rest frame := rfl

end Action

/-! ### Calls -/

namespace Action

/-- Converts arguments to the types of their parameters, from left to right. -/
def bindParams (ctx : Context) : List Param → List Value → Frame → Action Frame
  | p :: ps, v :: vs, frame => do
    let v ← coerce ctx v p.type
    bindParams ctx ps vs (frame.bind p.name v)
  | _, _, frame => return frame

/-- Receiver of a method; a static one has none. -/
def bindReceiver (decl : MethodDecl) (receiver : Option Value) : Action (Option Value) :=
  if decl.isStatic then return none
  else
    match receiver with
    | some (.object id) => return some (.object id)
    | none | some .null => throw (.nullReceiver decl.name)
    | some other => throw (.notAnObject other.kindName)

/-- Checks made before a body runs; gives the frame it starts in. -/
def enter (ctx : Context) (method : NodeId) (receiver : Option Value) (args : List Value) :
    Action (Frame × Block) := do
  match ctx.program.method? method with
  | none => throw (.notAMethod method)
  | some decl =>
    if args.length ≠ decl.params.length then
      throw (.arityMismatch decl.name decl.params.length args.length)
    match decl.body with
    | none => throw (.abstractMethod decl.name)
    | some body =>
      let this ← bindReceiver decl receiver
      let frame ← bindParams ctx decl.params args ⟨this, []⟩
      return (frame, body)

def maxCallDepth : Nat := 256

/-- Result of a body that ended in a given way. -/
def Flow.result : Flow → Value
  | .next _ => .null
  | .ret v => v

/-- Calls a method with room for so many nested calls, this one included. -/
def invokeWithin (ctx : Context) : (room : Nat) → Caller
  | 0, method, receiver, args => do
    let _ ← enter ctx method receiver args
    throw (.callDepthExceeded maxCallDepth)
  | room + 1, method, receiver, args => do
    let (frame, body) ← enter ctx method receiver args
    let flow ← execBlock ctx (invokeWithin ctx room) body frame
    return Flow.result flow

/-- Calls a method when so many calls are active. -/
def invokeAt (ctx : Context) (depth : Nat) : Caller := invokeWithin ctx (maxCallDepth - depth)

def invoke (ctx : Context) : Caller := invokeAt ctx 0

/-- A new object with every slot at its first value. -/
def instantiate (ctx : Context) (id : NodeId) : Action Value :=
  match ctx.program.class? id with
  | none => throw (.notAClass id)
  | some decl => fun h =>
    let slots := Assoc.ofPairs <|
      (ctx.program.fieldsOf id).map fun f => (f.2.name, Value.default f.2.type)
    let (h, object) := h.allocObject ⟨id, decl.name, slots⟩
    .ok (.object object) h

/-- A new sequence. -/
def newSequence (items : List Value) : Action Value := fun h =>
  let (h, id) := h.allocSequence items
  .ok (.seq id) h

/-- Elements of a sequence. -/
def items (v : Value) : Action (List Value) := do
  let id ← expectSequence v
  query fun h => h.sequence id

end Action

/-- First method of a class with the given name. -/
def Program.findMethod (p : Program) (id : NodeId) (name : String) : Except EvalError NodeId :=
  match p.class? id with
  | none => .error (.notAClass id)
  | some decl =>
    match (p.methodsOf id).find? fun m => m.2.name == name with
    | some (m, _) => .ok m
    | none => .error (.noSuchMethod decl.name name)

end FieldAccess
