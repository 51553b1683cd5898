import FieldAccess.Eval.Basic

/-! How calls run: steps of actions on a heap, conversion, and entering a method. The bodies that a
method runs are looked at elsewhere. -/
namespace FieldAccess

namespace Action

theorem ext {α : Type} {x y : Action α} (h : ∀ heap, x.run heap = y.run heap) : x = y := funext h

theorem bind_of_ok {α β : Type} {x : Action α} {h h' : Heap} {a : α} (hx : x.run h = .ok a h')
    (f : α → Action β) : (x >>= f).run h = (f a).run h' := by
  rw [EStateM.run_bind, hx]

theorem bind_of_error {α β : Type} {x : Action α} {h h' : Heap} {e : EvalError}
    (hx : x.run h = .error e h') (f : α → Action β) : (x >>= f).run h = .error e h' := by
  rw [EStateM.run_bind, hx]

@[simp] theorem run_throw {α : Type} (e : EvalError) (h : Heap) :
    (throw e : Action α).run h = .error e h := rfl

theorem throw_bind {α β : Type} (e : EvalError) (f : α → Action β) :
    ((throw e : Action α) >>= f) = throw e := rfl

theorem query_of_ok {α : Type} {f : Heap → Except EvalError α} {h : Heap} {a : α}
    (hf : f h = .ok a) : (query f).run h = .ok a h := by
  simp [query, EStateM.run, hf]

theorem query_of_error {α : Type} {f : Heap → Except EvalError α} {h : Heap} {e : EvalError}
    (hf : f h = .error e) : (query f).run h = .error e h := by
  simp [query, EStateM.run, hf]

/-- What can be seen of an action apart from the reason of its failure. -/
def outcome {α : Type} (x : Action α) (h : Heap) : Option α × Heap :=
  match x.run h with
  | .ok a h' => (some a, h')
  | .error _ h' => (none, h')

theorem outcome_of_ok {α : Type} {x : Action α} {h h' : Heap} {a : α} (hx : x.run h = .ok a h') :
    x.outcome h = (some a, h') := by
  simp [outcome, hx]

theorem outcome_of_error {α : Type} {x : Action α} {h h' : Heap} {e : EvalError}
    (hx : x.run h = .error e h') : x.outcome h = (none, h') := by
  simp [outcome, hx]

end Action

/-! ### Conversion -/

namespace Heap

/-- A value that is converted stays the same. -/
theorem eq_of_coerce {h : Heap} {types : Hierarchy} {v w : Value} {t : TypeDesc}
    (hw : h.coerce types v t = .ok w) : w = v := by
  unfold coerce at hw
  cases ha : h.accepts types v t with
  | error e => rw [ha] at hw; cases hw
  | ok b =>
    rw [ha] at hw
    cases b with
    | false => cases hw
    | true => cases hw; rfl

theorem coerce_ok_iff {h : Heap} {types : Hierarchy} {v : Value} {t : TypeDesc} :
    h.coerce types v t = .ok v ↔ h.accepts types v t = .ok true := by
  unfold coerce
  cases ha : h.accepts types v t with
  | error e => exact ⟨nofun, nofun⟩
  | ok b => cases b <;> simp [bind, Except.bind, pure, Except.pure]

/-- Arguments of a type play no part in conversion. -/
theorem accepts_erasure (h : Heap) (types : Hierarchy) (v : Value) (t : TypeDesc) :
    h.accepts types v t.erasure = h.accepts types v t := by
  cases t with
  | void | any | primitive p | boxed p => rfl
  | named name args => cases v <;> rfl

end Heap

namespace Action

theorem coerce_of_ok {ctx : Context} {h : Heap} {v w : Value} {t : TypeDesc}
    (hw : h.coerce ctx.types v t = .ok w) : (coerce ctx v t).run h = .ok v h := by
  obtain rfl := Heap.eq_of_coerce hw
  exact query_of_ok hw

theorem coerce_of_error {ctx : Context} {h : Heap} {v : Value} {t : TypeDesc} {e : EvalError}
    (he : h.coerce ctx.types v t = .error e) : (coerce ctx v t).run h = .error e h :=
  query_of_error he

/-- Conversion gives the value back or refuses it, and changes nothing. -/
theorem coerce_cases (ctx : Context) (v : Value) (t : TypeDesc) (h : Heap) :
    (coerce ctx v t).run h = .ok v h ∨ ∃ e, (coerce ctx v t).run h = .error e h := by
  cases hc : h.coerce ctx.types v t with
  | ok w => exact Or.inl (coerce_of_ok hc)
  | error e => exact Or.inr ⟨e, coerce_of_error hc⟩

theorem coerce_ok_iff {ctx : Context} {v : Value} {t : TypeDesc} {h : Heap} :
    (coerce ctx v t).run h = .ok v h ↔ h.accepts ctx.types v t = .ok true := by
  rw [← Heap.coerce_ok_iff]
  constructor
  · intro hc
    cases hw : h.coerce ctx.types v t with
    | ok w => rw [Heap.eq_of_coerce hw]
    | error e => rw [coerce_of_error hw] at hc; cases hc
  · exact coerce_of_ok

theorem coerce_any (ctx : Context) (v : Value) : coerce ctx v .any = pure v := by
  apply ext
  intro h
  exact coerce_ok_iff.mpr rfl

theorem coerce_coerce {α : Type} (ctx : Context) (v : Value) (t : TypeDesc) (f : Value → Action α) :
    (do let w ← coerce ctx v t; let w ← coerce ctx w t; f w) =
      (do let w ← coerce ctx v t; f w) := by
  apply ext
  intro h
  rcases coerce_cases ctx v t h with hc | ⟨e, hc⟩
  · rw [bind_of_ok hc, bind_of_ok hc]
  · rw [bind_of_error hc, bind_of_error hc]

end Action

theorem Hierarchy.isSubtype_refl (types : Hierarchy) (name : String) :
    types.isSubtype name name = true := by
  simp [isSubtype, search]

theorem Action.coerce_string (ctx : Context) (s : String) :
    Action.coerce ctx (.str s) .string = pure (.str s) := by
  apply Action.ext
  intro h
  refine Action.coerce_ok_iff.mpr ?_
  simp [TypeDesc.string, TypeDesc.ofName, Heap.accepts, Hierarchy.isSubtype_refl]

/-! ### Sequences -/

/-- A failure that is no fault of a handle. -/
def EvalError.Ordinary : EvalError → Prop
  | .danglingHandle _ => False
  | _ => True

namespace Action

theorem callSequence_clear (id : SeqId) :
    callSequence .clear (some (.seq id)) [] =
      (do
        let _ ← query fun h => h.sequence id
        modify fun h => h.setSequence id []
        return .null) := rfl

theorem callSequence_appendAll (id source : SeqId) :
    callSequence .appendAll (some (.seq id)) [.seq source] =
      (do
        let items ← query fun h => h.sequence source
        let current ← query fun h => h.sequence id
        modify fun h => h.setSequence id (current ++ items)
        return .null) := rfl

/-- Everything else is refused before the heap is looked at. -/
theorem callSequence_cases (op : SequenceOp) (receiver : Option Value) (args : List Value) :
    (∃ id, op = .clear ∧ receiver = some (.seq id) ∧ args = []) ∨
      (∃ id source, op = .appendAll ∧ receiver = some (.seq id) ∧ args = [.seq source]) ∨
      ∃ e, callSequence op receiver args = throw e ∧ e.Ordinary := by
  cases receiver with
  | none => exact Or.inr (Or.inr ⟨_, rfl, trivial⟩)
  | some v =>
    cases v with
    | seq id =>
      by_cases hl : args.length = op.arity
      · cases op with
        | clear => exact Or.inl ⟨id, rfl, rfl, List.length_eq_zero_iff.mp hl⟩
        | appendAll =>
          obtain ⟨arg, rfl⟩ := List.length_eq_one_iff.mp hl
          cases arg with
          | seq source => exact Or.inr (Or.inl ⟨id, source, rfl, rfl, rfl⟩)
          | _ => exact Or.inr (Or.inr ⟨_, rfl, trivial⟩)
      · refine Or.inr (Or.inr ⟨.arityMismatch (sequenceName op) op.arity args.length, ?_, trivial⟩)
        simp [callSequence, expectSequence, hl, throw_bind]
    | _ => exact Or.inr (Or.inr ⟨_, rfl, trivial⟩)

end Action

/-! ### Entering a method -/

namespace Action

/-- Runs a body one call deeper, or refuses when no room is left. -/
def descend {α : Type} (ctx : Context) (room : Nat) (body : Caller → Action α) : Action α :=
  match room with
  | 0 => throw (.callDepthExceeded maxCallDepth)
  | room + 1 => body (invokeWithin ctx room)

@[simp] theorem descend_succ {α : Type} (ctx : Context) (room : Nat) (body : Caller → Action α) :
    descend ctx (room + 1) body = body (invokeWithin ctx room) := rfl

theorem descend_bind {α β : Type} (ctx : Context) (room : Nat) (body : Caller → Action α)
    (f : α → Action β) :
    (descend ctx room body >>= f) = descend ctx room fun call => body call >>= f := by
  cases room <;> rfl

/-- The value a block ends with. -/
def runBody (ctx : Context) (body : Block) (frame : Frame) (call : Caller) : Action Value := do
  let flow ← execBlock ctx call body frame
  return Flow.result flow

theorem invokeWithin_eq (ctx : Context) (room : Nat) (method : NodeId) (receiver : Option Value)
    (args : List Value) :
    invokeWithin ctx room method receiver args =
      (do
        let entered ← enter ctx method receiver args
        descend ctx room (runBody ctx entered.2 entered.1)) := by
  cases room <;> rfl

theorem enter_eq {ctx : Context} {method : NodeId} {decl : MethodDecl} {body : Block}
    (hm : ctx.program.method? method = some decl) (hb : decl.body = some body)
    (receiver : Option Value) {args : List Value} (hl : args.length = decl.params.length) :
    enter ctx method receiver args =
      (do
        let this ← bindReceiver decl receiver
        let frame ← bindParams ctx decl.params args ⟨this, []⟩
        return (frame, body)) := by
  simp [enter, hm, hb, hl]

/-- A method of a type runs its body on its arguments. -/
theorem invoke_static {ctx : Context} {method : NodeId} {decl : MethodDecl} {body : Block}
    (hm : ctx.program.method? method = some decl) (hs : decl.isStatic = true)
    (hb : decl.body = some body) (room : Nat) (receiver : Option Value) {args : List Value}
    (hl : args.length = decl.params.length) :
    invokeWithin ctx room method receiver args =
      (do
        let frame ← bindParams ctx decl.params args ⟨none, []⟩
        descend ctx room (runBody ctx body frame)) := by
  simp [invokeWithin_eq, enter_eq hm hb receiver hl, bindReceiver, hs]

/-- A method of an object runs its body with the object as `this`. -/
theorem invoke_instance {ctx : Context} {method : NodeId} {decl : MethodDecl} {body : Block}
    (hm : ctx.program.method? method = some decl) (hs : decl.isStatic = false)
    (hb : decl.body = some body) (room : Nat) (id : ObjectId) {args : List Value}
    (hl : args.length = decl.params.length) :
    invokeWithin ctx room method (some (.object id)) args =
      (do
        let frame ← bindParams ctx decl.params args ⟨some (.object id), []⟩
        descend ctx room (runBody ctx body frame)) := by
  simp [invokeWithin_eq, enter_eq hm hb _ hl, bindReceiver, hs]

/-- A call with the wrong number of arguments fails before anything runs. -/
theorem invoke_arity {ctx : Context} {method : NodeId} {decl : MethodDecl}
    (hm : ctx.program.method? method = some decl) (room : Nat) (receiver : Option Value)
    {args : List Value} (hl : args.length ≠ decl.params.length) :
    invokeWithin ctx room method receiver args =
      throw (.arityMismatch decl.name decl.params.length args.length) := by
  simp [invokeWithin_eq, enter, hm, hl, throw_bind]

/-- A method without a body can be called by no one. -/
theorem invoke_abstract {ctx : Context} {method : NodeId} {decl : MethodDecl}
    (hm : ctx.program.method? method = some decl) (hb : decl.body = none) (room : Nat)
    (receiver : Option Value) (args : List Value) :
    ∃ e, invokeWithin ctx room method receiver args = throw e := by
  by_cases hl : args.length = decl.params.length
  · exact ⟨.abstractMethod decl.name, by simp [invokeWithin_eq, enter, hm, hb, hl, throw_bind]⟩
  · exact ⟨_, invoke_arity hm room receiver hl⟩

/-- A case is chosen by its label. -/
theorem execCases_eq (ctx : Context) (call : Caller) (key : String) (otherwise : Action Flow)
    (cases : List (String × List Stmt)) (frame : Frame) :
    execCases ctx call key otherwise cases frame =
      match Assoc.get? key cases with
      | some body => execBlock ctx call body frame
      | none => otherwise := by
  induction cases with
  | nil => rfl
  | cons c rest ih =>
    obtain ⟨label, body⟩ := c
    by_cases h : label = key
    · simp [Assoc.get?, h]
    · simp [Assoc.get?, h, ih]

end Action

end FieldAccess
