import FieldAccess.Eval.Accessor
import FieldAccess.Proofs.Calls

/-! Sessions: requests made one after the other on one heap. A request that fails leaves what it had
changed. A history lists its requests with the newest first. -/
namespace FieldAccess

inductive Request where
  | instantiate (id : NodeId)
  | sequence (items : List Value)
  | invoke (method : NodeId) (receiver : Option Value) (args : List Value)
  | get (host : NodeId) (instance_ : Value) (key : String)
  | set (host : NodeId) (instance_ : Value) (key : String) (v : Value)
  | getTyped (host : NodeId) (instance_ : Value) (field : String)
  | setTyped (host : NodeId) (instance_ : Value) (field : String) (v : Value)

namespace Request

/-- Calls into the accessor type of a class. -/
def client (ctx : Context) (host : NodeId) (use : Accessor → Action Value) : Action Value := do
  let a ← Action.query fun _ => Accessor.locate ctx.program host
  use a

def perform (ctx : Context) : Request → Action Value
  | instantiate id => Action.instantiate ctx id
  | sequence items => Action.newSequence items
  | invoke method receiver args => Action.invoke ctx method receiver args
  | get host instance_ key => client ctx host fun a => a.get ctx instance_ key
  | set host instance_ key v => client ctx host fun a => do
    a.set ctx instance_ key v
    return .null
  | getTyped host instance_ field => client ctx host fun a => a.getTyped ctx instance_ field
  | setTyped host instance_ field v => client ctx host fun a => do
    a.setTyped ctx instance_ field v
    return .null

/-- The heap that a request leaves. -/
def after (ctx : Context) (r : Request) (h : Heap) : Heap := ((r.perform ctx).outcome h).2

def succeeds (ctx : Context) (r : Request) (h : Heap) : Bool :=
  ((r.perform ctx).outcome h).1.isSome

end Request

/-- The heap after a history. -/
def heapAfter (ctx : Context) (start : Heap) : List Request → Heap
  | [] => start
  | r :: past => r.after ctx (heapAfter ctx start past)

theorem heapAfter_append (ctx : Context) (start : Heap) (later past : List Request) :
    heapAfter ctx start (later ++ past) = heapAfter ctx (heapAfter ctx start past) later := by
  induction later with
  | nil => rfl
  | cons r later ih => simp [heapAfter, ih]

namespace Request

variable {ctx : Context} {h : Heap}

theorem client_of_ok {host : NodeId} {a : Accessor} (ha : Accessor.locate ctx.program host = .ok a)
    (use : Accessor → Action Value) : (client ctx host use).run h = (use a).run h :=
  Action.bind_of_ok (Action.query_of_ok ha) use

theorem client_of_error {host : NodeId} {e : EvalError}
    (he : Accessor.locate ctx.program host = .error e) (use : Accessor → Action Value) :
    (client ctx host use).run h = .error e h :=
  Action.bind_of_error (Action.query_of_error he) use

theorem outcome_client_of_ok {host : NodeId} {a : Accessor}
    (ha : Accessor.locate ctx.program host = .ok a) (use : Accessor → Action Value) :
    (client ctx host use).outcome h = (use a).outcome h := by
  simp only [Action.outcome, client_of_ok ha use]

theorem outcome_client_of_error {host : NodeId} {e : EvalError}
    (he : Accessor.locate ctx.program host = .error e) (use : Accessor → Action Value) :
    (client ctx host use).outcome h = (none, h) :=
  Action.outcome_of_error (client_of_error he use)

/-- A call by name does nothing or is a call of a method. -/
theorem callAt_cases (a : Accessor) (name : String) (args : List Value) :
    (∃ e, (a.callAt ctx 0 name args).run h = .error e h) ∨
      ∃ method, (a.callAt ctx 0 name args).run h = (Action.invoke ctx method none args).run h := by
  cases hf : ctx.program.findMethod a.mapper name with
  | error e => exact Or.inl ⟨e, Action.bind_of_error (Action.query_of_error hf) _⟩
  | ok method => exact Or.inr ⟨method, Action.bind_of_ok (Action.query_of_ok hf) _⟩

/-- Exchanging the result of an action for another changes nothing else. -/
theorem outcome_discard {α β : Type} (x : Action α) (b : β) :
    (do let _ ← x; return b : Action β).outcome h =
      ((x.outcome h).1.map fun _ => b, (x.outcome h).2) := by
  simp only [Action.outcome, EStateM.run_bind]
  cases x.run h <;> rfl

variable (ctx h) in
/-- What a request can do to a heap: allocate one cell, nothing, or call one method. -/
theorem after_cases (r : Request) :
    (∃ id, r = .instantiate id) ∨ (∃ items, r = .sequence items) ∨ r.after ctx h = h ∨
      ∃ method receiver args,
        r.after ctx h = ((Action.invoke ctx method receiver args).outcome h).2 := by
  have hclient : ∀ (host : NodeId) (use : Accessor → Action Value) (name : String)
      (args : List Value),
      (∀ a : Accessor, ((use a).outcome h).2 = ((a.callAt ctx 0 name args).outcome h).2) →
      ((client ctx host use).outcome h).2 = h ∨ ∃ method receiver args,
        ((client ctx host use).outcome h).2 =
          ((Action.invoke ctx method receiver args).outcome h).2 := by
    intro host use name args huse
    cases hl : Accessor.locate ctx.program host with
    | error e => rw [outcome_client_of_error hl]; exact Or.inl rfl
    | ok a =>
      rw [outcome_client_of_ok hl, huse a]
      rcases callAt_cases a name args with ⟨e, he⟩ | ⟨method, hm⟩
      · rw [Action.outcome_of_error he]
        exact Or.inl rfl
      · exact Or.inr ⟨method, none, args, by simp only [Action.outcome, hm]⟩
  cases r with
  | instantiate id => exact Or.inl ⟨id, rfl⟩
  | sequence items => exact Or.inr (Or.inl ⟨items, rfl⟩)
  | invoke method receiver args => exact Or.inr (Or.inr (Or.inr ⟨method, receiver, args, rfl⟩))
  | get host instance_ key =>
    exact Or.inr (Or.inr (hclient host _ "get" [instance_, .str key] fun a => rfl))
  | getTyped host instance_ field =>
    exact Or.inr (Or.inr (hclient host _ (Naming.getter field) [instance_] fun a => rfl))
  | set host instance_ key v =>
    refine Or.inr (Or.inr (hclient host _ "set" [instance_, .str key, v] fun a => ?_))
    rw [outcome_discard, Accessor.set, Accessor.setAt, outcome_discard]
  | setTyped host instance_ field v =>
    refine Or.inr (Or.inr (hclient host _ (Naming.setter field) [instance_, v] fun a => ?_))
    rw [outcome_discard, Accessor.setTyped, Accessor.setTypedAt, outcome_discard]

end Request

end FieldAccess
