import FieldAccess.Proofs.Calls

/-! Other ways to run a method body than as an action on a heap. They are related to it on all
bodies as soon as their steps and calls are. -/
namespace FieldAccess

namespace Interpreter

/-! ### Related ways of running -/

/-- A relation between actions on a heap and what stands for them: it holds of steps and calls, and
goes on when one thing is done after another. -/
structure Related {m : Type → Type} [Monad m] (I : Interpreter m)
    (R : {α : Type} → Action α → m α → Prop) (call : Caller) : Prop where
  pure {α : Type} (a : α) : R (pure a) (pure a)
  step {α : Type} (x : Action α) : R x (I.step x)
  bind {α β : Type} {x : Action α} {y : m α} {f : α → Action β} {g : α → m β} :
    R x y → (∀ a, R (f a) (g a)) → R (x >>= f) (y >>= g)
  call (method : NodeId) (receiver : Option Value) (args : List Value) :
    R (call method receiver args) (I.call method receiver args)

namespace Related

variable {m : Type → Type} [Monad m] {I : Interpreter m} {R : {α : Type} → Action α → m α → Prop}
  {call : Caller}

theorem callTarget (related : I.Related R call) (ctx : Context) (target : CallTarget)
    (receiver : Option Value) (args : List Value) :
    R (Action.callTarget ctx call target receiver args)
      (I.callTarget ctx target receiver args) := by
  cases target with
  | sequence op => exact related.step _
  | member method =>
    rw [Action.callTarget_member, Action.callMember_eq, Interpreter.callTarget,
      Interpreter.callMember]
    cases ctx.program.method? method with
    | none => exact related.step _
    | some decl =>
      by_cases hnull : (!decl.isStatic && receiver.all Value.isNull) = true
      · simp only [if_pos hnull]
        exact related.step _
      · simp only [if_neg hnull]
        exact related.call method receiver args

mutual

theorem eval (related : I.Related R call) (ctx : Context) (frame : Frame) (e : Expr) :
    R (Action.eval ctx call frame e) (I.eval ctx frame e) := by
  cases e with
  | var name => exact related.step _
  | this => exact related.step _
  | loadField object field =>
    exact related.bind (eval related ctx frame object) fun v => related.step _
  | cast type value => exact related.bind (eval related ctx frame value) fun v => related.step _
  | notNull value => exact related.bind (eval related ctx frame value) fun v => related.pure _
  | call receiver target args =>
    cases receiver with
    | none =>
      exact related.bind (evalArgs related ctx frame args) fun vs =>
        related.callTarget ctx target none vs
    | some receiver =>
      refine related.bind (eval related ctx frame receiver) fun v => ?_
      exact related.bind (evalArgs related ctx frame args) fun vs =>
        related.callTarget ctx target (some v) vs

theorem evalArgs (related : I.Related R call) (ctx : Context) (frame : Frame) (es : List Expr) :
    R (Action.evalArgs ctx call frame es) (I.evalArgs ctx frame es) := by
  cases es with
  | nil => exact related.pure _
  | cons e es =>
    refine related.bind (eval related ctx frame e) fun v => ?_
    exact related.bind (evalArgs related ctx frame es) fun vs => related.pure _

end

mutual

theorem exec (related : I.Related R call) (ctx : Context) (s : Stmt) (frame : Frame) :
    R (Action.exec ctx call s frame) (I.exec ctx s frame) := by
  cases s with
  | expr e => exact related.bind (related.eval ctx frame e) fun _ => related.pure _
  | ret value => exact related.bind (related.eval ctx frame value) fun v => related.pure _
  | branch cond thenBlock elseBlock =>
    refine related.bind (related.eval ctx frame cond) fun v => ?_
    cases v with
    | bool b =>
      cases b with
      | true => exact execBlock related ctx thenBlock frame
      | false => exact execBlock related ctx elseBlock frame
    | _ => exact related.step _
  | switch scrutinee cases default =>
    refine related.bind (related.eval ctx frame scrutinee) fun v => ?_
    have hdefault := execBlock related ctx default frame
    cases v with
    | str key => exact execCases related ctx key hdefault cases frame
    | null => exact hdefault
    | _ => exact related.step _
  | bind name type value =>
    refine related.bind (related.eval ctx frame value) fun v => ?_
    exact related.bind (related.step _) fun w => related.pure _
  | storeField object field value =>
    refine related.bind (related.eval ctx frame object) fun v => ?_
    refine related.bind (related.step _) fun id => ?_
    refine related.bind (related.eval ctx frame value) fun w => ?_
    exact related.bind (related.step _) fun _ => related.pure _
  | throw failure =>
    cases failure with
    | unknownField key => exact related.bind (related.eval ctx frame key) fun v => related.step _

theorem execBlock (related : I.Related R call) (ctx : Context) (ss : List Stmt) (frame : Frame) :
    R (Action.execBlock ctx call ss frame) (I.execBlock ctx ss frame) := by
  cases ss with
  | nil => exact related.pure _
  | cons s ss =>
    refine related.bind (exec related ctx s frame) fun flow => ?_
    cases flow with
    | next frame => exact execBlock related ctx ss frame
    | ret v => exact related.pure _

theorem execCases (related : I.Related R call) (ctx : Context) (key : String)
    {otherwise : Action Flow} {otherwise' : m Flow} (ho : R otherwise otherwise')
    (cases : List (String × List Stmt)) (frame : Frame) :
    R (Action.execCases ctx call key otherwise cases frame)
      (I.execCases ctx key otherwise' cases frame) := by
  match cases with
  | [] => exact ho
  | (label, body) :: rest =>
    rw [Action.execCases_cons, Interpreter.execCases]
    split
    · exact execBlock related ctx body frame
    · exact execCases related ctx key ho rest frame

end

end Related

end Interpreter

end FieldAccess
