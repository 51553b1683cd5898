import FieldAccess.Proofs.Emission
import FieldAccess.Proofs.Successes

/-! The calls of a body decide whether it can be written. If each of them has a target there is a
text; if not, the fault is that of one of them. No expression is skipped, whatever the shortcuts of
its statement. -/
namespace FieldAccess

/-- A call, by what is called and the number of arguments. -/
structure Call where
  target : CallTarget
  found : Nat
deriving DecidableEq, Repr

mutual

def Expr.calls : Expr → List Call
  | .var _ => []
  | .this => []
  | .loadField object _ => object.calls
  | .cast _ value => value.calls
  | .notNull value => value.calls
  | .call none target args => Expr.argCalls args ++ [⟨target, args.length⟩]
  | .call (some receiver) target args =>
    Expr.argCalls args ++ ([⟨target, args.length⟩] ++ receiver.calls)

def Expr.argCalls : List Expr → List Call
  | [] => []
  | e :: es => e.calls ++ Expr.argCalls es

end

mutual

def Stmt.calls : Stmt → List Call
  | .expr e => e.calls
  | .ret value => value.calls
  | .branch cond thenBlock elseBlock =>
    cond.calls ++ (Block.calls thenBlock ++ Block.calls elseBlock)
  | .switch scrutinee cases default =>
    scrutinee.calls ++ (Block.caseCalls cases ++ Block.calls default)
  | .bind _ _ value => value.calls
  | .storeField object _ value => object.calls ++ value.calls
  | .throw (.unknownField key) => key.calls

def Block.calls : List Stmt → List Call
  | [] => []
  | s :: ss => s.calls ++ Block.calls ss

def Block.caseCalls : List (String × List Stmt) → List Call
  | [] => []
  | (_, body) :: rest => Block.calls body ++ Block.caseCalls rest

end

/-- The calls of a method; one without a body has none. -/
def MethodDecl.calls (m : MethodDecl) : List Call := Block.calls (m.body.getD [])

/-! ### Every call -/

section EveryCall

variable {ok : CallTarget → Nat → Prop}

mutual

theorem Expr.everyCall_iff (e : Expr) : e.EveryCall ok ↔ ∀ c ∈ e.calls, ok c.target c.found := by
  cases e with
  | var name => simp [Expr.EveryCall, Expr.calls]
  | this => simp [Expr.EveryCall, Expr.calls]
  | loadField object field => exact object.everyCall_iff
  | cast type value => exact value.everyCall_iff
  | notNull value => exact value.everyCall_iff
  | call receiver target args =>
    cases receiver with
    | none =>
      rw [Expr.EveryCall, Expr.calls, Expr.everyArg_iff args, List.forall_mem_append,
        List.forall_mem_singleton, and_comm]
    | some receiver =>
      rw [Expr.EveryCall, Expr.calls, receiver.everyCall_iff, Expr.everyArg_iff args,
        List.forall_mem_append, List.forall_mem_append, List.forall_mem_singleton]
      tauto

theorem Expr.everyArg_iff (es : List Expr) :
    Expr.EveryArg ok es ↔ ∀ c ∈ Expr.argCalls es, ok c.target c.found := by
  cases es with
  | nil => simp [Expr.EveryArg, Expr.argCalls]
  | cons e es =>
    rw [Expr.EveryArg, Expr.argCalls, e.everyCall_iff, Expr.everyArg_iff es, List.forall_mem_append]

end

mutual

theorem Stmt.everyCall_iff (s : Stmt) : s.EveryCall ok ↔ ∀ c ∈ s.calls, ok c.target c.found := by
  cases s with
  | expr e => exact e.everyCall_iff
  | ret value => exact value.everyCall_iff
  | bind name type value => exact value.everyCall_iff
  | storeField object field value =>
    rw [Stmt.EveryCall, Stmt.calls, object.everyCall_iff, value.everyCall_iff,
      List.forall_mem_append]
  | throw failure =>
    cases failure with
    | unknownField key => exact key.everyCall_iff
  | branch cond thenBlock elseBlock =>
    rw [Stmt.EveryCall, Stmt.calls, cond.everyCall_iff, Block.everyCall_iff thenBlock,
      Block.everyCall_iff elseBlock, List.forall_mem_append, List.forall_mem_append]
  | switch scrutinee cases default =>
    rw [Stmt.EveryCall, Stmt.calls, scrutinee.everyCall_iff, Block.everyCaseCall_iff cases,
      Block.everyCall_iff default, List.forall_mem_append, List.forall_mem_append]

theorem Block.everyCall_iff (b : List Stmt) :
    Block.EveryCall ok b ↔ ∀ c ∈ Block.calls b, ok c.target c.found := by
  cases b with
  | nil => simp [Block.EveryCall, Block.calls]
  | cons s ss =>
    rw [Block.EveryCall, Block.calls, s.everyCall_iff, Block.everyCall_iff ss,
      List.forall_mem_append]

theorem Block.everyCaseCall_iff (cases : List (String × List Stmt)) :
    Block.EveryCase ok cases ↔ ∀ c ∈ Block.caseCalls cases, ok c.target c.found := by
  cases cases with
  | nil => simp [Block.EveryCase, Block.caseCalls]
  | cons x rest =>
    obtain ⟨label, body⟩ := x
    rw [Block.EveryCase, Block.caseCalls, Block.everyCall_iff body, Block.everyCaseCall_iff rest,
      List.forall_mem_append]

end

end EveryCall

/-! ### What the calls decide -/

/-- A call has a target: a method that is there, or an operation of sequences with its number of
arguments. -/
def Call.Resolved (p : Program) (c : Call) : Prop :=
  match c.target with
  | .member id => ∃ m, p.method? id = some m
  | .sequence .clear => c.found = 0
  | .sequence .appendAll => c.found = 1

theorem Call.resolved_sequence {p : Program} {op : SequenceOp} {found : Nat} :
    Call.Resolved p ⟨.sequence op, found⟩ ↔ found = op.arity := by
  cases op <;> rfl

namespace Java

variable {p : Program}

/-- Why a call has no text. -/
def Faults (p : Program) (c : Call) (e : EmitError) : Prop :=
  targetName p c.target c.found = .error e

/-- A result where all calls have targets, and else the fault of one of them. -/
def DecidedBy (p : Program) (calls : Call → Prop) {α : Type} : Except EmitError α → Prop
  | .ok _ => ∀ c, calls c → c.Resolved p
  | .error e => ∃ c, calls c ∧ Faults p c e

theorem decidedBy_targetName (p : Program) (target : CallTarget) (found : Nat) :
    DecidedBy p (· ∈ [⟨target, found⟩]) (targetName p target found) := by
  cases h : targetName p target found with
  | error e => exact ⟨_, List.mem_singleton_self _, h⟩
  | ok name =>
    intro c hc
    rw [List.mem_singleton.mp hc]
    unfold targetName at h
    cases target with
    | member id =>
      cases hm : p.method? id with
      | some m => exact ⟨m, hm⟩
      | none => simp [hm] at h
    | sequence op =>
      by_cases harity : found = op.arity
      · exact Call.resolved_sequence.mpr harity
      · simp [harity] at h

theorem Faults.not_resolved {c : Call} {e : EmitError} (h : Faults p c e) : ¬ c.Resolved p := by
  obtain ⟨target, found⟩ := c
  cases target with
  | member id =>
    rintro ⟨m, hm⟩
    simp [Faults, targetName, hm] at h
  | sequence op =>
    intro harity
    simp [Faults, targetName, Call.resolved_sequence.mp harity] at h

namespace DecidedBy

variable {α β : Type} {x : Except EmitError α} {f : α → Except EmitError β} {cs ds : List Call}

theorem pure (a : α) : DecidedBy p (· ∈ []) (pure a : Except EmitError α) :=
  fun _ hc => absurd hc List.not_mem_nil

theorem congr {C D : Call → Prop} (h : DecidedBy p C x) (heq : ∀ c, C c ↔ D c) :
    DecidedBy p D x := by
  obtain rfl : C = D := funext fun c => propext (heq c)
  exact h

theorem bind {C D : Call → Prop} (hx : DecidedBy p C x)
    (hf : ∀ a, x = .ok a → DecidedBy p D (f a)) : DecidedBy p (fun c => C c ∨ D c) (x >>= f) := by
  cases x with
  | error e =>
    obtain ⟨c, hc, he⟩ := hx
    exact ⟨c, Or.inl hc, he⟩
  | ok a =>
    have hfa := hf a rfl
    change DecidedBy p (fun c => C c ∨ D c) (f a)
    cases h : f a with
    | error e =>
      rw [h] at hfa
      obtain ⟨c, hc, he⟩ := hfa
      exact ⟨c, Or.inr hc, he⟩
    | ok b =>
      rw [h] at hfa
      intro c hc
      rcases hc with hc | hc
      · exact hx c hc
      · exact hfa c hc

theorem append (hx : DecidedBy p (· ∈ cs) x) (hf : ∀ a, x = .ok a → DecidedBy p (· ∈ ds) (f a)) :
    DecidedBy p (· ∈ cs ++ ds) (x >>= f) :=
  (hx.bind hf).congr fun _ => List.mem_append.symm

theorem map {C : Call → Prop} (hx : DecidedBy p C x) (g : α → β) :
    DecidedBy p C (x >>= fun a => Pure.pure (g a)) := by
  cases x with
  | error e => exact hx
  | ok a => exact hx

theorem succeeds_iff {C : Call → Prop} (h : DecidedBy p C x) :
    Succeeds x ↔ ∀ c, C c → c.Resolved p := by
  cases x with
  | ok a => exact ⟨fun _ => h, fun _ => ⟨a, rfl⟩⟩
  | error e =>
    obtain ⟨c, hc, he⟩ := h
    refine ⟨?_, fun all => absurd (all c hc) he.not_resolved⟩
    rintro ⟨a, ha⟩
    cases ha

theorem mapM {γ : Type} {g : γ → Except EmitError β} {C : γ → Call → Prop} {l : List γ}
    (h : ∀ a ∈ l, DecidedBy p (C a) (g a)) : DecidedBy p (fun c => ∃ a ∈ l, C a c) (l.mapM g) := by
  induction l with
  | nil => exact (DecidedBy.pure []).congr fun c => by simp
  | cons a l ih =>
    rw [List.mapM_cons]
    have hhead := h a List.mem_cons_self
    have htail := ih fun b hb => h b (List.mem_cons_of_mem _ hb)
    exact (hhead.bind fun b _ => htail.map (b :: ·)).congr fun c => by simp

end DecidedBy

mutual

theorem decidedBy_exprText (e : Expr) : DecidedBy p (· ∈ e.calls) (exprText p e) := by
  cases e with
  | var name => exact .pure _
  | this => exact .pure _
  | loadField object field => exact (decidedBy_exprText object).map _
  | cast type value => exact (decidedBy_exprText value).map _
  | notNull value => exact (decidedBy_exprText value).map _
  | call receiver target args =>
    cases receiver with
    | none =>
      refine (decidedBy_argTexts args).append fun vs hvs => ?_
      rw [length_of_argTexts hvs]
      exact (decidedBy_targetName p target args.length).map _
    | some receiver =>
      refine (decidedBy_argTexts args).append fun vs hvs => ?_
      rw [length_of_argTexts hvs]
      refine (decidedBy_targetName p target args.length).append fun name _ => ?_
      exact (decidedBy_exprText receiver).map _

theorem decidedBy_argTexts (es : List Expr) :
    DecidedBy p (· ∈ Expr.argCalls es) (argTexts p es) := by
  cases es with
  | nil => exact .pure _
  | cons e es =>
    refine (decidedBy_exprText e).append fun v _ => ?_
    exact (decidedBy_argTexts es).map _

end

namespace Layout

variable {D : Type} (L : Layout D)

mutual

theorem decidedBy_stmt (s : Stmt) : DecidedBy p (· ∈ s.calls) (L.stmt p s) := by
  cases s with
  | expr e => exact (decidedBy_exprText e).map _
  | ret value => exact (decidedBy_exprText value).map _
  | bind name type value => exact (decidedBy_exprText value).map _
  | storeField object field value =>
    refine (decidedBy_exprText object).append fun o _ => ?_
    exact (decidedBy_exprText value).map _
  | throw failure =>
    cases failure with
    | unknownField key => exact (decidedBy_exprText key).map _
  | branch cond thenBlock elseBlock =>
    refine (decidedBy_exprText cond).append fun c _ => ?_
    refine (decidedBy_block thenBlock).append fun yes _ => ?_
    exact (decidedBy_block elseBlock).map _
  | switch scrutinee cases default =>
    refine (decidedBy_exprText scrutinee).append fun key _ => ?_
    refine (decidedBy_tests cases key "if").append fun chain _ => ?_
    exact (decidedBy_block default).map _

theorem decidedBy_block (b : List Stmt) : DecidedBy p (· ∈ Block.calls b) (L.block p b) := by
  cases b with
  | nil => exact .pure _
  | cons s ss =>
    refine (decidedBy_stmt s).append fun ls _ => ?_
    exact (decidedBy_block ss).map _

theorem decidedBy_tests (cases : List (String × List Stmt)) (key keyword : String) :
    DecidedBy p (· ∈ Block.caseCalls cases) (L.tests p key keyword cases) := by
  cases cases with
  | nil => exact .pure _
  | cons x rest =>
    obtain ⟨label, body⟩ := x
    refine (decidedBy_block body).append fun ls _ => ?_
    exact (decidedBy_tests rest key _).map _

end

theorem decidedBy_method (m : MethodDecl) : DecidedBy p (· ∈ m.calls) (L.method p m) := by
  have hbody : DecidedBy p (· ∈ m.calls) (L.body p m) := by
    unfold body MethodDecl.calls
    cases m.body with
    | none => exact .pure _
    | some body => exact L.decidedBy_block body
  exact hbody.map _

end Layout

end Java

end FieldAccess
