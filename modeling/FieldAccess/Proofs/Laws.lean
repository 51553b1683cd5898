import FieldAccess.Proofs.Association
import FieldAccess.Proofs.Calls

/-! Laws of evaluation. A law says what holds of every heap, how a heap may change, which values may
be used and how a step may fail. It is enough to check the places where the heap is read or written;
every method body then keeps the law, whatever it does and wherever it is cut short. -/
namespace FieldAccess

structure Law (ctx : Context) where
  /-- Holds of the heap before and after every step. -/
  inv : Heap → Prop
  /-- How a step may change the heap. -/
  rel : Heap → Heap → Prop
  /-- Values that may be around in a heap. -/
  good : Heap → Value → Prop
  fault : EvalError → Prop
  refl (h : Heap) : rel h h
  trans {a b c : Heap} : rel a b → rel b c → rel a c
  stable {a b : Heap} {v : Value} : rel a b → good a v → good b v
  null (h : Heap) : good h .null
  bool (h : Heap) (b : Bool) : good h (.bool b)
  /-- Only a handle that leads nowhere needs a reason. -/
  ordinary (e : EvalError) : e.Ordinary → fault e
  object {h : Heap} {id : ObjectId} {e : EvalError} :
    inv h → good h (.object id) → h.object id = .error e → fault e
  sequence {h : Heap} {id : SeqId} {e : EvalError} :
    inv h → good h (.seq id) → h.sequence id = .error e → fault e
  slot {h : Heap} {id : ObjectId} {cell : ObjectCell} {field : String} {v : Value} :
    inv h → h.object id = .ok cell → Assoc.get? field cell.slots = some v → good h v
  item {h : Heap} {id : SeqId} {items : List Value} {v : Value} :
    inv h → h.sequence id = .ok items → v ∈ items → good h v
  store {h : Heap} {id : ObjectId} {cell : ObjectCell} {field : String}
    {decl : NodeId × FieldDecl} {v : Value} :
    inv h → good h v → h.object id = .ok cell →
    (ctx.program.fieldsOf cell.owner).find? (fun f => f.2.name == field) = some decl →
    h.accepts ctx.types v decl.2.type = .ok true →
    inv (h.setSlot id field v) ∧ rel h (h.setSlot id field v)
  replace {h : Heap} {id : SeqId} {old items : List Value} :
    inv h → h.sequence id = .ok old → (∀ v ∈ items, good h v) →
    inv (h.setSequence id items) ∧ rel h (h.setSequence id items)

namespace Law

variable {ctx : Context} (L : Law ctx) {α β : Type}

/-- From a heap, an action ends within the law, and if it does not fail, with `post`. -/
def Keeps (h : Heap) (x : Action α) (post : α → Heap → Prop) : Prop :=
  match x.run h with
  | .ok a h' => L.inv h' ∧ L.rel h h' ∧ post a h'
  | .error e h' => L.inv h' ∧ L.rel h h' ∧ L.fault e

variable {L} {h : Heap}

theorem keeps_pure {a : α} {post : α → Heap → Prop} (hi : L.inv h) (hp : post a h) :
    L.Keeps h (pure a) post := ⟨hi, L.refl h, hp⟩

theorem keeps_throw {e : EvalError} {post : α → Heap → Prop} (hi : L.inv h) (he : L.fault e) :
    L.Keeps h (throw e) post := ⟨hi, L.refl h, he⟩

theorem keeps_bind {x : Action α} {f : α → Action β} {mid : α → Heap → Prop}
    {post : β → Heap → Prop} (hx : L.Keeps h x mid)
    (hf : ∀ a h', L.inv h' → L.rel h h' → mid a h' → L.Keeps h' (f a) post) :
    L.Keeps h (x >>= f) post := by
  unfold Keeps at hx ⊢
  cases hr : x.run h with
  | error e h' =>
    rw [hr] at hx
    rw [Action.bind_of_error hr]
    exact hx
  | ok a h' =>
    rw [hr] at hx
    rw [Action.bind_of_ok hr]
    have hrest := hf a h' hx.1 hx.2.1 hx.2.2
    unfold Keeps at hrest
    cases hy : (f a).run h' with
    | ok b h'' =>
      rw [hy] at hrest
      exact ⟨hrest.1, L.trans hx.2.1 hrest.2.1, hrest.2.2⟩
    | error e h'' =>
      rw [hy] at hrest
      exact ⟨hrest.1, L.trans hx.2.1 hrest.2.1, hrest.2.2⟩

theorem keeps_query {f : Heap → Except EvalError α} {post : α → Heap → Prop} (hi : L.inv h)
    (hok : ∀ a, f h = .ok a → post a h) (herr : ∀ e, f h = .error e → L.fault e) :
    L.Keeps h (Action.query f) post := by
  unfold Keeps
  cases hf : f h with
  | ok a => rw [Action.query_of_ok hf]; exact ⟨hi, L.refl h, hok a hf⟩
  | error e => rw [Action.query_of_error hf]; exact ⟨hi, L.refl h, herr e hf⟩

theorem keeps_modify {f : Heap → Heap} (hf : L.inv (f h) ∧ L.rel h (f h)) :
    L.Keeps h (modify f : Action Unit) fun _ _ => True := ⟨hf.1, hf.2, trivial⟩

variable (L) in
/-- An action that ends with a value, if it does not fail. -/
def Gives (h : Heap) (x : Action Value) : Prop := L.Keeps h x fun v h' => L.good h' v

theorem gives_coerce {v : Value} (t : TypeDesc) (hi : L.inv h) (hv : L.good h v) :
    L.Gives h (Action.coerce ctx v t) := by
  refine keeps_query hi ?_ ?_
  · intro w hw
    rw [Heap.eq_of_coerce hw]
    exact hv
  · intro e he
    unfold Heap.coerce at he
    cases ha : h.accepts ctx.types v t with
    | ok b =>
      rw [ha] at he
      cases b with
      | true => cases he
      | false => cases he; exact L.ordinary _ trivial
    | error e' =>
      rw [ha] at he
      cases he
      -- only the class of an object has to be looked up
      cases t with
      | void | any | primitive p | boxed p => cases ha
      | named name args =>
        cases v with
        | object id =>
          cases hc : h.object id with
          | ok cell => simp [Heap.accepts, hc, bind, Except.bind, pure, Except.pure] at ha
          | error e'' =>
            simp only [Heap.accepts, hc, bind, Except.bind, Except.error.injEq] at ha
            subst ha
            exact L.object hi hv hc
        | _ => cases ha

/-! ### Steps that touch the heap -/

theorem keeps_expectObject {v : Value} (hi : L.inv h) (hv : L.good h v) :
    L.Keeps h (Action.expectObject v) fun id h' => L.good h' (.object id) := by
  cases v with
  | object id => exact keeps_pure hi hv
  | _ => exact keeps_throw hi (L.ordinary _ trivial)

theorem gives_loadField {v : Value} (field : String) (hi : L.inv h) (hv : L.good h v) :
    L.Gives h (Action.loadField v field) := by
  refine keeps_bind (keeps_expectObject hi hv) fun id h' hi' _ hid => ?_
  cases hc : h'.object id with
  | error e =>
    refine keeps_query hi' ?_ ?_ <;> intro x hx <;> simp only [hc, bind, Except.bind] at hx
    · cases hx
    · cases hx
      exact L.object hi' hid hc
  | ok cell =>
    cases hs : Assoc.get? field cell.slots with
    | none =>
      refine keeps_query hi' ?_ ?_ <;> intro x hx <;> simp only [hc, hs, bind, Except.bind] at hx
      · cases hx
      · cases hx
        exact L.ordinary _ trivial
    | some w =>
      refine keeps_query hi' ?_ ?_ <;> intro x hx <;>
        simp only [hc, hs, bind, Except.bind, pure, Except.pure] at hx
      · cases hx
        exact L.slot hi' hc hs
      · cases hx

theorem keeps_storeField {id : ObjectId} (field : String) {v : Value} (hi : L.inv h)
    (hid : L.good h (.object id)) (hv : L.good h v) :
    L.Keeps h (Action.storeField ctx id field v) fun _ _ => True := by
  have hobject : L.Keeps h (Action.query fun h => h.object id)
      fun cell h' => h'.object id = .ok cell :=
    keeps_query hi (fun _ hc => hc) fun _ he => L.object hi hid he
  refine keeps_bind hobject fun cell h' hi' hr hc => ?_
  cases hf : (ctx.program.fieldsOf cell.owner).find? fun f => f.2.name == field with
  | none => exact keeps_throw hi' (L.ordinary _ trivial)
  | some decl =>
    have hv' := L.stable hr hv
    -- conversion reads the heap it is made in, so that the store finds the value accepted
    rcases Action.coerce_cases ctx v decl.2.type h' with hcoerce | ⟨e, hcoerce⟩
    · have hstore := L.store hi' hv' hc hf (Action.coerce_ok_iff.mp hcoerce)
      simp only [Keeps, Action.bind_of_ok hcoerce]
      exact ⟨hstore.1, hstore.2, trivial⟩
    · have hgives := gives_coerce decl.2.type hi' hv'
      simp only [Gives, Keeps, hcoerce] at hgives
      simp only [Keeps, Action.bind_of_error hcoerce]
      exact hgives

theorem keeps_items {id : SeqId} (hi : L.inv h) (hid : L.good h (.seq id)) :
    L.Keeps h (Action.query fun h => h.sequence id)
      fun items h' => h'.sequence id = .ok items :=
  keeps_query hi (fun _ hs => hs) fun _ he => L.sequence hi hid he

theorem gives_callSequence (op : SequenceOp) {receiver : Option Value} {args : List Value}
    (hi : L.inv h) (hr : ∀ v, receiver = some v → L.good h v) (ha : ∀ v ∈ args, L.good h v) :
    L.Gives h (Action.callSequence op receiver args) := by
  rcases Action.callSequence_cases op receiver args with
    ⟨id, rfl, rfl, rfl⟩ | ⟨id, source, rfl, rfl, rfl⟩ | ⟨e, hthrow, he⟩
  · rw [Action.callSequence_clear]
    refine keeps_bind (keeps_items hi (hr _ rfl)) fun old h₁ hi₁ _ hold => ?_
    refine keeps_bind (keeps_modify (L.replace hi₁ hold nofun)) fun _ h₂ hi₂ _ _ => ?_
    exact keeps_pure hi₂ (L.null h₂)
  · rw [Action.callSequence_appendAll]
    refine keeps_bind (keeps_items hi (ha _ List.mem_cons_self)) fun items h₁ hi₁ hr₁ hitems => ?_
    refine keeps_bind (keeps_items hi₁ (L.stable hr₁ (hr _ rfl))) fun old h₂ hi₂ hr₂ hold => ?_
    have hgood : ∀ v ∈ old ++ items, L.good h₂ v := by
      intro v hv
      rcases List.mem_append.mp hv with hv | hv
      · exact L.item hi₂ hold hv
      · exact L.stable hr₂ (L.item hi₁ hitems hv)
    refine keeps_bind (keeps_modify (L.replace hi₂ hold hgood)) fun _ h₃ hi₃ _ _ => ?_
    exact keeps_pure hi₃ (L.null h₃)
  · rw [hthrow]
    exact keeps_throw hi (L.ordinary e he)

/-! ### Bodies -/

variable (L)

/-- Receiver and locals of a method that may be around. -/
def GoodFrame (h : Heap) (frame : Frame) : Prop :=
  (∀ v, frame.this = some v → L.good h v) ∧ ∀ x ∈ frame.locals, L.good h x.2

def GoodFlow (h : Heap) : Flow → Prop
  | .next frame => L.GoodFrame h frame
  | .ret v => L.good h v

/-- Every call keeps the law. -/
def Holds (call : Caller) : Prop :=
  ∀ (h : Heap) (method : NodeId) (receiver : Option Value) (args : List Value), L.inv h →
    (∀ v, receiver = some v → L.good h v) → (∀ v ∈ args, L.good h v) →
    L.Gives h (call method receiver args)

variable {L}

theorem GoodFrame.mono {h' : Heap} {frame : Frame} (hf : L.GoodFrame h frame) (hr : L.rel h h') :
    L.GoodFrame h' frame :=
  ⟨fun v hv => L.stable hr (hf.1 v hv), fun x hx => L.stable hr (hf.2 x hx)⟩

theorem GoodFrame.bind {frame : Frame} (hf : L.GoodFrame h frame) (name : String) {v : Value}
    (hv : L.good h v) : L.GoodFrame h (frame.bind name v) :=
  ⟨hf.1, List.forall_mem_cons.mpr ⟨hv, hf.2⟩⟩

theorem gives_callTarget {call : Caller} (hcall : L.Holds call) (target : CallTarget)
    {receiver : Option Value} {args : List Value} (hi : L.inv h)
    (hr : ∀ v, receiver = some v → L.good h v) (ha : ∀ v ∈ args, L.good h v) :
    L.Gives h (Action.callTarget ctx call target receiver args) := by
  cases target with
  | sequence op => exact gives_callSequence op hi hr ha
  | member method =>
    rw [Action.callTarget_member, Action.callMember_eq]
    cases hm : ctx.program.method? method with
    | none => exact keeps_throw hi (L.ordinary _ trivial)
    | some decl =>
      by_cases hnull : (!decl.isStatic && receiver.all Value.isNull) = true
      · simp only [if_pos hnull]
        exact keeps_throw hi (L.ordinary _ trivial)
      · simp only [if_neg hnull]
        exact hcall h method receiver args hi hr ha

mutual

theorem gives_eval {call : Caller} (hcall : L.Holds call) {frame : Frame} (e : Expr) {h : Heap}
    (hi : L.inv h) (hf : L.GoodFrame h frame) : L.Gives h (Action.eval ctx call frame e) := by
  cases e with
  | var name =>
    rw [Action.eval_var, Action.lookup]
    cases hv : Assoc.get? name frame.locals with
    | none => exact keeps_throw hi (L.ordinary _ trivial)
    | some v => exact keeps_pure hi (hf.2 _ (Assoc.mem_of_get? hv))
  | this =>
    rw [Action.eval_this, Action.this]
    cases hv : frame.this with
    | none => exact keeps_throw hi (L.ordinary _ trivial)
    | some v => exact keeps_pure hi (hf.1 v hv)
  | loadField object field =>
    rw [Action.eval_loadField]
    exact keeps_bind (gives_eval hcall object hi hf) fun v _ hi' _ hv =>
      gives_loadField field hi' hv
  | cast type value =>
    rw [Action.eval_cast]
    exact keeps_bind (gives_eval hcall value hi hf) fun v _ hi' _ hv => gives_coerce type hi' hv
  | notNull value =>
    rw [Action.eval_notNull]
    exact keeps_bind (gives_eval hcall value hi hf) fun v h' hi' _ _ => keeps_pure hi' (L.bool h' _)
  | call receiver target args =>
    cases receiver with
    | none =>
      rw [Action.eval_call_none]
      exact keeps_bind (keeps_evalArgs hcall args hi hf) fun vs _ hi' _ hvs =>
        gives_callTarget hcall target hi' nofun hvs
    | some receiver =>
      rw [Action.eval_call_some]
      refine keeps_bind (gives_eval hcall receiver hi hf) fun v h₁ hi₁ hr₁ hv => ?_
      refine keeps_bind (keeps_evalArgs hcall args hi₁ (hf.mono hr₁)) fun vs h₂ hi₂ hr₂ hvs => ?_
      refine gives_callTarget hcall target hi₂ ?_ hvs
      intro w hw
      cases hw
      exact L.stable hr₂ hv

theorem keeps_evalArgs {call : Caller} (hcall : L.Holds call) {frame : Frame} (es : List Expr)
    {h : Heap} (hi : L.inv h) (hf : L.GoodFrame h frame) :
    L.Keeps h (Action.evalArgs ctx call frame es) fun vs h' => ∀ v ∈ vs, L.good h' v := by
  cases es with
  | nil => exact keeps_pure hi nofun
  | cons e es =>
    rw [Action.evalArgs_cons]
    refine keeps_bind (gives_eval hcall e hi hf) fun v h₁ hi₁ hr₁ hv => ?_
    refine keeps_bind (keeps_evalArgs hcall es hi₁ (hf.mono hr₁)) fun vs h₂ hi₂ hr₂ hvs => ?_
    exact keeps_pure hi₂ (List.forall_mem_cons.mpr ⟨L.stable hr₂ hv, hvs⟩)

end

mutual

theorem keeps_exec {call : Caller} (hcall : L.Holds call) (s : Stmt) {frame : Frame} {h : Heap}
    (hi : L.inv h) (hf : L.GoodFrame h frame) :
    L.Keeps h (Action.exec ctx call s frame) fun flow h' => L.GoodFlow h' flow := by
  cases s with
  | expr e =>
    rw [Action.exec_expr]
    exact keeps_bind (gives_eval hcall e hi hf) fun _ _ hi' hr _ => keeps_pure hi' (hf.mono hr)
  | ret value =>
    rw [Action.exec_ret]
    exact keeps_bind (gives_eval hcall value hi hf) fun _ _ hi' _ hv => keeps_pure hi' hv
  | branch cond thenBlock elseBlock =>
    rw [Action.exec_branch]
    refine keeps_bind (gives_eval hcall cond hi hf) fun v h' hi' hr _ => ?_
    split
    · exact keeps_execBlock hcall thenBlock hi' (hf.mono hr)
    · exact keeps_execBlock hcall elseBlock hi' (hf.mono hr)
    · exact keeps_throw hi' (L.ordinary _ trivial)
  | switch scrutinee cases default =>
    rw [Action.exec_switch]
    refine keeps_bind (gives_eval hcall scrutinee hi hf) fun v h' hi' hr _ => ?_
    have hdefault := keeps_execBlock hcall default hi' (hf.mono hr)
    split
    · exact keeps_execCases hcall _ hdefault cases hi' (hf.mono hr)
    · exact hdefault
    · exact keeps_throw hi' (L.ordinary _ trivial)
  | bind name type value =>
    rw [Action.exec_bind]
    refine keeps_bind (gives_eval hcall value hi hf) fun v h₁ hi₁ hr₁ hv => ?_
    refine keeps_bind (gives_coerce type hi₁ hv) fun w h₂ hi₂ hr₂ hw => ?_
    exact keeps_pure hi₂ (((hf.mono hr₁).mono hr₂).bind name hw)
  | storeField object field value =>
    rw [Action.exec_storeField]
    refine keeps_bind (gives_eval hcall object hi hf) fun v h₁ hi₁ hr₁ hv => ?_
    refine keeps_bind (keeps_expectObject hi₁ hv) fun id h₂ hi₂ hr₂ hid => ?_
    have hf₂ := (hf.mono hr₁).mono hr₂
    refine keeps_bind (gives_eval hcall value hi₂ hf₂) fun w h₃ hi₃ hr₃ hw => ?_
    refine keeps_bind (keeps_storeField field hi₃ (L.stable hr₃ hid) hw) fun _ h₄ hi₄ hr₄ _ => ?_
    exact keeps_pure hi₄ ((hf₂.mono hr₃).mono hr₄)
  | throw failure =>
    cases failure with
    | unknownField key =>
      rw [Action.exec_throw]
      exact keeps_bind (gives_eval hcall key hi hf) fun _ _ hi' _ _ =>
        keeps_throw hi' (L.ordinary _ trivial)

theorem keeps_execBlock {call : Caller} (hcall : L.Holds call) (ss : List Stmt) {frame : Frame}
    {h : Heap} (hi : L.inv h) (hf : L.GoodFrame h frame) :
    L.Keeps h (Action.execBlock ctx call ss frame) fun flow h' => L.GoodFlow h' flow := by
  cases ss with
  | nil => exact keeps_pure hi hf
  | cons s ss =>
    rw [Action.execBlock_cons]
    refine keeps_bind (keeps_exec hcall s hi hf) fun flow h' hi' _ hflow => ?_
    cases flow with
    | next frame => exact keeps_execBlock hcall ss hi' hflow
    | ret v => exact keeps_pure hi' hflow

theorem keeps_execCases {call : Caller} (hcall : L.Holds call) (key : String) {frame : Frame}
    {h : Heap} {otherwise : Action Flow}
    (ho : L.Keeps h otherwise fun flow h' => L.GoodFlow h' flow) (cases : List (String × List Stmt))
    (hi : L.inv h) (hf : L.GoodFrame h frame) :
    L.Keeps h (Action.execCases ctx call key otherwise cases frame)
      fun flow h' => L.GoodFlow h' flow := by
  match cases with
  | [] => exact ho
  | (label, body) :: rest =>
    rw [Action.execCases_cons]
    split
    · exact keeps_execBlock hcall body hi hf
    · exact keeps_execCases hcall key ho rest hi hf

end

/-! ### Calls -/

theorem keeps_bindParams (params : List Param) {args : List Value} {frame : Frame} {h : Heap}
    (hi : L.inv h) (ha : ∀ v ∈ args, L.good h v) (hf : L.GoodFrame h frame) :
    L.Keeps h (Action.bindParams ctx params args frame) fun frame h' => L.GoodFrame h' frame := by
  induction params generalizing args frame h with
  | nil => exact keeps_pure hi hf
  | cons p ps ih =>
    cases args with
    | nil => exact keeps_pure hi hf
    | cons v vs =>
      rw [Action.bindParams]
      refine keeps_bind (gives_coerce p.type hi (ha v List.mem_cons_self)) fun w h' hi' hr hw => ?_
      exact ih hi' (fun u hu => L.stable hr (ha u (List.mem_cons_of_mem _ hu)))
        ((hf.mono hr).bind p.name hw)

theorem keeps_bindReceiver (decl : MethodDecl) {receiver : Option Value} (hi : L.inv h)
    (hr : ∀ v, receiver = some v → L.good h v) :
    L.Keeps h (Action.bindReceiver decl receiver) fun this h' => L.GoodFrame h' ⟨this, []⟩ := by
  unfold Action.bindReceiver
  split
  · exact keeps_pure hi ⟨nofun, nofun⟩
  · split
    · refine keeps_pure hi ⟨?_, nofun⟩
      intro v hv
      exact hr v hv
    · exact keeps_throw hi (L.ordinary _ trivial)
    · exact keeps_throw hi (L.ordinary _ trivial)
    · exact keeps_throw hi (L.ordinary _ trivial)

theorem keeps_enter {method : NodeId} {receiver : Option Value} {args : List Value} (hi : L.inv h)
    (hr : ∀ v, receiver = some v → L.good h v) (ha : ∀ v ∈ args, L.good h v) :
    L.Keeps h (Action.enter ctx method receiver args)
      fun entered h' => L.GoodFrame h' entered.1 := by
  cases hm : ctx.program.method? method with
  | none => simp only [Action.enter, hm]; exact keeps_throw hi (L.ordinary _ trivial)
  | some decl =>
    by_cases hl : args.length = decl.params.length
    · cases hb : decl.body with
      | none =>
        simp only [Action.enter, hm, hl, hb, ne_eq, not_true_eq_false, if_false]
        exact keeps_throw hi (L.ordinary _ trivial)
      | some body =>
        rw [Action.enter_eq hm hb receiver hl]
        refine keeps_bind (keeps_bindReceiver decl hi hr) fun this h₁ hi₁ hr₁ hthis => ?_
        refine keeps_bind (keeps_bindParams decl.params hi₁
          (fun v hv => L.stable hr₁ (ha v hv)) hthis) fun frame h₂ hi₂ _ hframe => ?_
        exact keeps_pure hi₂ hframe
    · simp only [Action.enter, hm, hl, ne_eq, not_false_eq_true, if_true, Action.throw_bind]
      exact keeps_throw hi (L.ordinary _ trivial)

/-- Every call of every method keeps the law, with any room for nested calls. -/
theorem holds_invokeWithin (room : Nat) : L.Holds (Action.invokeWithin ctx room) := by
  induction room with
  | zero =>
    intro h method receiver args hi hr ha
    rw [Action.invokeWithin_eq]
    refine keeps_bind (keeps_enter hi hr ha) fun _ h' hi' _ _ => ?_
    exact keeps_throw hi' (L.ordinary _ trivial)
  | succ room ih =>
    intro h method receiver args hi hr ha
    rw [Action.invokeWithin_eq]
    refine keeps_bind (keeps_enter hi hr ha) fun entered h₁ hi₁ _ hframe => ?_
    rw [Action.descend_succ, Action.runBody]
    refine keeps_bind (keeps_execBlock ih entered.2 hi₁ hframe) fun flow h₂ hi₂ _ hflow => ?_
    cases flow with
    | next frame => exact keeps_pure hi₂ (L.null h₂)
    | ret v => exact keeps_pure hi₂ hflow

end Law

end FieldAccess
