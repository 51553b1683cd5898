import FieldAccess.Eval.Accessor
import FieldAccess.Proofs.Calls
import FieldAccess.Proofs.Catalogs
import Mathlib.Data.List.Nodup

/-! What a call through an accessor type does, in terms of the accessors of the field: the instance
is converted to the host type, and the getter, the setter or the assignment of a sequence runs one
call deeper. Nothing is said here about the accessors themselves; their bodies are arbitrary. -/
namespace FieldAccess

open Synthesis

/-! ### Methods of an accessor type by name -/

section Methods
variable {host : NodeId} {hostName : String} {fields : List FieldDesc}

theorem method?_set :
    (mapper host hostName fields).method? "set" =
      some (dynamicSet (TypeDesc.ofName hostName) fields) := by
  simp [mapper, MapperSpec.method?, dynamicSet]

theorem method?_get :
    (mapper host hostName fields).method? "get" =
      some (dynamicGet (TypeDesc.ofName hostName) fields) := by
  simp [mapper, MapperSpec.method?, dynamicSet, dynamicGet]

theorem ne_append_capitalized (s : String) {f : FieldDesc} (named : WellNamed fields)
    (hf : f ∈ fields) : s ≠ s ++ f.capitalized := by
  intro h
  have hl : f.capitalized = "" := by simpa using congrArg String.toList h
  rw [named.capitalized f hf] at hl
  exact Naming.capitalize_ne_empty (named.nonempty f hf) hl

theorem WellNamed.tail {f : FieldDesc} (named : WellNamed (f :: fields)) : WellNamed fields :=
  ⟨fun g hg => named.capitalized g (List.mem_cons_of_mem _ hg),
    fun g hg => named.nonempty g (List.mem_cons_of_mem _ hg),
    (List.nodup_cons.mp named.distinct).2⟩

theorem WellNamed.head_ne {f g : FieldDesc} (named : WellNamed (f :: fields)) (hg : g ∈ fields) :
    f.capitalized ≠ g.capitalized := by
  intro h
  exact (List.nodup_cons.mp named.distinct).1 (h ▸ List.mem_map.mpr ⟨g, hg, rfl⟩)

theorem WellNamed.names_nodup (named : WellNamed fields) : (fields.map FieldDesc.name).Nodup := by
  induction fields with
  | nil => exact List.nodup_nil
  | cons f rest ih =>
    rw [List.map_cons, List.nodup_cons]
    refine ⟨fun hmem => ?_, ih named.tail⟩
    obtain ⟨g, hg, heq⟩ := List.mem_map.mp hmem
    apply named.head_ne hg
    rw [named.capitalized f List.mem_cons_self,
      named.capitalized g (List.mem_cons_of_mem _ hg), heq]

theorem WellNamed.nodup_cases (named : WellNamed fields) (body : FieldDesc → Block) :
    (Assoc.keys (fields.map fun f => (f.name, body f))).Nodup := by
  have hkeys : Assoc.keys (fields.map fun f => (f.name, body f)) = fields.map FieldDesc.name := by
    simp [Assoc.keys, Function.comp_def]
  rw [hkeys]
  exact named.names_nodup

theorem WellNamed.eq_of_setter (named : WellNamed fields) {f g : FieldDesc} (hf : f ∈ fields)
    (hg : g ∈ fields) (h : Naming.setter f.name = Naming.setter g.name) : f = g := by
  rw [Naming.setter_inj, ← named.capitalized f hf, ← named.capitalized g hg] at h
  exact List.inj_on_of_nodup_map named.distinct hf hg h

theorem length_typed (type : TypeDesc) (fields : List FieldDesc) :
    (fields.flatMap fun f => [typedSet type f, typedGet type f]).length = 2 * fields.length := by
  induction fields with
  | nil => rfl
  | cons f rest ih =>
    rw [List.flatMap_cons, List.length_append, List.length_cons, ih]
    simp only [List.length_cons, List.length_nil]
    omega

theorem find?_typed (named : WellNamed fields) {f : FieldDesc} (hf : f ∈ fields) (type : TypeDesc) :
    (fields.flatMap fun f => [typedSet type f, typedGet type f]).find?
        (fun s => s.name == "set" ++ f.capitalized) = some (typedSet type f) ∧
      (fields.flatMap fun f => [typedSet type f, typedGet type f]).find?
        (fun s => s.name == "get" ++ f.capitalized) = some (typedGet type f) := by
  induction fields with
  | nil => cases hf
  | cons g rest ih =>
    have hsg := Naming.set_append_ne_get_append g.capitalized f.capitalized
    have hgs := (Naming.set_append_ne_get_append f.capitalized g.capitalized).symm
    rcases List.mem_cons.mp hf with rfl | hf
    · simp [typedSet, typedGet, hsg]
    · have hne := named.head_ne hf
      have := ih named.tail hf
      simpa [typedSet, typedGet, hsg, hgs, hne] using this

theorem method?_setter (named : WellNamed fields) {f : FieldDesc} (hf : f ∈ fields) :
    (mapper host hostName fields).method? (Naming.setter f.name) =
      some (typedSet (TypeDesc.ofName hostName) f) := by
  have hname : Naming.setter f.name = "set" ++ f.capitalized := by
    rw [named.capitalized f hf]; rfl
  have hset := ne_append_capitalized "set" named hf
  have hget : "get" ≠ "set" ++ f.capitalized := (Naming.set_append_ne_get_append _ "").symm
  have := (find?_typed named hf (TypeDesc.ofName hostName)).1
  simpa [hname, mapper, MapperSpec.method?, dynamicSet, dynamicGet, hset, hget] using this

theorem method?_getter (named : WellNamed fields) {f : FieldDesc} (hf : f ∈ fields) :
    (mapper host hostName fields).method? (Naming.getter f.name) =
      some (typedGet (TypeDesc.ofName hostName) f) := by
  have hname : Naming.getter f.name = "get" ++ f.capitalized := by
    rw [named.capitalized f hf]; rfl
  have hget := ne_append_capitalized "get" named hf
  have hset : "set" ≠ "get" ++ f.capitalized := Naming.set_append_ne_get_append "" _
  have := (find?_typed named hf (TypeDesc.ofName hostName)).2
  simpa [hname, mapper, MapperSpec.method?, dynamicSet, dynamicGet, hset, hget] using this

end Methods

/-! ### Bodies -/

namespace FieldDesc

def read (ctx : Context) (call : Caller) (f : FieldDesc) (i : Value) : Action Value :=
  Action.callMember ctx call f.getter (some i) []

/-- Assignment through the accessors of a field. -/
def assign (ctx : Context) (call : Caller) (f : FieldDesc) (i v : Value) : Action Unit :=
  match f.type with
  | .scalar _ => do
    let _ ← Action.callMember ctx call f.setter (some i) [v]
  | .sequence _ => do
    let current ← f.read ctx call i
    if current.isNull then
      let _ ← Action.callMember ctx call f.setter (some i) [v]
    else
      let current ← f.read ctx call i
      let _ ← Action.callSequence .clear (some current) []
      let current ← f.read ctx call i
      let _ ← Action.callSequence .appendAll (some current) [v]

/-- Type to which the dynamic setter converts a value. -/
def castType (f : FieldDesc) : TypeDesc :=
  match f.type with
  | .scalar t => t.toBoxed.erasure
  | .sequence t => t.erasure

end FieldDesc

namespace Action

variable {ctx : Context} {call : Caller} {frame : Frame} {f : FieldDesc} {i v : Value}

theorem lookup_of_get? {name : String} (h : Assoc.get? name frame.locals = some v) :
    lookup frame name = pure v := by
  simp [lookup, h]

theorem eval_getterCall (hi : Assoc.get? instanceParam frame.locals = some i) :
    eval ctx call frame (getterCall f) = f.read ctx call i := by
  simp [getterCall, receiver, lookup_of_get? hi, FieldDesc.read]

theorem eval_setterCall (hi : Assoc.get? instanceParam frame.locals = some i) (value : Expr) :
    eval ctx call frame (setterCall f value) =
      (do
        let v ← eval ctx call frame value
        callMember ctx call f.setter (some i) [v]) := by
  simp [setterCall, receiver, lookup_of_get? hi]

/-- The block for a sequence reads two locals only; it ends in the frame it began in. -/
theorem exec_assignSequence {t : TypeDesc} (ht : f.type = .sequence t) {name : String}
    (hi : Assoc.get? instanceParam frame.locals = some i)
    (hv : Assoc.get? name frame.locals = some v) :
    execBlock ctx call (assignSequence f (.var name)) frame =
      (do
        f.assign ctx call i v
        return .next frame) := by
  simp only [assignSequence, execBlock_cons, execBlock_nil, exec_branch, exec_expr, eval_notNull,
    eval_call_some, evalArgs_cons, evalArgs_nil, eval_var, callTarget_sequence, eval_getterCall hi,
    eval_setterCall hi, lookup_of_get? hv, FieldDesc.assign, ht, bind_assoc, pure_bind]
  congr 1
  funext current
  cases current.isNull <;> simp

theorem runBody_typedGet (type : TypeDesc) (hi : Assoc.get? instanceParam frame.locals = some i) :
    runBody ctx (typedGet type f).body frame call = f.read ctx call i := by
  simp [runBody, typedGet, eval_getterCall hi, Flow.result]

variable (ctx call frame) in
theorem runBody_typedSet (type : TypeDesc) (hi : Assoc.get? instanceParam frame.locals = some i)
    (hv : Assoc.get? (typedParam f) frame.locals = some v) :
    runBody ctx (typedSet type f).body frame call =
      (do
        f.assign ctx call i v
        return .null) := by
  cases ht : f.type with
  | scalar t =>
    simp [runBody, typedSet, ht, eval_setterCall hi, lookup_of_get? hv,
      FieldDesc.assign, Flow.result]
  | sequence t =>
    simp only [runBody, typedSet, ht, exec_assignSequence ht hi hv, bind_assoc, pure_bind,
      Flow.result]

/-- The case that a key selects in a dynamic method. -/
theorem exec_dispatch {fields : List FieldDesc} (named : WellNamed fields) (hf : f ∈ fields)
    (body : FieldDesc → Block) (hk : Assoc.get? fieldParam frame.locals = some (.str f.name)) :
    execBlock ctx call (dispatch fields body) frame = execBlock ctx call (body f) frame := by
  have hnodup := named.nodup_cases body
  have hcase : Assoc.get? f.name (Assoc.ofPairs (fields.map fun f => (f.name, body f))) =
      some (body f) := by
    rw [Assoc.ofPairs_of_nodup hnodup]
    exact Assoc.get?_of_mem hnodup (List.mem_map.mpr ⟨f, hf, rfl⟩)
  simp only [dispatch, execBlock_cons, execBlock_nil, exec_switch, eval_var, lookup_of_get? hk,
    pure_bind, execCases_eq, hcase]
  -- a lone statement is the block it selects
  rw [← bind_pure (execBlock ctx call (body f) frame), bind_assoc]
  congr 1
  funext flow
  cases flow <;> rfl

theorem exec_dispatch_unknown {fields : List FieldDesc} {key : String}
    (hnone : ∀ f ∈ fields, f.name ≠ key) (body : FieldDesc → Block)
    (hk : Assoc.get? fieldParam frame.locals = some (.str key)) :
    execBlock ctx call (dispatch fields body) frame = throw (.unknownField key) := by
  have hcase : Assoc.get? key (Assoc.ofPairs (fields.map fun f => (f.name, body f))) = none := by
    rw [Assoc.get?_eq_none_iff, Assoc.keys_ofPairs, List.mem_eraseDups, List.map_map]
    intro hmem
    obtain ⟨f, hf, heq⟩ := List.mem_map.mp hmem
    exact hnone f hf heq
  simp [dispatch, lookup_of_get? hk, execCases_eq, hcase, throw_bind,
    Value.text]

/-- Without a case for its key, a dynamic method fails for want of room or of the field. -/
theorem descend_unknown {fields : List FieldDesc} {key : String}
    (hnone : ∀ f ∈ fields, f.name ≠ key) (body : FieldDesc → Block)
    (hk : Assoc.get? fieldParam frame.locals = some (.str key)) {room : Nat} :
    descend ctx room (runBody ctx (dispatch fields body) frame) =
      throw (if room = 0 then .callDepthExceeded maxCallDepth else .unknownField key) := by
  cases room with
  | zero => rfl
  | succ room =>
    rw [descend_succ, runBody, exec_dispatch_unknown hnone body hk]
    rfl

theorem runBody_dynamicGet (type : TypeDesc) {fields : List FieldDesc} (named : WellNamed fields)
    (hf : f ∈ fields) (hi : Assoc.get? instanceParam frame.locals = some i)
    (hk : Assoc.get? fieldParam frame.locals = some (.str f.name)) :
    runBody ctx (dynamicGet type fields).body frame call = f.read ctx call i := by
  simp only [runBody, dynamicGet, exec_dispatch named hf getCase hk]
  simp [getCase, eval_getterCall hi, Flow.result]

theorem convertedLocal_ne_instance (f : FieldDesc) : convertedLocal f ≠ instanceParam := by
  unfold convertedLocal
  split
  · decide
  · rename_i h
    simp only [List.contains_cons, Bool.or_eq_true, beq_iff_eq, not_or] at h
    exact h.1

theorem typedParam_ne_instance (f : FieldDesc) : typedParam f ≠ instanceParam := by
  unfold typedParam
  split
  · decide
  · assumption

variable (ctx call frame) in
theorem runBody_dynamicSet (type : TypeDesc) {fields : List FieldDesc} (named : WellNamed fields)
    (hf : f ∈ fields) (hi : Assoc.get? instanceParam frame.locals = some i)
    (hk : Assoc.get? fieldParam frame.locals = some (.str f.name))
    (hv : Assoc.get? valueParam frame.locals = some v) :
    runBody ctx (dynamicSet type fields).body frame call =
      (do
        let w ← coerce ctx v f.castType
        f.assign ctx call i w
        return .null) := by
  simp only [runBody, dynamicSet, exec_dispatch named hf setCase hk]
  cases ht : f.type with
  | scalar t =>
    simp [setCase, ht, eval_setterCall hi, lookup_of_get? hv, FieldDesc.assign,
      FieldDesc.castType, Flow.result]
  | sequence t =>
    have hlocal : ∀ w : Value,
        Assoc.get? instanceParam (frame.bind (convertedLocal f) w).locals = some i := by
      intro w
      simpa [Frame.bind, Assoc.get?, convertedLocal_ne_instance f] using hi
    have hconverted : ∀ w : Value,
        Assoc.get? (convertedLocal f) (frame.bind (convertedLocal f) w).locals = some w := by
      intro w
      simp [Frame.bind, Assoc.get?]
    simp only [setCase, ht, execBlock_cons, exec_bind, eval_cast, eval_var, lookup_of_get? hv,
      pure_bind, bind_assoc,
      FieldDesc.castType, coerce_coerce, exec_assignSequence ht (hlocal _) (hconverted _),
      Flow.result]

end Action

/-! ### Calls -/

theorem Program.findMethod_of_find? {p : Program} {owner id : NodeId} {name : String}
    {decl : MethodDecl}
    (h : (p.methodsOf owner).find? (fun m => m.2.name == name) = some (id, decl)) :
    p.findMethod owner name = .ok id ∧ p.method? id = some decl := by
  have hmem := List.mem_of_find?_eq_some h
  refine ⟨?_, Program.method?_of_mem_methodsOf hmem⟩
  cases hc : p.class? owner with
  | none => simp [Program.methodsOf, Program.members, hc] at hmem
  | some c => simp [Program.findMethod, hc, h]

/-- The methods of an accessor type are those made for the fields; others may follow. -/
structure Accessor.Serves (a : Accessor) (p : Program) (hostName : String)
    (fields : List FieldDesc) : Prop where
  named : WellNamed fields
  methods : (Synthesis.mapper a.host hostName fields).methods.map MethodSpec.toDecl <+:
    (p.methodsOf a.mapper).map Prod.snd

namespace Accessor.Serves

variable {a : Accessor} {ctx : Context} {hostName : String} {fields : List FieldDesc}

theorem findMethod {p : Program} (serves : a.Serves p hostName fields) {name : String}
    {s : MethodSpec} (hs : (Synthesis.mapper a.host hostName fields).method? name = some s) :
    ∃ id, p.findMethod a.mapper name = .ok id ∧ p.method? id = some s.toDecl := by
  have hfind : ((p.methodsOf a.mapper).map Prod.snd).find? (fun m => m.name == name) =
      some s.toDecl := by
    obtain ⟨rest, hrest⟩ := serves.methods
    rw [← hrest, List.find?_append, List.find?_map]
    have : ((fun m : MethodDecl => m.name == name) ∘ MethodSpec.toDecl) =
        fun s : MethodSpec => s.name == name := rfl
    rw [this, show List.find? _ _ = some s from hs]
    rfl
  rw [List.find?_map] at hfind
  obtain ⟨⟨id, decl⟩, hid, rfl⟩ := Option.map_eq_some_iff.mp hfind
  exact ⟨id, Program.findMethod_of_find? hid⟩

theorem callAt (serves : a.Serves ctx.program hostName fields) (depth : Nat) {name : String}
    {s : MethodSpec} (hs : (Synthesis.mapper a.host hostName fields).method? name = some s)
    (args : List Value) :
    ∃ id, ctx.program.method? id = some s.toDecl ∧
      a.callAt ctx depth name args = Action.invokeAt ctx depth id none args := by
  obtain ⟨id, hid, hm⟩ := serves.findMethod hs
  refine ⟨id, hm, Action.ext fun h => ?_⟩
  exact Action.bind_of_ok (Action.query_of_ok hid) _

theorem getAt (serves : a.Serves ctx.program hostName fields) {f : FieldDesc} (hf : f ∈ fields)
    (depth : Nat) (instance_ : Value) :
    a.getAt ctx depth instance_ f.name =
      (do
        let i ← Action.coerce ctx instance_ (.ofName hostName)
        Action.descend ctx (Action.maxCallDepth - depth) fun call => f.read ctx call i) := by
  obtain ⟨id, hm, hcall⟩ := serves.callAt depth method?_get [instance_, .str f.name]
  rw [Accessor.getAt, hcall, Action.invokeAt, Action.invoke_static hm rfl rfl _ _ rfl]
  simp only [MethodSpec.toDecl, dynamicGet, hostParam, Action.bindParams, Action.coerce_string,
    bind_assoc, pure_bind]
  congr 1
  funext i
  congr 1
  funext call
  exact Action.runBody_dynamicGet (.ofName hostName) serves.named hf rfl rfl

theorem getTypedAt (serves : a.Serves ctx.program hostName fields) {f : FieldDesc}
    (hf : f ∈ fields) (depth : Nat) (instance_ : Value) :
    a.getTypedAt ctx depth instance_ f.name =
      (do
        let i ← Action.coerce ctx instance_ (.ofName hostName)
        Action.descend ctx (Action.maxCallDepth - depth) fun call => f.read ctx call i) := by
  obtain ⟨id, hm, hcall⟩ := serves.callAt depth (method?_getter serves.named hf) [instance_]
  rw [Accessor.getTypedAt, hcall, Action.invokeAt, Action.invoke_static hm rfl rfl _ _ rfl]
  simp only [MethodSpec.toDecl, typedGet, hostParam, Action.bindParams, bind_assoc, pure_bind]
  congr 1
  funext i
  congr 1
  funext call
  exact Action.runBody_typedGet (.ofName hostName) rfl

theorem setAt (serves : a.Serves ctx.program hostName fields) {f : FieldDesc} (hf : f ∈ fields)
    (depth : Nat) (instance_ v : Value) :
    a.setAt ctx depth instance_ f.name v =
      (do
        let i ← Action.coerce ctx instance_ (.ofName hostName)
        Action.descend ctx (Action.maxCallDepth - depth) fun call => do
          let w ← Action.coerce ctx v f.castType
          f.assign ctx call i w) := by
  obtain ⟨id, hm, hcall⟩ := serves.callAt depth method?_set [instance_, .str f.name, v]
  rw [Accessor.setAt, hcall, Action.invokeAt, Action.invoke_static hm rfl rfl _ _ rfl]
  simp only [MethodSpec.toDecl, dynamicSet, hostParam, Action.bindParams, Action.coerce_string,
    Action.coerce_any, bind_assoc, pure_bind]
  congr 1
  funext i
  rw [Action.descend_bind]
  congr 1
  funext call
  have hbody := Action.runBody_dynamicSet ctx call
    ⟨none, [(valueParam, v), (fieldParam, .str f.name), (instanceParam, i)]⟩ (.ofName hostName)
    serves.named hf rfl rfl rfl
  refine (congrArg (· >>= fun _ => pure ()) hbody).trans ?_
  simp only [bind_assoc, pure_bind, bind_pure_unit]

theorem setTypedAt (serves : a.Serves ctx.program hostName fields) {f : FieldDesc}
    (hf : f ∈ fields) (depth : Nat) (instance_ v : Value) :
    a.setTypedAt ctx depth instance_ f.name v =
      (do
        let i ← Action.coerce ctx instance_ (.ofName hostName)
        let w ← Action.coerce ctx v f.type.declared
        Action.descend ctx (Action.maxCallDepth - depth) fun call => f.assign ctx call i w) := by
  obtain ⟨id, hm, hcall⟩ := serves.callAt depth (method?_setter serves.named hf) [instance_, v]
  rw [Accessor.setTypedAt, hcall, Action.invokeAt, Action.invoke_static hm rfl rfl _ _ rfl]
  simp only [MethodSpec.toDecl, typedSet, hostParam, Action.bindParams, bind_assoc, pure_bind]
  congr 1
  funext i
  congr 1
  funext w
  rw [Action.descend_bind]
  congr 1
  funext call
  have hi : Assoc.get? instanceParam [(typedParam f, w), (instanceParam, i)] = some i := by
    simp [Assoc.get?, Action.typedParam_ne_instance f]
  have hv : Assoc.get? (typedParam f) [(typedParam f, w), (instanceParam, i)] = some w := by
    simp [Assoc.get?]
  have hbody := Action.runBody_typedSet ctx call ⟨none, [(typedParam f, w), (instanceParam, i)]⟩
    (.ofName hostName) hi hv
  refine (congrArg (· >>= fun _ => pure ()) hbody).trans ?_
  simp only [bind_assoc, pure_bind, bind_pure_unit]

/-- A key that names no field is unknown, unless the instance is refused or there is no room for the
call. -/
theorem getAt_unknown_eq (serves : a.Serves ctx.program hostName fields) {key : String}
    (hnone : ∀ f ∈ fields, f.name ≠ key) (depth : Nat) (instance_ : Value) :
    a.getAt ctx depth instance_ key =
      (do
        let _ ← Action.coerce ctx instance_ (.ofName hostName)
        throw (if Action.maxCallDepth - depth = 0 then .callDepthExceeded Action.maxCallDepth
          else .unknownField key)) := by
  obtain ⟨id, hm, hcall⟩ := serves.callAt depth method?_get [instance_, .str key]
  rw [Accessor.getAt, hcall, Action.invokeAt, Action.invoke_static hm rfl rfl _ _ rfl]
  simp only [MethodSpec.toDecl, dynamicGet, hostParam, Action.bindParams, Action.coerce_string,
    bind_assoc, pure_bind]
  congr 1
  funext i
  exact Action.descend_unknown hnone getCase rfl

theorem setAt_unknown_eq (serves : a.Serves ctx.program hostName fields) {key : String}
    (hnone : ∀ f ∈ fields, f.name ≠ key) (depth : Nat) (instance_ v : Value) :
    a.setAt ctx depth instance_ key v =
      (do
        let _ ← Action.coerce ctx instance_ (.ofName hostName)
        throw (if Action.maxCallDepth - depth = 0 then .callDepthExceeded Action.maxCallDepth
          else .unknownField key)) := by
  obtain ⟨id, hm, hcall⟩ := serves.callAt depth method?_set [instance_, .str key, v]
  rw [Accessor.setAt, hcall, Action.invokeAt, Action.invoke_static hm rfl rfl _ _ rfl]
  simp only [MethodSpec.toDecl, dynamicSet, hostParam, Action.bindParams, Action.coerce_string,
    Action.coerce_any, bind_assoc, pure_bind]
  congr 1
  funext i
  rw [Action.descend_unknown hnone setCase rfl]
  rfl

theorem run_coerce_throw (v : Value) (t : TypeDesc) (error : EvalError) (h : Heap) {α : Type} :
    ∃ e, (do let _ ← Action.coerce ctx v t; throw error : Action α).run h = .error e h := by
  rcases Action.coerce_cases ctx v t h with hv | ⟨e, hv⟩
  · exact ⟨error, Action.bind_of_ok hv _⟩
  · exact ⟨e, Action.bind_of_error hv _⟩

/-- A key that names no field is refused, whatever else is wrong. -/
theorem getAt_unknown (serves : a.Serves ctx.program hostName fields) {key : String}
    (hnone : ∀ f ∈ fields, f.name ≠ key) (depth : Nat) (instance_ : Value) (h : Heap) :
    ∃ e, (a.getAt ctx depth instance_ key).run h = .error e h := by
  rw [serves.getAt_unknown_eq hnone]
  exact run_coerce_throw instance_ (.ofName hostName) _ h

theorem setAt_unknown (serves : a.Serves ctx.program hostName fields) {key : String}
    (hnone : ∀ f ∈ fields, f.name ≠ key) (depth : Nat) (instance_ v : Value) (h : Heap) :
    ∃ e, (a.setAt ctx depth instance_ key v).run h = .error e h := by
  rw [serves.setAt_unknown_eq hnone]
  exact run_coerce_throw instance_ (.ofName hostName) _ h

end Accessor.Serves

end FieldAccess
