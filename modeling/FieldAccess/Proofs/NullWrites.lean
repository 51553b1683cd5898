import FieldAccess.Batch
import FieldAccess.Proofs.SequenceSlots

/-! Null for a primitive field. The typed setter refuses it at its parameter. The dynamic setter
converts to the boxed type, which lets null through, and leaves the refusal to the setter of the
class; but a catalog makes do with a setter of another parameter type, and if that type takes null
the setter runs. The slot of the field is safe all the same: nothing is stored that its own type
does not take. -/
namespace FieldAccess

/-- Whether null passes the conversion to a type. -/
def TypeDesc.takesNull : TypeDesc → Bool
  | .void | .primitive _ => false
  | _ => true

theorem Heap.accepts_null (h : Heap) (types : Hierarchy) (t : TypeDesc) :
    h.accepts types .null t = .ok t.takesNull := by
  cases t <;> rfl

namespace Action

variable {ctx : Context} {h : Heap}

theorem coerce_null_of_takesNull {t : TypeDesc} (ht : t.takesNull = true) :
    (coerce ctx .null t).run h = .ok .null h :=
  coerce_ok_iff.mpr (by rw [Heap.accepts_null, ht])

variable (ctx h) in
theorem coerce_null_of_not_takesNull {t : TypeDesc} (ht : t.takesNull = false) :
    ∃ e, (coerce ctx .null t).run h = .error e h := by
  rcases coerce_cases ctx .null t h with hok | hfailed
  · rw [coerce_ok_iff, Heap.accepts_null, ht] at hok
    cases hok
  · exact hfailed

/-- A call with null as its only argument gets to the body of the method. -/
structure Enters (method : MethodDecl) (param : Param) (room : Nat) (i : Value) (o : ObjectId)
    (body : Block) : Prop where
  receiver : i = .object o
  nullable : param.type.takesNull = true
  body : method.body = some body
  room : 0 < room

section
variable {id : NodeId} {method : MethodDecl} {param : Param}
  (hm : ctx.program.method? id = some method)
  (hs : method.isStatic = false) (hp : method.params = [param])
include hm hs hp

theorem callMember_null (room : Nat) (o : ObjectId) {body : Block} (hbody : method.body = some body)
    (nullable : param.type.takesNull = true) :
    (callMember ctx (invokeWithin ctx room) id (some (.object o)) [.null]).run h =
      (descend ctx room (runBody ctx body ⟨some (.object o), [(param.name, .null)]⟩)).run h := by
  have hlength : [Value.null].length = method.params.length := by rw [hp]; rfl
  have hcall : callMember ctx (invokeWithin ctx room) id (some (.object o)) [.null] =
      invokeWithin ctx room id (some (.object o)) [.null] := by
    simp [callMember_eq, hm, Value.isNull]
  have hbound : (bindParams ctx [param] [.null] ⟨some (.object o), []⟩).run h =
      .ok ⟨some (.object o), [(param.name, .null)]⟩ h :=
      bind_of_ok (coerce_null_of_takesNull nullable) _
  rw [hcall, invoke_instance hm hs hbody room o hlength, hp, bind_of_ok hbound]

theorem callMember_of_enters {room : Nat} {i : Value} {o : ObjectId} {body : Block}
    (enters : Enters method param room i o body) :
    (callMember ctx (invokeWithin ctx room) id (some i) [.null]).run h =
      (runBody ctx body ⟨some (.object o), [(param.name, .null)]⟩
        (invokeWithin ctx (room - 1))).run h := by
  obtain ⟨rfl, nullable, hbody, hroom⟩ := enters
  obtain ⟨room, rfl⟩ := Nat.exists_eq_succ_of_ne_zero (Nat.ne_of_gt hroom)
  exact callMember_null hm hs hp (room + 1) o hbody nullable

theorem callMember_of_not_enters {room : Nat} {i : Value}
    (refused : ¬ ∃ o body, Enters method param room i o body) :
    ∃ e, (callMember ctx (invokeWithin ctx room) id (some i) [.null]).run h = .error e h := by
  have hlength : [Value.null].length = method.params.length := by rw [hp]; rfl
  rcases callMember_cases hm hs room i [.null] hlength with ⟨e, _, hthrow⟩ | ⟨o, body, rfl, hbody⟩
  · exact ⟨e, by rw [hthrow]; rfl⟩
  cases hnull : param.type.takesNull with
  | false =>
    obtain ⟨e, he⟩ := coerce_null_of_not_takesNull ctx h hnull
    exact callMember_refuses hm (by rw [hp]; rfl) he room (.object o)
  | true =>
    -- only the room can be missing
    obtain rfl : room = 0 := by
      by_contra hroom
      exact refused ⟨o, body, rfl, hnull, hbody, Nat.pos_of_ne_zero hroom⟩
    rw [callMember_null hm hs hp 0 o hbody hnull]
    exact ⟨_, rfl⟩

end

end Action

/-! ### Writing null -/

namespace Accessor.Serves

variable {a : Accessor} {ctx : Context} {hostName : String} {fields : List FieldDesc}
  (serves : a.Serves ctx.program hostName fields) {f : FieldDesc} (hf : f ∈ fields) {q : Primitive}
  (primitive : f.type = .scalar (.primitive q))
include serves hf primitive

theorem setTypedAt_null (depth : Nat) (i : Value) (h : Heap) :
    ∃ e, (a.setTypedAt ctx depth i f.name .null).run h = .error e h := by
  rw [serves.setTypedAt hf]
  rcases Action.coerce_cases ctx i (.ofName hostName) h with hi | ⟨e, hi⟩
  · have hnull : f.type.declared.takesNull = false := by rw [primitive]; rfl
    obtain ⟨e, he⟩ := Action.coerce_null_of_not_takesNull ctx h hnull
    exact ⟨e, by rw [Action.bind_of_ok hi, Action.bind_of_error he]⟩
  · exact ⟨e, Action.bind_of_error hi _⟩

/-- The conversion to the boxed type lets null through, so the setter of the class is called. -/
theorem setAt_null (depth : Nat) {i : Value} {h : Heap}
    (hi : (Action.coerce ctx i (.ofName hostName)).run h = .ok i h) {room : Nat}
    (hroom : Action.maxCallDepth - depth = room + 1) :
    (a.setAt ctx depth i f.name .null).run h =
      (do let _ ← Action.callMember ctx (Action.invokeWithin ctx room) f.setter (some i) [.null] :
        Action Unit).run h := by
  have hcast : (Action.coerce ctx .null f.castType).run h = .ok .null h := by
    refine Action.coerce_null_of_takesNull ?_
    rw [FieldDesc.castType, primitive]
    rfl
  rw [serves.setAt hf, Action.bind_of_ok hi, hroom, Action.descend_succ, Action.bind_of_ok hcast,
    FieldDesc.assign_of_scalar (by rw [primitive]; rfl)]

variable {setter : MethodDecl} {param : Param} (hm : ctx.program.method? f.setter = some setter)
  (hs : setter.isStatic = false) (hp : setter.params = [param])
include hm hs hp

theorem setAt_null_of_enters (depth : Nat) {i : Value} {h : Heap}
    (hi : (Action.coerce ctx i (.ofName hostName)).run h = .ok i h) {o : ObjectId} {body : Block}
    (enters : Action.Enters setter param (Action.maxCallDepth - depth - 1) i o body) :
    (a.setAt ctx depth i f.name .null).run h =
      (do let _ ← Action.runBody ctx body ⟨some (.object o), [(param.name, .null)]⟩
            (Action.invokeWithin ctx (Action.maxCallDepth - depth - 2)) : Action Unit).run h := by
  have hroom : Action.maxCallDepth - depth = Action.maxCallDepth - depth - 1 + 1 := by
    have := enters.room
    omega
  rw [serves.setAt_null hf primitive depth hi hroom, EStateM.run_bind, EStateM.run_bind,
    Action.callMember_of_enters hm hs hp enters]
  rfl

theorem setAt_null_refused (depth : Nat) {i : Value} {h : Heap}
    (refused : ¬ ((Action.coerce ctx i (.ofName hostName)).run h = .ok i h ∧
      ∃ o body, Action.Enters setter param (Action.maxCallDepth - depth - 1) i o body)) :
    ∃ e, (a.setAt ctx depth i f.name .null).run h = .error e h := by
  rcases Action.coerce_cases ctx i (.ofName hostName) h with hi | ⟨e, hi⟩
  · cases hroom : Action.maxCallDepth - depth with
    | zero =>
      rw [serves.setAt hf, Action.bind_of_ok hi, hroom]
      exact ⟨_, rfl⟩
    | succ room =>
      rw [hroom, Nat.add_sub_cancel] at refused
      obtain ⟨e, he⟩ := Action.callMember_of_not_enters (h := h) hm hs hp fun enters =>
        refused ⟨hi, enters⟩
      exact ⟨e, by rw [serves.setAt_null hf primitive depth hi hroom, Action.bind_of_error he]⟩
  · rw [serves.setAt hf]
    exact ⟨e, Action.bind_of_error hi _⟩

end Accessor.Serves

/-! ### The slot of a primitive -/

theorem Program.Extends.mem_membersAs {α : Type} {kind : Node → Option α} (stable : Stable kind)
    {p q : Program} (h : p.Extends q) {id : NodeId} {x : NodeId × α}
    (hx : x ∈ membersAs kind p id) :
    x ∈ membersAs kind q id := by
  cases hc : p.class? id with
  | none => simp [membersAs, members, hc] at hx
  | some c =>
    obtain ⟨d, hd, grown⟩ := h.class? hc
    rw [membersAs_eq kind hc, List.mem_filterMap] at hx
    obtain ⟨m, hm, hx⟩ := hx
    obtain ⟨n, hn⟩ : ∃ n, p.node? m = some n := by
      cases hn : p.node? m with
      | none => rw [hn] at hx; cases hx
      | some n => exact ⟨n, rfl⟩
    obtain ⟨n', hn', hgrown⟩ := h.node? hn
    rw [membersAs_eq kind hd, List.mem_filterMap]
    refine ⟨m, grown.members.subset hm, ?_⟩
    rw [hn, Option.bind_some] at hx
    rw [hn', Option.bind_some, stable n n' hgrown, hx]

/-- What a name declared as a primitive holds is of that primitive, whatever was requested
before. -/
theorem exists_primitive_slot {ctx : Context} (past : List Request) {o : ObjectId}
    {cell : ObjectCell} (hc : (heapAfter ctx .empty past).objects[o]? = some cell)
    {name : String} {q : Primitive} (hname : name ∈ ctx.program.fieldNames cell.owner)
    (primitive : ∀ d ∈ ctx.program.fieldsOf cell.owner, d.2.name = name → d.2.type = .primitive q) :
    ∃ v, (heapAfter ctx .empty past).slot? o name = some v ∧ v.primitive? = some q := by
  obtain ⟨v, hv⟩ := (heapAfter_typed (Heap.typed_empty ctx) past).exists_slot hc hname
  refine ⟨v, hv, ?_⟩
  have hslot : Assoc.get? name cell.slots = some v := (Heap.slot?_eq hc name).symm.trans hv
  obtain ⟨d, hd, hdname, hsuits⟩ := heapAfter_declared ctx past o cell name v hc hslot
  rw [primitive d hd hdname] at hsuits
  rcases hsuits with rfl | haccepted
  · cases q <;> rfl
  · simpa [Heap.accepts] using haccepted

/-- An accessor type made by synthesis and attached by injection, in a program that may have grown
before and after, and a primitive field of its catalog, whatever setter was found for it. On every
heap, at every depth and for every instance the typed setter refuses null and changes nothing. The
dynamic one refuses it and changes nothing unless the instance passes, is an object, there is room
for the call, and the setter has a body and a parameter that takes null: then that body runs on
null. Even so, in every heap that requests can lead to, an object of the class has a value of the
primitive in the slot, as long as the program declares the name for nothing else. -/
theorem null_runs_only_nullable_setters {p₀ p₁ p₂ p : Program} {types : Hierarchy} {a : Accessor}
    {m : MapperSpec} {fields : List FieldDesc} (synthesized : synthesize p₀ types a.host = .ok m)
    (catalogued : catalog p₀ types a.host = .ok fields) (kept : p₀.Extends p₁)
    (attached : p₁.inject a.host m = .ok (p₂, .injected a.mapper)) (grown : p₂.Extends p)
    {f : FieldDesc} (hf : f ∈ fields) {q : Primitive} (primitive : f.type.declared = .primitive q) :
    ∃ c setter param, p.class? a.host = some c ∧ p.method? f.setter = some setter ∧
    setter.isStatic = false ∧
      setter.params = [param] ∧
      (∀ (depth : Nat) (i : Value) (h : Heap),
        (∃ e, (a.setTypedAt (.ofProgram p) depth i f.name .null).run h = .error e h) ∧
        (∀ o body, h.coerce (.ofProgram p) i (.ofName c.name) = .ok i →
          Action.Enters setter param (Action.maxCallDepth - depth - 1) i o body →
          (a.setAt (.ofProgram p) depth i f.name .null).run h =
            (do let _ ← Action.runBody (.ofProgram p) body ⟨some (.object o), [(param.name, .null)]⟩
                  (Action.invokeWithin (.ofProgram p) (Action.maxCallDepth - depth - 2)) :
                  Action Unit).run h) ∧
        (¬ (h.coerce (.ofProgram p) i (.ofName c.name) = .ok i ∧
            ∃ o body, Action.Enters setter param (Action.maxCallDepth - depth - 1) i o body) →
          ∃ e, (a.setAt (.ofProgram p) depth i f.name .null).run h = .error e h)) ∧
      ((∀ d ∈ p.fieldsOf a.host, d.2.name = f.name → d.2.type = .primitive q) →
        ∀ (past : List Request) (o : ObjectId) (cell : ObjectCell),
          (heapAfter (.ofProgram p) .empty past).objects[o]? = some cell → cell.owner = a.host →
          ∃ v, (heapAfter (.ofProgram p) .empty past).slot? o f.name = some v ∧
          v.primitive? = some q) := by
  obtain ⟨fields', c₀, hfields, hc₀, rfl⟩ := synthesize_ok synthesized
  obtain rfl : fields = fields' := Except.ok.inj (catalogued.symm.trans hfields)
  have whole : p₀.Extends p := by
    obtain ⟨_, _, rfl, _⟩ := Program.inject_injected attached
    exact kept.trans ((p₁.extends_attachMapper a.host _).trans grown)
  obtain ⟨_, described, named⟩ := catalog_ok catalogued
  obtain ⟨entry, hentry, describes⟩ := Catalog.exists_entry described hf
  obtain ⟨c, hc, hx⟩ := whole.class? hc₀
  obtain ⟨setter, hsetter, hs, harity⟩ := Catalog.method?_of_pick describes.setter
  obtain ⟨param, hp⟩ := List.length_eq_one_iff.mp harity
  have hm : (Context.ofProgram p).program.method? f.setter = some setter := whole.method? hsetter
  have serves : a.Serves (Context.ofProgram p).program c.name fields := by
    rw [hx.name]
    exact serves_of_inject named attached grown
  have hscalar : f.type = .scalar (.primitive q) := by
    rw [describes.type, FieldType.declared_classify] at primitive
    rw [describes.type, primitive]
    rfl
  have hpasses : ∀ (h : Heap) (i : Value), h.coerce (.ofProgram p) i (.ofName c.name) = .ok i ↔
      (Action.coerce (.ofProgram p) i (.ofName c.name)).run h = .ok i h := by
    intro h i
    rw [Heap.coerce_ok_iff, Action.coerce_ok_iff]
    rfl
  refine ⟨c, setter, param, hc, hm, hs, hp, fun depth i h => ⟨?_, ?_, ?_⟩, ?_⟩
  · exact serves.setTypedAt_null hf hscalar depth i h
  · intro o body hi enters
    exact serves.setAt_null_of_enters hf hscalar hm hs hp depth ((hpasses h i).mp hi) enters
  · intro refused
    rw [hpasses h i] at refused
    exact serves.setAt_null_refused hf hscalar hm hs hp depth refused
  · intro only past o cell hcell howner
    have hmem : entry ∈ p.fieldsOf a.host := whole.mem_membersAs Program.stable_asField? hentry
    refine exists_primitive_slot past hcell ?_ (howner ▸ only)
    rw [howner, describes.name]
    exact List.mem_map.mpr ⟨entry, hmem, rfl⟩

/-- A marked class whose setter for a number takes a text, and puts it elsewhere. -/
def meterProgram : Program :=
  ((Program.empty.addClass { name := "Meter", annotations := ["Entity"] }).1.attachAll 0
      [.field { name := "count", type := .primitive .int64 },
        .method (.getterOf "count" (.primitive .int64))]
    |>.addProperty 0 "label" .string).attachAll 0
      [.method
        { name := "setCount"
          params := [⟨"text", .string⟩]
          returnType := .void
          body := some [.storeField .this "label" (.var "text")] }]

def meterFields : List FieldDesc :=
  [⟨"count", "Count", .scalar (.primitive .int64), 1, 2, 6⟩,
    ⟨"label", "Label", .scalar .string, 3, 4, 5⟩]

/-- A labelled meter to whose number null is written: the setter runs, and the number stays one. -/
theorem meter_null_runs_setter :
    let p := (meterProgram.attachMapper 0 (Synthesis.mapper 0 "Meter" meterFields)).1
    let past : List Request := [.set 0 (.object 0) "label" (.str "high"), .instantiate 0]
    let h := heapAfter (.ofProgram p) .empty past
    (∃ e, ((⟨0, 7⟩ : Accessor).setTypedAt (.ofProgram p) 3 (.object 0) "count" .null).run h =
      .error e h) ∧
      ((⟨0, 7⟩ : Accessor).setAt (.ofProgram p) 3 (.object 0) "count" .null).run h =
        (do let _ ← Action.runBody (.ofProgram p) [.storeField .this "label" (.var "text")]
              ⟨some (.object 0), [("text", .null)]⟩ (Action.invokeWithin (.ofProgram p) 251) :
              Action Unit).run h ∧
      ∃ v, (heapAfter (.ofProgram p) .empty (.set 0 (.object 0) "count" .null :: past)).slot? 0
        "count" = some v ∧ v.primitive? = some .int64 := by
  intro p past h
  have synthesized : synthesize meterProgram (.ofProgram meterProgram) 0 =
      .ok (Synthesis.mapper 0 "Meter" meterFields) := rfl
  have catalogued : catalog meterProgram (.ofProgram meterProgram) 0 = .ok meterFields := rfl
  have attached : meterProgram.inject 0 (Synthesis.mapper 0 "Meter" meterFields) =
    .ok (p, .injected 7) := rfl
  obtain ⟨c, setter, param, hc, hm, _, hp, writes, slots⟩ :=
    null_runs_only_nullable_setters (a := ⟨0, 7⟩)
    synthesized catalogued (.refl _) attached (.refl p) List.mem_cons_self rfl
  obtain rfl :
      c = { name := "Meter", annotations := ["Entity"], members := [1, 2, 3, 4, 5, 6, 7] } :=
    Option.some.inj (hc.symm.trans rfl)
  obtain rfl := Option.some.inj (hm.symm.trans (rfl : p.method? 6 = some _))
  obtain rfl : param = ⟨"text", .string⟩ := (List.cons.inj (hp.symm.trans rfl)).1
  obtain ⟨refused, runs, _⟩ := writes 3 (.object 0) h
  refine ⟨refused, runs 0 _ rfl ⟨rfl, rfl, rfl, by decide⟩, ?_⟩
  exact slots (by decide +kernel) (.set 0 (.object 0) "count" .null :: past) 0
    ⟨0, "Meter", [("count", .int64 0), ("label", .null)]⟩ rfl rfl

/-- Null for the number of a labelled meter: refused by the typed setter, while the dynamic one
takes it and erases the label. -/
theorem meter_null_erases_label :
    let p := (Batch.run true meterProgram).program
    let past : List Request := [.set 0 (.object 0) "label" (.str "high"), .instantiate 0]
    let h := heapAfter (.ofProgram p) .empty past
    let h' := heapAfter (.ofProgram p) .empty (.set 0 (.object 0) "count" .null :: past)
    0 ∈ (Batch.run true meterProgram).report.injected ∧ Accessor.locate p 0 = .ok ⟨0, 7⟩ ∧
      ((⟨0, 7⟩ : Accessor).setTyped (.ofProgram p) (.object 0) "count" .null).run h =
        .error (.conversion "int64" "null") h ∧
      ((⟨0, 7⟩ : Accessor).set (.ofProgram p) (.object 0) "count" .null).run h = .ok () h' ∧
      h.slot? 0 "label" = some (.str "high") ∧ h'.slot? 0 "label" = some .null := by
  intro p past h h'
  exact ⟨List.mem_cons_self, rfl, rfl, rfl, rfl, rfl⟩

end FieldAccess
