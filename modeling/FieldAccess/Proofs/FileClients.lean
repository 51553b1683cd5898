import FieldAccess.Proofs.Batches
import FieldAccess.Proofs.ClassFiles
import FieldAccess.Proofs.TypedHeaps

/-! Accessor types of the classes of a file. Here the accessors are known, so that a call can be
said in terms of the heap: a read gives the slot, a write stores into the slot or replaces the
elements of the sequence in it, and nothing else changes. -/
namespace FieldAccess

theorem Value.eq_null {v : Value} (h : v.isNull = true) : v = .null := by
  cases v with
  | null => rfl
  | _ => cases h

/-! ### Accessors of a file -/

namespace FieldDesc

variable {ctx : Context} {f : FieldDesc} {name : String} {t : TypeDesc}

theorem read_getterOf (hm : ctx.program.method? f.getter = some (.getterOf name t)) (room : Nat)
    (o : ObjectId) :
    f.read ctx (Action.invokeWithin ctx (room + 1)) (.object o) =
      Action.loadField (.object o) name := by
  have hcall := Action.invoke_instance hm rfl rfl (room + 1) o
    (show ([] : List Value).length = _ from rfl)
  rw [read, Action.callMember_eq, hm]
  simp only [MethodDecl.getterOf] at hcall ⊢
  simp [hcall, Value.isNull, Action.bindParams, Action.runBody, Action.this, Action.Flow.result]

/-- Writing through a setter of the file. -/
theorem callMember_setterOf (hm : ctx.program.method? f.setter = some (.setterOf name t))
    (room : Nat) (o : ObjectId) (v : Value) :
    Action.callMember ctx (Action.invokeWithin ctx (room + 1)) f.setter (some (.object o)) [v] =
      (do
        let w ← Action.coerce ctx v t
        Action.storeField ctx o name w
        return .null) := by
  have hcall := Action.invoke_instance hm rfl rfl (room + 1) o (show [v].length = _ from rfl)
  rw [Action.callMember_eq, hm]
  simp only [MethodDecl.setterOf] at hcall ⊢
  simp [hcall, Value.isNull, Action.bindParams, Action.runBody, Action.this, Action.Flow.result,
    Action.lookup, Frame.bind, Assoc.get?, Action.expectObject]

/-- An accessor without a body. -/
theorem callMember_abstract {method : NodeId} {decl : MethodDecl}
    (hm : ctx.program.method? method = some decl) (hb : decl.body = none) (room : Nat)
    (receiver : Value) (args : List Value) :
    ∃ e, Action.callMember ctx (Action.invokeWithin ctx room) method (some receiver) args =
      throw e := by
  rw [Action.callMember_eq, hm]
  simp only
  split
  · exact ⟨_, rfl⟩
  · exact Action.invoke_abstract hm hb room (some receiver) args

/-! ### Assignment -/

section Assign
variable {call : Caller} {i v w : Value} {h : Heap}

theorem assign_of_scalar (hscalar : f.type.isSequence = false) :
    f.assign ctx call i v = (do let _ ← Action.callMember ctx call f.setter (some i) [v]) := by
  cases ht : f.type with
  | scalar t => simp only [assign, ht]
  | sequence t => rw [ht] at hscalar; cases hscalar

/-- The elements of the sequence in a field give way to others. The field is read for each step. -/
def exchange (ctx : Context) (call : Caller) (f : FieldDesc) (i v : Value) : Action Unit := do
  let current ← f.read ctx call i
  let _ ← Action.callSequence .clear (some current) []
  let current ← f.read ctx call i
  let _ ← Action.callSequence .appendAll (some current) [v]

theorem assign_of_sequence (hseq : f.type.isSequence = true) :
    f.assign ctx call i v = (do
      let current ← f.read ctx call i
      if current.isNull then
        let _ ← Action.callMember ctx call f.setter (some i) [v]
      else f.exchange ctx call i v) := by
  cases ht : f.type with
  | scalar t => rw [ht] at hseq; cases hseq
  | sequence t => simp only [assign, ht, exchange]

theorem assign_of_null (hseq : f.type.isSequence = true)
    (hread : (f.read ctx call i).run h = .ok .null h) :
    (f.assign ctx call i v).run h =
      (do let _ ← Action.callMember ctx call f.setter (some i) [v] : Action Unit).run h := by
  rw [assign_of_sequence hseq, Action.bind_of_ok hread]
  rfl

theorem assign_of_present (hseq : f.type.isSequence = true)
    (hread : (f.read ctx call i).run h = .ok w h) (hw : w.isNull = false) :
    (f.assign ctx call i v).run h = (f.exchange ctx call i v).run h := by
  rw [assign_of_sequence hseq, Action.bind_of_ok hread, hw]
  rfl

theorem assign_of_unreadable (hseq : f.type.isSequence = true) {e : EvalError}
    (hread : (f.read ctx call i).run h = .error e h) :
    (f.assign ctx call i v).run h = .error e h := by
  rw [assign_of_sequence hseq]
  exact Action.bind_of_error hread _

end Assign

end FieldDesc

namespace Heap

/-- The raw slot of an object. -/
def slot? (h : Heap) (o : ObjectId) (field : String) : Option Value :=
  (h.objects[o]?).bind fun cell => Assoc.get? field cell.slots

theorem slot?_eq {h : Heap} {o : ObjectId} {cell : ObjectCell} (hc : h.objects[o]? = some cell)
    (field : String) : h.slot? o field = Assoc.get? field cell.slots := by
  rw [slot?, hc, Option.bind_some]

theorem slot?_setSlot (h : Heap) (o o' : ObjectId) (field field' : String) (v : Value) :
    (h.setSlot o field v).slot? o' field' =
      if o = o' ∧ field = field' then (h.objects[o']?).map fun _ => v else h.slot? o' field' := by
  rw [slot?, objects_setSlot, slot?]
  cases hc : h.objects[o']? with
  | none => simp
  | some cell =>
    by_cases ho : o = o'
    · by_cases hf : field = field'
      · subst hf
        simp [ho]
      · simp [ho, hf, Assoc.get?_put_other (Ne.symm hf)]
    · simp [ho]

end Heap

namespace Action

theorem loadField_of_slot? {h : Heap} {o : ObjectId} {field : String} {v : Value}
    (hv : h.slot? o field = some v) : (loadField (.object o) field).run h = .ok v h := by
  obtain ⟨cell, hc, hv⟩ := Option.bind_eq_some_iff.mp hv
  refine query_of_ok ?_
  simp [Heap.object_eq_ok_iff.mpr hc, hv, bind, Except.bind, pure, Except.pure]

/-- A slot that is not there cannot be read. -/
theorem loadField_cases (h : Heap) (o : ObjectId) (field : String) :
    (∃ v, h.slot? o field = some v ∧ (loadField (.object o) field).run h = .ok v h) ∨
      ∃ e, (loadField (.object o) field).run h = .error e h := by
  cases hv : h.slot? o field with
  | some v => exact Or.inl ⟨v, rfl, loadField_of_slot? hv⟩
  | none =>
    refine Or.inr ?_
    cases hc : h.object o with
    | error e => exact ⟨e, query_of_error (by simp [hc, bind, Except.bind])⟩
    | ok cell =>
      have hnone : Assoc.get? field cell.slots = none :=
        (Heap.slot?_eq (Heap.object_eq_ok_iff.mp hc) field).symm.trans hv
      exact ⟨.noSuchField cell.className field,
        query_of_error (by simp [hc, hnone, bind, Except.bind])⟩

/-- Storing into a field of an object whose class declares it. -/
theorem storeField_of_decl {ctx : Context} {h : Heap} {o : ObjectId} {cell : ObjectCell}
    {field : String} {decl : NodeId × FieldDecl} {v : Value} (hc : h.objects[o]? = some cell)
    (hf : (ctx.program.fieldsOf cell.owner).find? (fun f => f.2.name == field) = some decl)
    (ha : h.accepts ctx.types v decl.2.type = .ok true) :
    (storeField ctx o field v).run h = .ok () (h.setSlot o field v) := by
  rw [storeField, bind_of_ok (query_of_ok (Heap.object_eq_ok_iff.mpr hc))]
  simp only [hf]
  rw [bind_of_ok (coerce_ok_iff.mpr ha)]
  rfl

theorem storeField_after_coerce {ctx : Context} {h : Heap} {o : ObjectId} {cell : ObjectCell}
    {field : String} {decl : NodeId × FieldDecl} {v : Value} (hc : h.objects[o]? = some cell)
    (hf : (ctx.program.fieldsOf cell.owner).find? (fun f => f.2.name == field) = some decl)
    (ha : h.accepts ctx.types v decl.2.type = .ok true) :
    (do let w ← coerce ctx v decl.2.type
        storeField ctx o field w
        return .null : Action Value).run h = .ok .null (h.setSlot o field v) := by
  rw [bind_of_ok (coerce_ok_iff.mpr ha), bind_of_ok (storeField_of_decl hc hf ha)]
  rfl

/-- An action that leaves every object as it is. -/
def KeepsObjects {α : Type} (x : Action α) : Prop :=
  ∀ h, (x.outcome h).2.objects = h.objects

theorem keepsObjects_throw {α : Type} (e : EvalError) : KeepsObjects (throw e : Action α) :=
  fun _ => rfl

theorem keepsObjects_query {α : Type} (f : Heap → Except EvalError α) : KeepsObjects (query f) := by
  intro h
  cases hf : f h with
  | ok a => rw [outcome_of_ok (query_of_ok hf)]
  | error e => rw [outcome_of_error (query_of_error hf)]

theorem KeepsObjects.bind {α β : Type} {x : Action α} {f : α → Action β} (hx : KeepsObjects x)
    (hf : ∀ a, KeepsObjects (f a)) : KeepsObjects (x >>= f) := by
  intro h
  have hstart := hx h
  cases hr : x.run h with
  | error e h' =>
    rw [outcome_of_error hr] at hstart
    rw [outcome_of_error (bind_of_error hr f)]
    exact hstart
  | ok a h' =>
    rw [outcome_of_ok hr] at hstart
    have hrest := hf a h'
    rw [outcome, bind_of_ok hr f, ← outcome]
    exact hrest.trans hstart

theorem keepsObjects_loadField (v : Value) (field : String) : KeepsObjects (loadField v field) := by
  refine KeepsObjects.bind ?_ fun id => keepsObjects_query _
  cases v <;> exact fun _ => rfl

theorem keepsObjects_callSequence (op : SequenceOp) (receiver : Option Value) (args : List Value) :
    KeepsObjects (callSequence op receiver args) := by
  rcases callSequence_cases op receiver args with
    ⟨id, rfl, rfl, rfl⟩ | ⟨id, source, rfl, rfl, rfl⟩ | ⟨e, he, _⟩
  · rw [callSequence_clear]
    exact (keepsObjects_query _).bind fun _ _ => rfl
  · rw [callSequence_appendAll]
    exact (keepsObjects_query _).bind fun _ => (keepsObjects_query _).bind fun _ _ => rfl
  · rw [he]
    exact keepsObjects_throw e

/-- Room for nested calls inside a call from outside. -/
theorem descend_outer {α : Type} (ctx : Context) (body : Caller → Action α) :
    descend ctx (maxCallDepth - 0) body = body (invokeWithin ctx (254 + 1)) := rfl

/-- An object with the name of the class passes as its instance. -/
theorem coerce_instance {ctx : Context} {h : Heap} {o : ObjectId} {cell : ObjectCell}
    (hc : h.objects[o]? = some cell) :
    (coerce ctx (.object o) (.ofName cell.className)).run h = .ok (.object o) h := by
  refine coerce_ok_iff.mpr ?_
  simp [TypeDesc.ofName, Heap.accepts, Heap.object_eq_ok_iff.mpr hc, Hierarchy.isSubtype_refl, bind,
    Except.bind, pure, Except.pure]

end Action

/-! ### Classes with an accessor type -/

namespace ClassFile

/-- What evaluation reads after a run with injection over the program of a file. -/
def context (file : ClassFile) : Context := .ofProgram (Batch.run true file.toProgram).program

theorem context_served (file : ClassFile) : file.toProgram.Served file.context.program :=
  Batch.run_served file.toProgram_closed file.toProgram_findReserved? true

theorem types_eq (file : ClassFile) :
    Hierarchy.ofProgram file.context.program = file.context.types :=
  rfl

/-- A class of the file whose accessor type is there, with the catalog of its fields. -/
structure Hosts (file : ClassFile) (a : Accessor) (c : ClassDef)
    (fields : List FieldDesc) : Prop where
  placed : (a.host, c) ∈ file.placed
  catalogued : catalog file.context.program file.context.types a.host = .ok fields
  serves : a.ServesOnly file.context.program c.name fields

theorem exists_hosts {file : ClassFile} {host : NodeId} {a : Accessor}
    (h : Accessor.locate file.context.program host = .ok a) :
    a.host = host ∧ ∃ c fields, file.Hosts a c fields := by
  obtain ⟨rfl, d, fields, hd, hcatalog, hserves⟩ := file.context_served.locate h
  rw [file.types_eq] at hcatalog
  obtain ⟨c, hc⟩ := exists_placed hd
  have hdecl := (places hc).decl
  rw [hd, Option.some.injEq] at hdecl
  refine ⟨rfl, c, fields, hc, hcatalog, ?_⟩
  rw [hdecl] at hserves
  exact hserves

theorem hosts_of_locate {file : ClassFile} {host : NodeId} {a : Accessor}
    (h : Accessor.locate file.context.program host = .ok a) {c : ClassDef}
    (placed : (host, c) ∈ file.placed) {fields : List FieldDesc}
    (catalogued : catalog file.context.program file.context.types host = .ok fields) :
    a.host = host ∧ file.Hosts a c fields := by
  obtain ⟨rfl, c', fields', hosts⟩ := exists_hosts h
  have hname : c'.name = c.name := by
    have hdecl := (places hosts.placed).decl
    rw [(places placed).decl, Option.some.injEq] at hdecl
    exact (congrArg ClassDecl.name hdecl).symm
  obtain rfl : fields' = fields := Except.ok.inj (hosts.catalogued.symm.trans catalogued)
  exact ⟨rfl, placed, catalogued, hname ▸ hosts.serves⟩

namespace Hosts

variable {file : ClassFile} {a : Accessor} {c : ClassDef} {fields : List FieldDesc}
  (hosts : file.Hosts a c fields)
include hosts

theorem fieldNames_nodup : (file.context.program.fieldNames a.host).Nodup := by
  have hnames := Catalog.map_name (catalog_ok hosts.catalogued).2.1
  rw [Program.fieldNames, ← hnames]
  exact hosts.serves.named.names_nodup

theorem host_lt : (a.host : Nat) < file.toProgram.size :=
  Program.lt_size_of_class? (places hosts.placed).decl

/-- A class has one field of a name. -/
theorem eq_of_name {a' : Accessor} {c' : ClassDef} {fields' : List FieldDesc}
    (hosts' : file.Hosts a' c' fields') (hhost : a'.host = a.host) {f g : FieldDesc}
    (hf : f ∈ fields) (hg : g ∈ fields')
    (hname : g.name = f.name) : g = f := by
  have hcatalog := hosts'.catalogued
  rw [hhost, hosts.catalogued, Except.ok.injEq] at hcatalog
  exact List.inj_on_of_nodup_map hosts.serves.named.names_nodup (hcatalog ▸ hg) hf hname

/-- The name of the class stands on its objects. -/
theorem className_eq {h : Heap} (ht : h.Typed file.context) {o : ObjectId} {cell : ObjectCell}
    (hc : h.objects[o]? = some cell) (howner : cell.owner = a.host) : cell.className = c.name := by
  obtain ⟨d, hd, hname⟩ := (ht o cell hc).1.named
  obtain ⟨d', hd', hx⟩ := file.context_served.grown.class? (places hosts.placed).decl
  rw [howner, hd', Option.some.injEq] at hd
  rw [hname, ← hd, hx.name]
  rfl

/-- The declaration that a store into the slot of a field finds. -/
theorem find?_decl {f : FieldDesc} (hf : f ∈ fields) :
    ∃ decl ∈ file.context.program.fieldsOf a.host, decl.2.name = f.name ∧
      decl.2.type = f.type.declared ∧
      (file.context.program.fieldsOf a.host).find? (fun d => d.2.name == f.name) = some decl := by
  obtain ⟨entry, hentry, hd⟩ := Catalog.exists_entry (catalog_ok hosts.catalogued).2.1 hf
  refine ⟨entry, hentry, hd.name.symm, by rw [hd.type, FieldType.declared_classify], ?_⟩
  cases hfind : (file.context.program.fieldsOf a.host).find? (fun d => d.2.name == f.name) with
  | none => exact absurd (by simp [hd.name]) (List.find?_eq_none.mp hfind entry hentry)
  | some x =>
    have hname : x.2.name = f.name := by simpa using List.find?_some hfind
    have hx :=
      List.inj_on_of_nodup_map hosts.fieldNames_nodup (List.mem_of_find?_eq_some hfind) hentry
      (hname.trans hd.name)
    rw [hx]

theorem exists_backed {f : FieldDesc} (hf : f ∈ fields) :
    ∃ fd ∈ c.fields, f.Backed file.context.program fd := by
  have served := file.context_served
  have hplaces := places hosts.placed
  have hcatalog := hosts.catalogued
  rw [← file.types_eq, served.catalog_eq hplaces.decl served.types] at hcatalog
  obtain ⟨fd, hfd, backed⟩ := hplaces.backed hcatalog hf
  obtain ⟨g, hg, hgb⟩ := backed.getter
  obtain ⟨s, hs, hsb⟩ := backed.setter
  exact ⟨fd, hfd, backed.name, backed.declared, ⟨g, served.grown.method? hg, hgb⟩,
    ⟨s, served.grown.method? hs, hsb⟩⟩

/-- Both accessors of a field are there and were made for it. -/
theorem getSet {f : FieldDesc} (hf : f ∈ fields) {fd : FieldDef} (hfd : fd ∈ c.fields)
    (hname : fd.name = f.name) (haccessors : fd.accessors = .getSet) :
    file.context.program.method? f.getter = some (.getterOf f.name f.type.declared) ∧
      file.context.program.method? f.setter = some (.setterOf f.name f.type.declared) := by
  obtain ⟨fd', hfd', backed⟩ := hosts.exists_backed hf
  have hnodup : (c.fields.map FieldDef.name).Nodup := by
    have hfields := (places hosts.placed).fieldsOf_eq
    rw [← file.context_served.fields _ hosts.host_lt] at hfields
    have hmap := congrArg (List.map FieldDecl.name) hfields
    rw [List.map_map, List.map_map] at hmap
    exact hmap ▸ hosts.fieldNames_nodup
  obtain rfl := List.inj_on_of_nodup_map hnodup hfd' hfd (backed.name.symm.trans hname.symm)
  obtain ⟨g, hg, hgb⟩ := backed.getter
  obtain ⟨s, hs, hsb⟩ := backed.setter
  rw [haccessors] at hgb hsb
  rw [backed.name, backed.declared, hg, hs]
  exact ⟨congrArg some hgb, congrArg some hsb⟩

/-! ### Reads and writes -/

theorem read_cases {f : FieldDesc} (hf : f ∈ fields) (room : Nat) (o : ObjectId) :
    f.read file.context (Action.invokeWithin file.context (room + 1)) (.object o) =
        Action.loadField (.object o) f.name ∨
      ∃ e, f.read file.context (Action.invokeWithin file.context (room + 1)) (.object o) =
        throw e := by
  obtain ⟨fd, _, backed⟩ := hosts.exists_backed hf
  obtain ⟨g, hg, hgb⟩ := backed.getter
  cases hp : fd.accessors.hasGetter with
  | true =>
    rw [hp] at hgb
    refine Or.inl ?_
    rw [backed.name]
    exact FieldDesc.read_getterOf (hg.trans (congrArg some hgb)) room o
  | false =>
    rw [hp] at hgb
    exact Or.inr (FieldDesc.callMember_abstract hg hgb (room + 1) (.object o) [])

/-- A read gives the slot or fails, and changes nothing. -/
theorem read_run_cases {f : FieldDesc} (hf : f ∈ fields) (room : Nat) (h : Heap) (o : ObjectId) :
    (∃ v, h.slot? o f.name = some v ∧
      (f.read file.context (Action.invokeWithin file.context (room + 1)) (.object o)).run h =
        .ok v h) ∨
    ∃ e, (f.read file.context (Action.invokeWithin file.context (room + 1)) (.object o)).run h =
      .error e h := by
  rcases hosts.read_cases hf room o with heq | ⟨e, heq⟩
  · rw [heq]
    exact Action.loadField_cases h o f.name
  · exact Or.inr ⟨e, by rw [heq]; rfl⟩

/-- Storing a value into the slot of a field, if its type takes the value. -/
theorem store_run {f : FieldDesc} (hf : f ∈ fields) {h : Heap} {o : ObjectId} {cell : ObjectCell}
    (hc : h.objects[o]? = some cell) (howner : cell.owner = a.host) {v : Value}
    (ha : h.accepts file.context.types v f.type.declared = .ok true) :
    (do let w ← Action.coerce file.context v f.type.declared
        Action.storeField file.context o f.name w
        return .null : Action Value).run h = .ok .null (h.setSlot o f.name v) := by
  obtain ⟨decl, _, _, htype, hfind⟩ := hosts.find?_decl hf
  rw [← howner] at hfind
  rw [← htype] at ha ⊢
  exact Action.storeField_after_coerce hc hfind ha

/-- A call of the setter stores an accepted value or is refused. -/
theorem setter_cases {f : FieldDesc} (hf : f ∈ fields) (room : Nat) {h : Heap} {o : ObjectId}
    {cell : ObjectCell} (hc : h.objects[o]? = some cell) (howner : cell.owner = a.host)
    (v : Value) :
    (h.accepts file.context.types v f.type.declared = .ok true ∧
      (Action.callMember file.context (Action.invokeWithin file.context (room + 1)) f.setter
        (some (.object o)) [v]).run h = .ok .null (h.setSlot o f.name v)) ∨
    ∃ e, (Action.callMember file.context (Action.invokeWithin file.context (room + 1)) f.setter
      (some (.object o)) [v]).run h = .error e h := by
  obtain ⟨fd, _, backed⟩ := hosts.exists_backed hf
  obtain ⟨s, hs, hsb⟩ := backed.setter
  cases hp : fd.accessors.hasSetter with
  | false =>
    rw [hp] at hsb
    obtain ⟨e, he⟩ := FieldDesc.callMember_abstract hs hsb (room + 1) (.object o) [v]
    exact Or.inr ⟨e, by rw [he]; rfl⟩
  | true =>
    rw [hp] at hsb
    have hcall := FieldDesc.callMember_setterOf (hs.trans (congrArg some hsb)) room o v
    rw [← backed.name, ← backed.declared] at hcall
    rw [hcall]
    rcases Action.coerce_cases file.context v f.type.declared h with hv | ⟨e, hv⟩
    · have ha := Action.coerce_ok_iff.mp hv
      exact Or.inl ⟨ha, hosts.store_run hf hc howner ha⟩
    · exact Or.inr ⟨e, Action.bind_of_error hv _⟩

theorem keepsObjects_read {f : FieldDesc} (hf : f ∈ fields) (room : Nat) (o : ObjectId) :
    Action.KeepsObjects
      (f.read file.context (Action.invokeWithin file.context (room + 1)) (.object o)) := by
  rcases hosts.read_cases hf room o with heq | ⟨e, heq⟩
  · rw [heq]
    exact Action.keepsObjects_loadField _ _
  · rw [heq]
    exact Action.keepsObjects_throw e

theorem keepsObjects_exchange {f : FieldDesc} (hf : f ∈ fields) (room : Nat) (o : ObjectId)
    (v : Value) :
    Action.KeepsObjects
      (f.exchange file.context (Action.invokeWithin file.context (room + 1)) (.object o) v) := by
  have hread := hosts.keepsObjects_read hf room o
  refine hread.bind fun _ => (Action.keepsObjects_callSequence _ _ _).bind fun _ => ?_
  exact hread.bind fun _ => (Action.keepsObjects_callSequence _ _ _).bind fun _ _ => rfl

/-- What an assignment can do: nothing, store an accepted value into the slot, or change sequences
only. A sequence field is stored into when its slot is null. -/
theorem assign_cases {f : FieldDesc} (hf : f ∈ fields) (room : Nat) {h : Heap} {o : ObjectId}
    {cell : ObjectCell} (hc : h.objects[o]? = some cell) (howner : cell.owner = a.host)
    (v : Value) :
    (∃ e,
      (f.assign file.context (Action.invokeWithin file.context (room + 1)) (.object o) v).run h =
      .error e h) ∨
    ((f.type.isSequence = true → h.slot? o f.name = some .null) ∧
      h.accepts file.context.types v f.type.declared = .ok true ∧
      (f.assign file.context (Action.invokeWithin file.context (room + 1)) (.object o) v).run h =
        .ok () (h.setSlot o f.name v)) ∨
    (f.type.isSequence = true ∧
      ((f.assign file.context (Action.invokeWithin file.context (room + 1)) (.object o) v).outcome
        h).2.objects = h.objects) := by
  have hsetter := hosts.setter_cases hf room hc howner v
  cases hseq : f.type.isSequence with
  | false =>
    rw [FieldDesc.assign_of_scalar hseq]
    rcases hsetter with ⟨ha, hrun⟩ | ⟨e, hrun⟩
    · exact Or.inr (Or.inl ⟨by rintro ⟨⟩, ha, Action.bind_of_ok hrun _⟩)
    · exact Or.inl ⟨e, Action.bind_of_error hrun _⟩
  | true =>
    rcases hosts.read_run_cases hf room h o with ⟨w, hw, hread⟩ | ⟨e, hread⟩
    · cases hnull : w.isNull with
      | true =>
        obtain rfl := Value.eq_null hnull
        rw [FieldDesc.assign_of_null hseq hread]
        rcases hsetter with ⟨ha, hrun⟩ | ⟨e, hrun⟩
        · exact Or.inr (Or.inl ⟨fun _ => hw, ha, Action.bind_of_ok hrun _⟩)
        · exact Or.inl ⟨e, Action.bind_of_error hrun _⟩
      | false =>
        refine Or.inr (Or.inr ⟨rfl, ?_⟩)
        rw [Action.outcome, FieldDesc.assign_of_present hseq hread hnull, ← Action.outcome]
        exact hosts.keepsObjects_exchange hf room o v h
    · exact Or.inl ⟨e, FieldDesc.assign_of_unreadable hseq hread⟩

/-! ### Calls from outside -/

theorem get_run {f : FieldDesc} (hf : f ∈ fields) {h : Heap} {o : ObjectId}
    (hi : (Action.coerce file.context (.object o) (.ofName c.name)).run h = .ok (.object o) h) :
    (a.get file.context (.object o) f.name).run h =
        (f.read file.context (Action.invokeWithin file.context (254 + 1)) (.object o)).run h ∧
      (a.getTyped file.context (.object o) f.name).run h =
        (f.read file.context (Action.invokeWithin file.context (254 + 1)) (.object o)).run h := by
  rw [Accessor.get, Accessor.getTyped, hosts.serves.serves.getAt hf,
    hosts.serves.serves.getTypedAt hf, Action.bind_of_ok hi, Action.descend_outer]
  exact ⟨rfl, rfl⟩

theorem set_run {f : FieldDesc} (hf : f ∈ fields) {h : Heap} {o : ObjectId} (v : Value)
    (hi : (Action.coerce file.context (.object o) (.ofName c.name)).run h = .ok (.object o) h) :
    (a.set file.context (.object o) f.name v).run h =
      (do
        let w ← Action.coerce file.context v f.castType
        f.assign file.context (Action.invokeWithin file.context (254 + 1)) (.object o) w :
          Action Unit).run h := by
  rw [Accessor.set, hosts.serves.serves.setAt hf, Action.bind_of_ok hi, Action.descend_outer]

theorem setTyped_run {f : FieldDesc} (hf : f ∈ fields) {h : Heap} {o : ObjectId} (v : Value)
    (hi : (Action.coerce file.context (.object o) (.ofName c.name)).run h = .ok (.object o) h) :
    (a.setTyped file.context (.object o) f.name v).run h =
      (do
        let w ← Action.coerce file.context v f.type.declared
        f.assign file.context (Action.invokeWithin file.context (254 + 1)) (.object o) w :
          Action Unit).run h := by
  rw [Accessor.setTyped, hosts.serves.serves.setTypedAt hf, Action.bind_of_ok hi]
  rfl

/-- A write by key fails without a trace or is the assignment to the field of the name. -/
theorem set_cases (h : Heap) (o : ObjectId) (key : String) (v : Value) :
    (∃ e, (a.set file.context (.object o) key v).run h = .error e h) ∨
      ∃ f ∈ fields, f.name = key ∧
        (a.set file.context (.object o) key v).run h =
          (f.assign file.context (Action.invokeWithin file.context (254 + 1)) (.object o)
            v).run h := by
  by_cases hkey : ∃ f ∈ fields, f.name = key
  · obtain ⟨f, hf, rfl⟩ := hkey
    rcases Action.coerce_cases file.context (.object o) (.ofName c.name) h with hi | ⟨e, hi⟩
    · rw [hosts.set_run hf v hi]
      rcases Action.coerce_cases file.context v f.castType h with hv | ⟨e, hv⟩
      · exact Or.inr ⟨f, hf, rfl, Action.bind_of_ok hv _⟩
      · exact Or.inl ⟨e, Action.bind_of_error hv _⟩
    · refine Or.inl ⟨e, ?_⟩
      rw [Accessor.set, hosts.serves.serves.setAt hf]
      exact Action.bind_of_error hi _
  · refine Or.inl (hosts.serves.serves.setAt_unknown ?_ 0 (.object o) v h)
    intro f hf hname
    exact hkey ⟨f, hf, hname⟩

theorem setTyped_cases (h : Heap) (o : ObjectId) (name : String) (v : Value) :
    (∃ e, (a.setTyped file.context (.object o) name v).run h = .error e h) ∨
      ∃ f ∈ fields, Naming.setter name = Naming.setter f.name ∧
        (a.setTyped file.context (.object o) name v).run h =
          (f.assign file.context (Action.invokeWithin file.context (254 + 1)) (.object o)
            v).run h := by
  rcases hosts.serves.setTypedAt_cases 0 (.object o) name v h with he | ⟨f, hf, hname⟩
  · exact Or.inl he
  · -- only the name of the method matters
    have heq : a.setTyped file.context (.object o) name v =
        a.setTyped file.context (.object o) f.name v := by
      rw [Accessor.setTyped, Accessor.setTypedAt, hname]
      rfl
    rw [heq]
    rcases Action.coerce_cases file.context (.object o) (.ofName c.name) h with hi | ⟨e, hi⟩
    · rw [hosts.setTyped_run hf v hi]
      rcases Action.coerce_cases file.context v f.type.declared h with hv | ⟨e, hv⟩
      · exact Or.inr ⟨f, hf, hname, Action.bind_of_ok hv _⟩
      · exact Or.inl ⟨e, Action.bind_of_error hv _⟩
    · refine Or.inl ⟨e, ?_⟩
      rw [Accessor.setTyped, hosts.serves.serves.setTypedAt hf]
      exact Action.bind_of_error hi _

theorem read_keeps {f : FieldDesc} (hf : f ∈ fields) (room : Nat) (h : Heap) (o : ObjectId) :
    ((f.read file.context (Action.invokeWithin file.context (room + 1)) (.object o)).outcome h).2 =
      h := by
  rcases hosts.read_run_cases hf room h o with ⟨v, _, hv⟩ | ⟨e, he⟩
  · rw [Action.outcome_of_ok hv]
  · rw [Action.outcome_of_error he]

theorem get_keeps (h : Heap) (o : ObjectId) (key : String) :
    ((a.get file.context (.object o) key).outcome h).2 = h := by
  by_cases hkey : ∃ f ∈ fields, f.name = key
  · obtain ⟨f, hf, rfl⟩ := hkey
    rcases Action.coerce_cases file.context (.object o) (.ofName c.name) h with hi | ⟨e, hi⟩
    · rw [Action.outcome, (hosts.get_run hf hi).1, ← Action.outcome]
      exact hosts.read_keeps hf 254 h o
    · rw [Accessor.get, hosts.serves.serves.getAt hf,
        Action.outcome_of_error (Action.bind_of_error hi _)]
  · obtain ⟨e, he⟩ := hosts.serves.serves.getAt_unknown
      (fun f hf hname => hkey ⟨f, hf, hname⟩) 0 (.object o) h
    rw [Accessor.get, Action.outcome_of_error he]

theorem getTyped_keeps (h : Heap) (o : ObjectId) (name : String) :
    ((a.getTyped file.context (.object o) name).outcome h).2 = h := by
  rcases hosts.serves.getTypedAt_cases 0 (.object o) name h with ⟨e, he⟩ | ⟨f, hf, hname⟩
  · rw [Accessor.getTyped, Action.outcome_of_error he]
  · have heq : a.getTyped file.context (.object o) name =
        a.getTyped file.context (.object o) f.name := by
      rw [Accessor.getTyped, Accessor.getTypedAt, hname]
      rfl
    rw [heq]
    rcases Action.coerce_cases file.context (.object o) (.ofName c.name) h with hi | ⟨e, hi⟩
    · rw [Action.outcome, (hosts.get_run hf hi).2, ← Action.outcome]
      exact hosts.read_keeps hf 254 h o
    · rw [Accessor.getTyped, hosts.serves.serves.getTypedAt hf,
        Action.outcome_of_error (Action.bind_of_error hi _)]

end Hosts

end ClassFile

end FieldAccess
