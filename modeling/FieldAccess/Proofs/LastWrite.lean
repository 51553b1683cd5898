import FieldAccess.Proofs.FileSessions

/-! Scalar fields remember their last write. Over any session with the classes of a file, a read
gives the value of the last write that succeeded, or the first value of the type; a write succeeds
exactly when the type of the field takes the value. -/
namespace FieldAccess

/-- A typed call is for a field of the class. -/
def Request.NamesFields (ctx : Context) : Request → Prop
  | getTyped host _ name | setTyped host _ name _ =>
    ∃ fields, catalog ctx.program ctx.types host = .ok fields ∧ ∃ f ∈ fields, f.name = name
  | _ => True

/-- The value of the last write to a field of an object that succeeded. -/
def lastWrite (ctx : Context) (start : Heap) (o : ObjectId) (field : String) :
    List Request → Option Value
  | [] => none
  | r :: past =>
    match r.write? with
    | none => lastWrite ctx start o field past
    | some (o', field', v) =>
      if o' = o ∧ field' = field ∧ r.succeeds ctx (heapAfter ctx start past) = true then some v
      else lastWrite ctx start o field past

section LastWrite
variable {ctx : Context} {start : Heap} {r : Request} {past : List Request}

theorem lastWrite_of_none (hw : r.write? = none) (o : ObjectId) (field : String) :
    lastWrite ctx start o field (r :: past) = lastWrite ctx start o field past := by
  simp only [lastWrite, hw]

theorem lastWrite_of_write {o' : ObjectId} {field' : String} {v : Value}
    (hw : r.write? = some (o', field', v)) (o : ObjectId) (field : String) :
    lastWrite ctx start o field (r :: past) =
      if o' = o ∧ field' = field ∧ r.succeeds ctx (heapAfter ctx start past) = true then some v
      else lastWrite ctx start o field past := by
  simp only [lastWrite, hw]

/-- A request that fails is not remembered. -/
theorem lastWrite_of_refused
    (hr : r.write?.isSome = true → r.succeeds ctx (heapAfter ctx start past) = false) (o : ObjectId)
    (field : String) :
    lastWrite ctx start o field (r :: past) = lastWrite ctx start o field past := by
  cases hw : r.write? with
  | none => exact lastWrite_of_none hw o field
  | some w =>
    obtain ⟨o', field', v⟩ := w
    rw [lastWrite_of_write hw, hr (by rw [hw]; rfl)]
    simp

end LastWrite

/-- Every slot of a scalar field holds the last write, and nothing was written to objects that do
not exist yet. -/
structure Remembers (file : ClassFile) (past : List Request) : Prop where
  slots : ∀ (a : Accessor) (c : ClassDef) (fields : List FieldDesc), file.Hosts a c fields →
    ∀ f ∈ fields, ∀ t, f.type = .scalar t → ∀ (o : ObjectId) (cell : ObjectCell),
      (heapAfter file.context .empty past).objects[o]? = some cell → cell.owner = a.host →
      (heapAfter file.context .empty past).slot? o f.name =
        some ((lastWrite file.context .empty o f.name past).getD (Value.default t))
  fresh : ∀ o : ObjectId, (heapAfter file.context .empty past).objects[o]? = none →
    ∀ field, lastWrite file.context .empty o field past = none

namespace Remembers

variable {file : ClassFile} {past : List Request} {r : Request}

theorem nil (file : ClassFile) : Remembers file [] where
  slots := by
    intro a c fields hosts f hf t ht o cell hc
    cases hc
  fresh _ _ _ := rfl

/-- Neither objects nor the memory of them change. -/
theorem kept (ih : Remembers file past)
    (hobjects : (r.after file.context (heapAfter file.context .empty past)).objects =
      (heapAfter file.context .empty past).objects)
    (hlast : ∀ o field, lastWrite file.context .empty o field (r :: past) =
      lastWrite file.context .empty o field past) : Remembers file (r :: past) := by
  refine ⟨?_, ?_⟩
  · intro a c fields hosts f hf t ht o cell hc howner
    rw [heapAfter, hobjects] at hc
    rw [hlast, heapAfter, Heap.slot?, hobjects]
    exact ih.slots a c fields hosts f hf t ht o cell hc howner
  · intro o hnone field
    rw [heapAfter, hobjects] at hnone
    rw [hlast, ih.fresh o hnone]

/-- A new object starts with first values, and nobody has written to it. -/
theorem instantiate (ih : Remembers file past) (id : NodeId) :
    Remembers file (.instantiate id :: past) := by
  have hlast : ∀ o field, lastWrite file.context .empty o field (.instantiate id :: past) =
      lastWrite file.context .empty o field past := fun o field => lastWrite_of_none rfl o field
  rcases Request.after_instantiate file.context (heapAfter file.context .empty past) id with
    hafter | ⟨decl, _, hafter⟩
  · exact ih.kept (by rw [hafter]) hlast
  · refine ⟨?_, ?_⟩
    · intro a c fields hosts f hf t ht o cell hc howner
      rw [heapAfter, hafter] at hc
      rw [hlast, heapAfter, hafter, Heap.slot?]
      rcases Heap.objects_append_cases hc with hold | ⟨hold, rfl⟩
      · have hslot := ih.slots a c fields hosts f hf t ht o cell hold howner
        rw [Heap.slot?, hold] at hslot
        rw [hc]
        exact hslot
      · obtain ⟨entry, hentry, hname, htype, _⟩ := hosts.find?_decl hf
        obtain rfl : id = a.host := howner
        rw [hc, ih.fresh o hold, ← hname]
        refine (Program.get?_newCell hosts.fieldNames_nodup hentry).trans ?_
        rw [htype, ht]
        rfl
    · intro o hnone field
      rw [heapAfter, hafter, List.getElem?_eq_none_iff, List.length_append] at hnone
      rw [hlast]
      exact ih.fresh o (List.getElem?_eq_none_iff.mpr (by omega)) field

theorem fresh_of_assigns (ih : Remembers file past) {b : Accessor} {g : FieldDesc} {o' : ObjectId}
    {v : Value} (hr : r.Assigns file (heapAfter file.context .empty past) o' b g v)
    (hw : r.write? = some (o', g.name, v)) {o : ObjectId}
    (hnone : (heapAfter file.context .empty past).objects[o]? = none) (field : String) :
    lastWrite file.context .empty o field (r :: past) = none := by
  obtain ⟨cell, hc, _⟩ := hr.own
  rw [lastWrite_of_write hw, if_neg, ih.fresh o hnone]
  rintro ⟨rfl, _⟩
  rw [hnone] at hc
  cases hc

/-- An assignment changes the slot that it is remembered for, or sequences only. -/
theorem assigns (ih : Remembers file past) {b : Accessor} {g : FieldDesc} {o' : ObjectId}
    {v : Value} (hr : r.Assigns file (heapAfter file.context .empty past) o' b g v)
    (hw : r.write? = some (o', g.name, v)) : Remembers file (r :: past) := by
  rcases hr.effect with ⟨_, hok, hafter⟩ | ⟨hseq, hkept⟩
  · refine ⟨?_, ?_⟩
    · intro a c fields hosts f hf t ht o cell hc howner
      rw [heapAfter, hafter, Heap.objects_setSlot] at hc
      obtain ⟨old, hold, rfl⟩ := Option.map_eq_some_iff.mp hc
      have howner' : old.owner = a.host := by split at howner <;> exact howner
      rw [heapAfter, hafter, Heap.slot?_setSlot, lastWrite_of_write hw, hok]
      by_cases hsame : o' = o ∧ g.name = f.name
      · simp [hsame, hold]
      · rw [if_neg hsame, if_neg (fun h => hsame ⟨h.1, h.2.1⟩)]
        exact ih.slots a c fields hosts f hf t ht o old hold howner'
    · intro o hnone field
      rw [heapAfter, hafter, Heap.objects_setSlot, Option.map_eq_none_iff] at hnone
      exact ih.fresh_of_assigns hr hw hnone field
  · refine ⟨?_, ?_⟩
    · intro a c fields hosts f hf t ht o cell hc howner
      rw [heapAfter, hkept] at hc
      rw [heapAfter, Heap.slot?, hkept, lastWrite_of_write hw, if_neg]
      · exact ih.slots a c fields hosts f hf t ht o cell hc howner
      · -- the field of the assignment would have to be both scalar and sequence
        rintro ⟨rfl, hname, _⟩
        rw [hr.eq_of_name hosts hf hc howner hname, ht] at hseq
        cases hseq
    · intro o hnone field
      rw [heapAfter, hkept] at hnone
      exact ih.fresh_of_assigns hr hw hnone field

end Remembers

/-- Names of fields are told apart by their setters. -/
theorem Request.Assigns.write?_eq {file : ClassFile} {h : Heap} {r : Request} {o : ObjectId}
    {a : Accessor} {g : FieldDesc} {v : Value} (hr : r.Assigns file h o a g v)
    (named : r.NamesFields file.context) : r.write? = some (o, g.name, v) := by
  rcases hr.named with hw | ⟨name, rfl, hname⟩
  · exact hw
  · obtain ⟨c, fields, hosts, hg⟩ := hr.field
    obtain ⟨fields', hcatalog, f, hf, rfl⟩ := named
    rw [hosts.catalogued, Except.ok.injEq] at hcatalog
    subst hcatalog
    rw [hosts.serves.named.eq_of_setter hf hg hname]
    rfl

/-- One request more. -/
theorem Remembers.step {file : ClassFile} {past : List Request} {r : Request}
    (ih : Remembers file past) (proper : r.Proper (heapAfter file.context .empty past))
    (named : r.NamesFields file.context) : Remembers file (r :: past) := by
  rcases Request.proper_cases file proper with
    ⟨id, rfl⟩ | ⟨items, rfl⟩ | ⟨hrefused, hkept⟩ | ⟨o, v, a, g, hr⟩
  · exact ih.instantiate id
  · exact ih.kept rfl (lastWrite_of_none rfl)
  · exact ih.kept (by rw [hkept]) (lastWrite_of_refused hrefused)
  · exact ih.assigns hr (hr.write?_eq named)

theorem remembers {file : ClassFile} {past : List Request}
    (proper : ProperRun file.context .empty past)
    (named : ∀ r ∈ past, r.NamesFields file.context) : Remembers file past := by
  induction past with
  | nil => exact .nil file
  | cons r past ih =>
    have hpast := ih proper.1 fun s hs => named s (List.mem_cons_of_mem r hs)
    exact hpast.step proper.2 (named r List.mem_cons_self)

/-! ### Writes that succeed -/

theorem Heap.exists_coerce_iff {h : Heap} {types : Hierarchy} {v : Value} {t : TypeDesc} :
    (∃ w, h.coerce types v t = .ok w) ↔ h.accepts types v t = .ok true := by
  rw [← Heap.coerce_ok_iff]
  constructor
  · rintro ⟨w, hw⟩
    obtain rfl := Heap.eq_of_coerce hw
    exact hw
  · exact fun hv => ⟨v, hv⟩

namespace ClassFile.Hosts

variable {file : ClassFile} {a : Accessor} {c : ClassDef} {fields : List FieldDesc}
  (hosts : file.Hosts a c fields)
include hosts

theorem assign_scalar {f : FieldDesc} (hf : f ∈ fields) {t : TypeDesc} (ht : f.type = .scalar t)
    (hs : file.context.program.method? f.setter = some (.setterOf f.name f.type.declared))
    {h : Heap} {o : ObjectId} {cell : ObjectCell} (hc : h.objects[o]? = some cell)
    (howner : cell.owner = a.host) {v : Value}
    (hv : h.accepts file.context.types v f.type.declared = .ok true) :
    (f.assign file.context (Action.invokeWithin file.context (254 + 1)) (.object o) v).run h =
      .ok () (h.setSlot o f.name v) := by
  have hrun := hosts.store_run hf hc howner hv
  rw [← FieldDesc.callMember_setterOf hs 254 o v] at hrun
  rw [FieldDesc.assign_of_scalar (by rw [ht]; rfl)]
  exact Action.bind_of_ok hrun _

/-- A conversion that lets every value of the field through decides nothing. -/
theorem converted_assign_iff {f : FieldDesc} (hf : f ∈ fields) {t : TypeDesc}
    (ht : f.type = .scalar t)
    (hs : file.context.program.method? f.setter = some (.setterOf f.name f.type.declared))
    {h : Heap} {o : ObjectId} {cell : ObjectCell} (hc : h.objects[o]? = some cell)
    (howner : cell.owner = a.host) {v : Value} {u : TypeDesc}
    (hu : h.accepts file.context.types v f.type.declared = .ok true →
      h.accepts file.context.types v u = .ok true) :
    (∃ h', (do
        let w ← Action.coerce file.context v u
        f.assign file.context (Action.invokeWithin file.context (254 + 1)) (.object o) w).run h =
      .ok () h') ↔ h.accepts file.context.types v f.type.declared = .ok true := by
  constructor
  · rintro ⟨h', hrun⟩
    rcases Action.coerce_cases file.context v u h with hv | ⟨e, hv⟩
    · rw [Action.bind_of_ok hv] at hrun
      rcases hosts.assign_cases hf 254 hc howner v with ⟨e, he⟩ | ⟨_, ha, _⟩ | ⟨hseq, _⟩
      · rw [he] at hrun
        cases hrun
      · exact ha
      · rw [ht] at hseq
        cases hseq
    · rw [Action.bind_of_error hv] at hrun
      cases hrun
  · intro ha
    rw [Action.bind_of_ok (Action.coerce_ok_iff.mpr (hu ha))]
    exact ⟨_, hosts.assign_scalar hf ht hs hc howner ha⟩

end ClassFile.Hosts

/-- After any requests on the classes of a file, made through their own accessor types: a scalar
field with both accessors takes a value exactly if its type does, and a read, by name or typed,
gives the value of the last write that succeeded, or the first value of the type. -/
theorem scalar_fields_remember_last_write (file : ClassFile) (past : List Request)
    (proper : ProperRun file.context .empty past) (named : ∀ r ∈ past, r.NamesFields file.context)
    {host : NodeId} {a : Accessor} (located : Accessor.locate file.context.program host = .ok a)
    {c : ClassDef} (placed : (host, c) ∈ file.placed) {fields : List FieldDesc}
    (catalogued : catalog file.context.program file.context.types host = .ok fields)
    {f : FieldDesc} (hf : f ∈ fields) {t : TypeDesc} (scalar : f.type = .scalar t)
    {fd : FieldDef} (hfd : fd ∈ c.fields) (hname : fd.name = f.name)
    (accessors : fd.accessors = .getSet) {o : ObjectId} {cell : ObjectCell}
    (hc : (heapAfter file.context .empty past).objects[o]? = some cell)
    (howner : cell.owner = host) :
    let h := heapAfter file.context .empty past
    (∀ v, ((∃ h', (a.set file.context (.object o) f.name v).run h = .ok () h') ↔
        ∃ w, h.coerce file.context.types v t = .ok w) ∧
      ((∃ h', (a.setTyped file.context (.object o) f.name v).run h = .ok () h') ↔
        ∃ w, h.coerce file.context.types v t = .ok w)) ∧
    (a.get file.context (.object o) f.name).run h =
      .ok ((lastWrite file.context .empty o f.name past).getD (Value.default t)) h ∧
    (a.getTyped file.context (.object o) f.name).run h =
      .ok ((lastWrite file.context .empty o f.name past).getD (Value.default t)) h := by
  intro h
  obtain ⟨rfl, hosts⟩ := ClassFile.hosts_of_locate located placed catalogued
  obtain ⟨hg, hs⟩ := hosts.getSet hf hfd hname accessors
  have hi : (Action.coerce file.context (.object o) (.ofName c.name)).run h =
      .ok (.object o) h := by
    have htyped := heapAfter_typed (Heap.typed_empty file.context) past
    rw [← hosts.className_eq htyped hc howner]
    exact Action.coerce_instance hc
  have hdeclared : f.type.declared = t := by rw [scalar]; rfl
  refine ⟨fun v => ?_, ?_⟩
  · rw [hosts.set_run hf v hi, hosts.setTyped_run hf v hi, Heap.exists_coerce_iff, ← hdeclared]
    exact ⟨hosts.converted_assign_iff hf scalar hs hc howner FieldDesc.accepts_castType_of_declared,
      hosts.converted_assign_iff hf scalar hs hc howner id⟩
  · have hslot := (remembers proper named).slots a c fields hosts f hf t scalar o cell hc howner
    rw [(hosts.get_run hf hi).1, (hosts.get_run hf hi).2, FieldDesc.read_getterOf hg 254 o]
    exact ⟨Action.loadField_of_slot? hslot, Action.loadField_of_slot? hslot⟩

/-- The age of a person is written by name and typed, then null is refused. -/
def personPast : List Request :=
  [.set 0 (.object 0) "age" .null, .setTyped 0 (.object 0) "age" (.int64 42),
    .set 0 (.object 0) "age" (.int64 41), .instantiate 0]

theorem person_age_remembered :
    ((⟨0, 7⟩ : Accessor).get personFile.context (.object 0) "age").run
        (heapAfter personFile.context .empty personPast) =
      .ok (.int64 42) (heapAfter personFile.context .empty personPast) := by
  have catalogued : catalog personFile.context.program personFile.context.types 0 =
      .ok personFields := rfl
  have proper : ProperRun personFile.context .empty personPast :=
    ⟨⟨⟨⟨trivial, trivial⟩, 0, _, rfl, rfl, rfl⟩, 0, _, rfl, rfl, rfl⟩, 0, _, rfl, rfl, rfl⟩
  have named : ∀ r ∈ personPast, r.NamesFields personFile.context := by
    simp only [personPast, List.forall_mem_cons]
    exact ⟨trivial, ⟨personFields, catalogued, _, List.mem_cons_self, rfl⟩, trivial, trivial, nofun⟩
  have remembered := scalar_fields_remember_last_write personFile personPast proper named
    (a := ⟨0, 7⟩) rfl List.mem_cons_self catalogued List.mem_cons_self rfl
      List.mem_cons_self rfl rfl
    (o := 0) rfl rfl
  exact remembered.2.1

end FieldAccess
