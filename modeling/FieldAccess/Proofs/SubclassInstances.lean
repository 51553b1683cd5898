import FieldAccess.Proofs.Assignability
import FieldAccess.Proofs.SequenceSlots
import FieldAccess.Proofs.Unstuck

/-! Instances of subclasses. An accessor type takes every object whose class is named below its
host, but an object has the slots of its own class only: fields are not inherited. So a field is
read from the instance of a subclass if the subclass declares the name too, whatever for, and is
missing otherwise. -/
namespace FieldAccess

theorem run_instantiate {ctx : Context} {id : NodeId} {decl : ClassDecl}
    (hc : ctx.program.class? id = some decl) (past : List Request) :
    (Action.instantiate ctx id).run (heapAfter ctx .empty past) =
      .ok (.object (heapAfter ctx .empty past).objects.length)
        (heapAfter ctx .empty (.instantiate id :: past)) := by
  rw [heapAfter, Request.after, Request.perform, Action.outcome_of_ok (instantiate_run hc _),
    instantiate_run hc]

/-- An object stays in its place, with its class, whatever is requested after it was made. -/
theorem exists_instantiated {ctx : Context} {id : NodeId} {decl : ClassDecl}
    (hc : ctx.program.class? id = some decl) (later past : List Request) :
    ∃ cell : ObjectCell, (heapAfter ctx .empty (later ++ .instantiate id :: past)).objects[
        (heapAfter ctx .empty past).objects.length]? = some cell ∧
      cell.owner = id ∧ cell.className = decl.name := by
  rw [heapAfter_append]
  refine heapAfter_grows ctx _ later _ (ctx.program.newCell id decl) ?_
  rw [heapAfter, Request.after, Request.perform, Action.outcome_of_ok (instantiate_run hc _)]
  exact List.getElem?_concat_length

/-- An object has no slot for a name that its class does not declare. -/
theorem Heap.Typed.loadField_undeclared {ctx : Context} {h : Heap} (typed : h.Typed ctx)
    {o : ObjectId} {cell : ObjectCell} (hc : h.objects[o]? = some cell) {name : String}
    (hname : name ∉ ctx.program.fieldNames cell.owner) :
    (Action.loadField (.object o) name).run h = .error (.noSuchField cell.className name) h := by
  have hnone : Assoc.get? name cell.slots = none := by
    rw [Assoc.get?_eq_none_iff, (typed o cell hc).1.slots, List.mem_eraseDups]
    exact hname
  refine Action.query_of_error ?_
  simp [Heap.object_eq_ok_iff.mpr hc, hnone, bind, Except.bind]

/-- For every class that a run over the program of a file has injected, every class named below it,
and every object made of that class, at any later time: the object passes as an instance of the
host, and for each field of the host with both accessors made for it, both reads give the slot of
the object if its own class declares a field of the name, and report the field as missing from that
class otherwise. The heap does not change. -/
theorem subclass_instances_read_own_fields (file : ClassFile) {host : NodeId}
    (injected : host ∈ (Batch.run true file.toProgram).report.injected) {c : ClassDef}
    (placed : (host, c) ∈ file.placed) {sub : NodeId} {decl : ClassDecl}
    (declared : file.context.program.class? sub = some decl)
    (below : file.context.types.isSubtype decl.name c.name = true) (later past : List Request) :
    ∃ a fields, Accessor.locate file.context.program host = .ok a ∧
      catalog file.context.program file.context.types host = .ok fields ∧
      let o := (heapAfter file.context .empty past).objects.length
      let h := heapAfter file.context .empty (later ++ .instantiate sub :: past)
      (Action.instantiate file.context sub).run (heapAfter file.context .empty past) =
        .ok (.object o) (heapAfter file.context .empty (.instantiate sub :: past)) ∧
      h.coerce file.context.types (.object o) (.ofName c.name) = .ok (.object o) ∧
      ∀ f ∈ fields, ∀ fd ∈ c.fields, fd.name = f.name → fd.accessors = .getSet →
        (f.name ∈ file.context.program.fieldNames sub → ∃ v, h.slot? o f.name = some v ∧
          (a.get file.context (.object o) f.name).run h = .ok v h ∧
          (a.getTyped file.context (.object o) f.name).run h = .ok v h) ∧
        (f.name ∉ file.context.program.fieldNames sub →
          (a.get file.context (.object o) f.name).run h = .error (.noSuchField decl.name f.name) h ∧
          (a.getTyped file.context (.object o) f.name).run h =
            .error (.noSuchField decl.name f.name) h) := by
  obtain ⟨a, located⟩ := file.exists_locate injected
  obtain ⟨hhost, _, fields, found⟩ := ClassFile.exists_hosts located
  have catalogued : catalog file.context.program file.context.types host = .ok fields :=
    hhost ▸ found.catalogued
  obtain ⟨rfl, hosts⟩ := ClassFile.hosts_of_locate located placed catalogued
  refine ⟨a, fields, located, catalogued, run_instantiate declared past, ?_⟩
  obtain ⟨cell, hc, howner, hname⟩ := exists_instantiated declared later past
  have typed := heapAfter_typed (Heap.typed_empty file.context) (later ++ .instantiate sub :: past)
  generalize heapAfter file.context .empty (later ++ .instantiate sub :: past) = h at hc typed ⊢
  generalize (heapAfter file.context .empty past).objects.length = o at hc ⊢
  have hinstance : h.accepts file.context.types (.object o) (.ofName c.name) = .ok true := by
    refine Heap.accepts_object_iff.mpr ⟨cell, Heap.object_eq_ok_iff.mpr hc, ?_⟩
    rw [hname]
    exact (Hierarchy.isSubtype_iff_reaches _ _ _).mp below
  refine ⟨Heap.coerce_ok_iff.mpr hinstance, ?_⟩
  intro f hf fd hfd hfield accessors
  obtain ⟨hgetter, _⟩ := hosts.getSet hf hfd hfield accessors
  have hreads := hosts.get_run hf (Action.coerce_ok_iff.mpr hinstance)
  rw [FieldDesc.read_getterOf hgetter 254 o] at hreads
  constructor
  · intro hown
    obtain ⟨v, hv⟩ := typed.exists_slot hc (howner ▸ hown)
    have hload := Action.loadField_of_slot? hv
    exact ⟨v, hv, hreads.1.trans hload, hreads.2.trans hload⟩
  · intro hmissing
    have hload := typed.loadField_undeclared hc (howner ▸ hmissing)
    rw [hname] at hload
    exact ⟨hreads.1.trans hload, hreads.2.trans hload⟩

/-- A class with a number, and a class below it with a field of a given name. -/
def derivedFile (field : String) : ClassFile :=
  ⟨[{ name := "Base"
      annotations := ["Entity"]
      fields := [{ name := "id", type := .primitive .int64 }] },
    { name := "Derived"
      supertypes := [.ofName "Base"]
      fields := [{ name := field, type := .string }] }]⟩

/-- A subclass that declares the name for itself: its own slot is read, as it was written there. -/
theorem derived_id_read :
    let ctx := (derivedFile "id").context
    let h := heapAfter ctx .empty [.invoke 7 (some (.object 0)) [.str "x"], .instantiate 4]
    0 ∈ (Batch.run true (derivedFile "id").toProgram).report.injected ∧
      ctx.types.isSubtype "Derived" "Base" = true ∧ "id" ∈ ctx.program.fieldNames 4 ∧
      ((⟨0, 8⟩ : Accessor).get ctx (.object 0) "id").run h = .ok (.str "x") h := by
  intro ctx h
  have injected : 0 ∈ (Batch.run true (derivedFile "id").toProgram).report.injected :=
    List.mem_cons_self
  have below : ctx.types.isSubtype "Derived" "Base" = true := rfl
  have declared : ctx.program.class? 4 =
      some { name := "Derived", supertypes := [.ofName "Base"], members := [5, 6, 7] } := rfl
  have own : "id" ∈ ctx.program.fieldNames 4 := List.mem_cons_self
  obtain ⟨a, fields, located, catalogued, _, _, reads⟩ :=
    subclass_instances_read_own_fields (derivedFile "id")
    injected List.mem_cons_self declared below [.invoke 7 (some (.object 0)) [.str "x"]] []
  obtain rfl : a = ⟨0, 8⟩ := Except.ok.inj (located.symm.trans rfl)
  obtain rfl : fields = [⟨"id", "Id", .scalar (.primitive .int64), 1, 2, 3⟩] :=
    Except.ok.inj (catalogued.symm.trans rfl)
  obtain ⟨v, hv, hread, _⟩ := (reads _ List.mem_cons_self _ List.mem_cons_self rfl rfl).1 own
  obtain rfl : v = .str "x" := Option.some.inj (hv.symm.trans rfl)
  exact ⟨injected, below, own, hread⟩

/-- A subclass without the field: its objects pass as instances, but the field is not there. -/
theorem derived_id_missing :
    let ctx := (derivedFile "note").context
    let h := heapAfter ctx .empty [.instantiate 4]
    0 ∈ (Batch.run true (derivedFile "note").toProgram).report.injected ∧
      ctx.types.isSubtype "Derived" "Base" = true ∧
      h.coerce ctx.types (.object 0) (.ofName "Base") = .ok (.object 0) ∧
      ((⟨0, 8⟩ : Accessor).get ctx (.object 0) "id").run h =
        .error (.noSuchField "Derived" "id") h := by
  intro ctx h
  exact ⟨List.mem_cons_self, rfl, rfl, rfl⟩

end FieldAccess
