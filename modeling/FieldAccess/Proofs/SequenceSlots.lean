import FieldAccess.Proofs.FailedWrites
import FieldAccess.Proofs.Reruns

/-! What sequence fields hold. A slot holds the first value of a declaration of its name, or one
that such a declaration takes. For a sequence field these are null, sequences and, since classes may
be declared below the sequences, objects of such classes, which cannot be emptied or appended to. -/
namespace FieldAccess

theorem Assoc.mem_of_get?_ofPairs {κ α : Type} [DecidableEq κ] {pairs : List (κ × α)} {key : κ}
    {value : α} (h : get? key (ofPairs pairs) = some value) : (key, value) ∈ pairs := by
  induction pairs using List.reverseRecOn with
  | nil => cases h
  | append_singleton pairs p ih =>
    rw [ofPairs_append_singleton] at h
    by_cases hkey : key = p.1
    · subst hkey
      rw [get?_put_same, Option.some.injEq] at h
      subst h
      exact List.mem_append_right _ List.mem_cons_self
    · rw [get?_put_other hkey] at h
      exact List.mem_append_left _ (ih h)

/-! ### Slots and declarations -/

namespace Heap

/-- A value that a slot may hold by one declaration. -/
def Suits (h : Heap) (types : Hierarchy) (v : Value) (t : TypeDesc) : Prop :=
  v = Value.default t ∨ h.accepts types v t = .ok true

theorem Suits.mono {h h' : Heap} (hg : h.Grows h') {types : Hierarchy} {v : Value} {t : TypeDesc}
    (hv : h.Suits types v t) : h'.Suits types v t := by
  rcases hv with hdefault | haccepted
  · exact Or.inl hdefault
  · exact Or.inr (accepts_mono hg haccepted)

/-- Every slot holds a value that suits a declaration of its name, also where a name is declared
twice. -/
def Declared (ctx : Context) (h : Heap) : Prop :=
  ∀ (o : ObjectId) (cell : ObjectCell) (name : String) (v : Value), h.objects[o]? = some cell →
    Assoc.get? name cell.slots = some v →
    ∃ d ∈ ctx.program.fieldsOf cell.owner, d.2.name = name ∧ h.Suits ctx.types v d.2.type

variable {ctx : Context} {h : Heap}

theorem Declared.setSlot (declared : h.Declared ctx) {id : ObjectId} {cell : ObjectCell}
    {field : String} {decl : NodeId × FieldDecl} {v : Value} (hc : h.object id = .ok cell)
    (hf : (ctx.program.fieldsOf cell.owner).find? (fun f => f.2.name == field) = some decl)
    (ha : h.accepts ctx.types v decl.2.type = .ok true) : (h.setSlot id field v).Declared ctx := by
  have hgrows := (sameShape_setSlot h id field v).grows
  intro o cell' name w hc' hw
  rw [objects_setSlot] at hc'
  obtain ⟨old, hold, rfl⟩ := Option.map_eq_some_iff.mp hc'
  have kept : Assoc.get? name old.slots = some w →
      ∃ d ∈ ctx.program.fieldsOf old.owner, d.2.name = name ∧
        (h.setSlot id field v).Suits ctx.types w d.2.type := by
    intro hw
    obtain ⟨d, hd, hname, hsuits⟩ := declared o old name w hold hw
    exact ⟨d, hd, hname, hsuits.mono hgrows⟩
  by_cases ho : id = o
  · subst ho
    obtain rfl : cell = old := Option.some.inj ((object_eq_ok_iff.mp hc).symm.trans hold)
    simp only [if_true] at hw ⊢
    by_cases hname : name = field
    · subst hname
      rw [Assoc.get?_put_same, Option.some.injEq] at hw
      subst hw
      exact ⟨decl, List.mem_of_find?_eq_some hf, by simpa using List.find?_some hf,
        Or.inr (accepts_mono hgrows ha)⟩
    · rw [Assoc.get?_put_other hname] at hw
      exact kept hw
  · simp only [if_neg ho] at hw ⊢
    exact kept hw

theorem Declared.of_objects_eq (declared : h.Declared ctx) {h' : Heap}
    (hobjects : h'.objects = h.objects) : h'.Declared ctx := by
  have hgrows : h.Grows h' := fun id cell hc => ⟨cell, hobjects ▸ hc, rfl, rfl⟩
  intro o cell name v hc hv
  obtain ⟨d, hd, hname, hsuits⟩ := declared o cell name v (hobjects ▸ hc) hv
  exact ⟨d, hd, hname, hsuits.mono hgrows⟩

theorem Declared.instantiate (declared : h.Declared ctx) (id : NodeId) (decl : ClassDecl) :
    Declared ctx { h with objects := h.objects ++ [ctx.program.newCell id decl] } := by
  have hgrows := h.grows_append [ctx.program.newCell id decl] h.sequences
  intro o cell name v hc hv
  rcases objects_append_cases hc with hold | ⟨_, rfl⟩
  · obtain ⟨d, hd, hname, hsuits⟩ := declared o cell name v hold hv
    exact ⟨d, hd, hname, hsuits.mono hgrows⟩
  · obtain ⟨d, hd, heq⟩ := List.mem_map.mp (Assoc.mem_of_get?_ofPairs hv)
    obtain ⟨rfl, rfl⟩ := Prod.mk.injEq .. ▸ heq
    exact ⟨d, hd, rfl, Or.inl rfl⟩

end Heap

/-- Evaluation keeps to the declarations. -/
def Law.declared (ctx : Context) : Law ctx where
  inv := Heap.Declared ctx
  rel _ _ := True
  good _ _ := True
  fault _ := True
  refl _ := trivial
  trans _ _ := trivial
  stable _ _ := trivial
  null _ := trivial
  bool _ _ := trivial
  ordinary _ _ := trivial
  object _ _ _ := trivial
  sequence _ _ _ := trivial
  slot _ _ _ := trivial
  item _ _ _ := trivial
  store declared _ hc hf ha := ⟨declared.setSlot hc hf ha, trivial⟩
  replace declared _ _ := ⟨declared.of_objects_eq rfl, trivial⟩

theorem Request.after_declared {ctx : Context} {h : Heap} (declared : h.Declared ctx)
    (r : Request) : (r.after ctx h).Declared ctx := by
  rcases r.after_cases ctx h with ⟨id, rfl⟩ | ⟨items, rfl⟩ | heq | ⟨method, receiver, args, heq⟩
  · rcases after_instantiate ctx h id with heq | ⟨decl, _, heq⟩
    · rw [heq]
      exact declared
    · rw [heq]
      exact declared.instantiate id decl
  · exact declared.of_objects_eq rfl
  · rw [heq]
    exact declared
  · rw [heq]
    exact ((Law.holds_invokeWithin (L := .declared ctx) _ h method receiver args declared
      (fun _ _ => trivial) fun _ _ => trivial).outcome).1

theorem heapAfter_declared (ctx : Context) (past : List Request) :
    (heapAfter ctx .empty past).Declared ctx := by
  induction past with
  | nil => exact nofun
  | cons r past ih => exact r.after_declared ih

/-! ### Classes below the sequences -/

namespace Hierarchy

theorem parentsIn_declareIn_of_ne {name other : String} (hne : other ≠ name) (supers : List String)
    (entries : List (String × List String)) :
    parentsIn name (declareIn other supers entries) = parentsIn name entries := by
  induction entries with
  | nil => simp [declareIn, parentsIn, hne]
  | cons e rest ih =>
    obtain ⟨n, known⟩ := e
    by_cases hn : n = other
    · subst hn
      simp [declareIn, parentsIn, hne]
    · simp [declareIn, parentsIn, hn, ih]

/-- A name that no class has is linked as it is at the start. -/
theorem parents_ofProgram {p : Program} {name : String}
    (hnone : ∀ id c, p.class? id = some c → c.name ≠ name) :
    (ofProgram p).parents name = builtin.parents name := by
  have hfold : ∀ (classes : List (NodeId × ClassDecl)) (types : Hierarchy),
      (∀ x ∈ classes, x.2.name ≠ name) →
      (classes.foldl (fun h x => h.declare x.2.name (x.2.supertypes.filterMap TypeDesc.name?))
        types).parents name = types.parents name := by
    intro classes
    induction classes with
    | nil => intro types _; rfl
    | cons x classes ih =>
      intro types hx
      rw [List.foldl_cons, ih _ fun y hy => hx y (List.mem_cons_of_mem _ hy)]
      exact parentsIn_declareIn_of_ne (hx x List.mem_cons_self) _ _
  refine hfold p.classes builtin ?_
  intro x hx
  exact hnone x.1 x.2 (Program.class?_of_mem_classes hx)

/-- At the start only `list` is below another type. -/
theorem parents_builtin {name : String} (hlist : name ≠ TypeDesc.listName) :
    builtin.parents name = [] := by
  have hentries : builtin.entries = [(TypeDesc.sequenceName, []),
      (TypeDesc.listName, [TypeDesc.sequenceName]), (TypeDesc.stringName, [])] := rfl
  simp only [parents, hentries, parentsIn, if_neg (Ne.symm hlist), ite_self]

theorem exists_class_of_isSubtype {p : Program} {name : String}
    (hsub : (ofProgram p).isSubtype name TypeDesc.sequenceName = true)
    (hsequence : name ≠ TypeDesc.sequenceName) (hlist : name ≠ TypeDesc.listName) :
    ∃ id c, p.class? id = some c ∧ c.name = name := by
  by_contra hnone
  have hparents : (ofProgram p).parents name = builtin.parents name := by
    refine parents_ofProgram ?_
    intro id c hc hname
    exact hnone ⟨id, c, hc, hname⟩
  refine parents_ne_nil hsub hsequence ?_
  rw [hparents]
  exact parents_builtin hlist

end Hierarchy

namespace ClassFile

/-- No class of the file is declared below the sequences. -/
def KeepsSequencesApart (file : ClassFile) : Prop :=
  ∀ c ∈ file.classes, file.context.types.isSubtype c.name TypeDesc.sequenceName = false

instance (file : ClassFile) : Decidable file.KeepsSequencesApart :=
  inferInstanceAs (Decidable (∀ c ∈ file.classes, _ = false))

theorem exists_mem_of_class? {file : ClassFile} {id : NodeId} {d : ClassDecl}
    (hd : file.toProgram.class? id = some d) : ∃ c ∈ file.classes, c.name = d.name := by
  obtain ⟨c, hc⟩ := exists_placed hd
  have hdecl := (places hc).decl
  rw [hd, Option.some.injEq] at hdecl
  refine ⟨c, (List.of_mem_zip hc).2, ?_⟩
  rw [hdecl]
  rfl

namespace KeepsSequencesApart

variable {file : ClassFile} (apart : file.KeepsSequencesApart)
include apart

/-- Then no other name is below the sequences but `list`. -/
theorem isSubtype_eq_false {name : String} (hsequence : name ≠ TypeDesc.sequenceName)
    (hlist : name ≠ TypeDesc.listName) :
    file.context.types.isSubtype name TypeDesc.sequenceName = false := by
  by_contra hsub
  rw [Bool.not_eq_false] at hsub
  have htypes := file.context_served.types.isSubtype name TypeDesc.sequenceName
  rw [file.types_eq, hsub] at htypes
  obtain ⟨id, d, hd, rfl⟩ := Hierarchy.exists_class_of_isSubtype htypes.symm hsequence hlist
  obtain ⟨c, hc, hname⟩ := exists_mem_of_class? hd
  have hfalse := apart c hc
  rw [hname, hsub] at hfalse
  cases hfalse

/-- Objects are of classes of the file, or accessor types. -/
theorem isSubtype_class {id : NodeId} {d : ClassDecl}
    (hd : file.context.program.class? id = some d) :
    file.context.types.isSubtype d.name TypeDesc.sequenceName = false := by
  have hosting := Batch.hosting_run file.toProgram
  rcases Nat.lt_or_ge id file.toProgram.size with hlt | hge
  · obtain ⟨n, hn⟩ := Program.node?_of_lt hlt
    obtain ⟨n', hn', hx⟩ := hosting.grown.node? hn
    obtain rfl : n' = .cls d := Option.some.inj (hn'.symm.trans (Program.class?_eq_some_iff.mp hd))
    cases hx with
    | cls hx =>
      obtain ⟨c, hc, hname⟩ := exists_mem_of_class? (Program.class?_eq_some_iff.mpr hn)
      rw [hx.name, ← hname]
      exact apart c hc
  · cases hosting.new id _ hge (Program.class?_eq_some_iff.mp hd) with
    | cls name _ _ =>
      rw [name]
      exact apart.isSubtype_eq_false (by decide) (by decide)

/-- Then nothing but a sequence passes as one. -/
theorem not_passesAsSequence {h : Heap} (typed : h.Typed file.context) (v : Value) :
    ¬ h.PassesAsSequence file.context.types v := by
  rintro (⟨o, cell, rfl, hc, hsub⟩ | ⟨s, rfl, hsub⟩)
  · obtain ⟨d, hd, hname⟩ := (typed o cell hc).1.named
    rw [hname, apart.isSubtype_class hd] at hsub
    cases hsub
  · rw [apart.isSubtype_eq_false (by decide) (by decide)] at hsub
    cases hsub

end KeepsSequencesApart

end ClassFile

/-! ### Sequence fields -/

/-- A class whose fields of a name are all sequences. -/
def Program.DeclaresSequence (ctx : Context) (id : NodeId) (name : String) : Prop :=
  ∀ d ∈ ctx.program.fieldsOf id, d.2.name = name → ctx.types.isSequence d.2.type = true

theorem Heap.Declared.sequence_cases {ctx : Context} {h : Heap} (declared : h.Declared ctx)
    {o : ObjectId} {cell : ObjectCell} (hc : h.objects[o]? = some cell) {name : String}
    (sequences : Program.DeclaresSequence ctx cell.owner name) {v : Value}
    (hv : h.slot? o name = some v) : v.SeqOrNull ∨ h.PassesAsSequence ctx.types v := by
  rw [Heap.slot?_eq hc] at hv
  obtain ⟨d, hd, hname, hsuits⟩ := declared o cell name v hc hv
  have hsequence := sequences d hd hname
  rcases hsuits with rfl | haccepted
  · obtain ⟨_, _, htype, _⟩ := Hierarchy.isSequence_iff.mp hsequence
    rw [htype]
    exact Or.inl (Or.inl rfl)
  · exact Heap.accepts_sequence_cases hsequence haccepted

/-- A name that a catalog has for a sequence is declared for nothing else. -/
theorem declaresSequence_of_catalog {ctx : Context} {id : NodeId} {fields : List FieldDesc}
    (catalogued : catalog ctx.program ctx.types id = .ok fields) {f : FieldDesc} (hf : f ∈ fields)
    (hseq : f.type.isSequence = true) :
    f.name ∈ ctx.program.fieldNames id ∧ Program.DeclaresSequence ctx id f.name := by
  obtain ⟨_, described, named⟩ := catalog_ok catalogued
  have hnodup : (ctx.program.fieldNames id).Nodup := by
    rw [Program.fieldNames, ← Catalog.map_name described]
    exact named.names_nodup
  obtain ⟨entry, hentry, hd⟩ := Catalog.exists_entry described hf
  have hsequence : ctx.types.isSequence entry.2.type = true := by
    rw [hd.type, FieldType.classify] at hseq
    split at hseq
    · next ht => exact ht
    · cases hseq
  refine ⟨List.mem_map.mpr ⟨entry, hentry, hd.name.symm⟩, ?_⟩
  intro d hmem hname
  obtain rfl := List.inj_on_of_nodup_map hnodup hmem hentry (hname.trans hd.name)
  exact hsequence

/-- The slot of a field is there in every object of its class. -/
theorem Heap.Typed.exists_slot {ctx : Context} {h : Heap} (typed : h.Typed ctx) {o : ObjectId}
    {cell : ObjectCell} (hc : h.objects[o]? = some cell) {name : String}
    (hname : name ∈ ctx.program.fieldNames cell.owner) : ∃ v, h.slot? o name = some v := by
  have hkeys := (typed o cell hc).1.slots
  cases hv : Assoc.get? name cell.slots with
  | some v => exact ⟨v, (Heap.slot?_eq hc name).trans hv⟩
  | none =>
    have hnot := Assoc.get?_eq_none_iff.mp hv
    rw [hkeys, List.mem_eraseDups] at hnot
    exact absurd hname hnot

/-- A failed write of a field did not take something else for a sequence, if its slot and the value
could only be null or a sequence. -/
theorem ClassFile.Hosts.write_ne_notASequence {file : ClassFile} {a : Accessor} {c : ClassDef}
    {fields : List FieldDesc} (hosts : file.Hosts a c fields) {f : FieldDesc} (hf : f ∈ fields)
    {t : TypeDesc} {i v : Value} {h h' : Heap}
    (ht : f.type.isSequence = true → h.accepts file.context.types v t =
      h.accepts file.context.types v f.type.declared)
    (hslot : ∀ o w, i = .object o → h.slot? o f.name = some w → w.SeqOrNull)
    (hvalue : f.type.isSequence = true → h.accepts file.context.types v f.type.declared = .ok true →
      v.SeqOrNull) {e : EvalError}
    (hrun : (f.write file.context c.name t i v).run h = .error e h') (found : String) :
    e ≠ .notASequence found := by
  rcases hosts.write_failed hf ht hrun
    with ⟨_, haccess | ⟨o, w, hi, hw, hkind⟩⟩ | ⟨k, drains, _, hkind⟩
  · exact haccess.ne_notASequence found
  · exact hkind (hslot o w hi hw) found
  · exact hkind (hvalue drains.sequence (Heap.coerce_ok_iff.mp drains.value)) found

/-- In every heap that requests can lead to, the slot of a sequence field holds null, a sequence, or
what passes as one by subtyping. Where no class is declared below the sequences it holds null or a
sequence, and no write of the field, to any instance whose class declares its name for sequences
only, fails because something else was met in place of a sequence. -/
theorem sequence_slots_hold_sequences (file : ClassFile) (past : List Request) {host : NodeId}
    {fields : List FieldDesc}
    (catalogued : catalog file.context.program file.context.types host = .ok fields) {f : FieldDesc}
    (hf : f ∈ fields) {t : TypeDesc} (sequence : f.type = .sequence t) :
    (∀ (o : ObjectId) (cell : ObjectCell),
      (heapAfter file.context .empty past).objects[o]? = some cell → cell.owner = host →
      ∃ v, (heapAfter file.context .empty past).slot? o f.name = some v ∧
        (v.SeqOrNull ∨ (heapAfter file.context .empty past).PassesAsSequence file.context.types v) ∧
        (file.KeepsSequencesApart → v.SeqOrNull)) ∧
    (file.KeepsSequencesApart → ∀ a : Accessor, Accessor.locate file.context.program host = .ok a →
      ∀ instance_ v : Value,
      (∀ (o : ObjectId) (cell : ObjectCell), instance_ = .object o →
        (heapAfter file.context .empty past).objects[o]? = some cell →
        Program.DeclaresSequence file.context cell.owner f.name) →
      ∀ (e : EvalError) (h' : Heap),
        (a.set file.context instance_ f.name v).run (heapAfter file.context .empty past) =
          .error e h' ∨
        (a.setTyped file.context instance_ f.name v).run (heapAfter file.context .empty past) =
          .error e h' →
        ∀ found, e ≠ .notASequence found) := by
  have typed := heapAfter_typed (Heap.typed_empty file.context) past
  have declared := heapAfter_declared file.context past
  generalize heapAfter file.context .empty past = h at typed declared
  have hseq : f.type.isSequence = true := by rw [sequence]; rfl
  obtain ⟨hname, hdeclares⟩ := declaresSequence_of_catalog catalogued hf hseq
  constructor
  · rintro o cell hc rfl
    obtain ⟨v, hv⟩ := typed.exists_slot hc hname
    have hcases := declared.sequence_cases hc hdeclares hv
    refine ⟨v, hv, hcases, ?_⟩
    intro apart
    exact hcases.resolve_right (apart.not_passesAsSequence typed v)
  · intro apart a located instance_ v hinstance e h' failed found
    obtain ⟨rfl, c, fields', hosts⟩ := ClassFile.exists_hosts located
    obtain rfl : fields' = fields := Except.ok.inj (hosts.catalogued.symm.trans catalogued)
    have hslot : ∀ o w, instance_ = .object o → h.slot? o f.name = some w → w.SeqOrNull := by
      intro o w hi hw
      obtain ⟨cell, hc, _⟩ := Option.bind_eq_some_iff.mp hw
      exact (declared.sequence_cases hc (hinstance o cell hi hc) hw).resolve_right
        (apart.not_passesAsSequence typed w)
    have hvalue : f.type.isSequence = true →
        h.accepts file.context.types v f.type.declared = .ok true → v.SeqOrNull := by
      intro _ haccepted
      exact (Heap.accepts_sequence_cases (hosts.isSequence_declared hf hseq)
        haccepted).resolve_right (apart.not_passesAsSequence typed v)
    rw [hosts.set_eq hf, hosts.setTyped_eq hf] at failed
    rcases failed with hrun | hrun
    · exact hosts.write_ne_notASequence hf
        (fun hs => FieldDesc.accepts_castType_of_sequence hs h file.context.types v) hslot
          hvalue hrun found
    · exact hosts.write_ne_notASequence hf (fun _ => rfl) hslot hvalue hrun found

/-- A person whose tags got a sequence, after a refused write of a number. -/
theorem person_tags_slot :
    let past : List Request :=
      [.set 0 (.object 0) "tags" (.seq 0), .set 0 (.object 0) "tags" (.int32 3),
        .sequence [.int32 1], .instantiate 0]
    personFile.KeepsSequencesApart ∧
      (∃ v, (heapAfter personFile.context .empty past).slot? 0 "tags" = some v ∧ v.SeqOrNull) ∧
      ∀ (v : Value) (e : EvalError) (h' : Heap),
        ((⟨0, 7⟩ : Accessor).set personFile.context (.object 0) "tags" v).run
          (heapAfter personFile.context .empty past) = .error e h' →
        ∀ found, e ≠ .notASequence found := by
  intro past
  have apart : personFile.KeepsSequencesApart := by decide
  have hf :
    (⟨"tags", "Tags", .sequence (.named TypeDesc.listName [.string]), 4, 5, 6⟩ : FieldDesc) ∈
      personFields := List.mem_cons_of_mem _ List.mem_cons_self
  have catalogued : catalog personFile.context.program personFile.context.types 0 =
    .ok personFields := rfl
  obtain ⟨slots, writes⟩ := sequence_slots_hold_sequences personFile past catalogued hf rfl
  refine ⟨apart, ?_, ?_⟩
  · obtain ⟨v, hv, _, hkind⟩ := slots 0 _ rfl rfl
    exact ⟨v, hv, hkind apart⟩
  · intro v e h' hrun
    refine writes apart ⟨0, 7⟩ rfl (.object 0) v ?_ e h' (Or.inl hrun)
    rintro o cell ⟨⟩ hc
    obtain rfl : (⟨0, "Person", [("age", .int64 0), ("tags", .seq 0)]⟩ : ObjectCell) = cell :=
      Option.some.inj hc
    exact (declaresSequence_of_catalog catalogued hf rfl).2

/-- An object of a class below the sequences gets into the slot, and the next write fails for it. -/
theorem note_tags_hold_object :
    let past : List Request :=
      [.set 1 (.object 0) "tags" (.object 1), .sequence [], .instantiate 0, .instantiate 1]
    (heapAfter (noteFile "Bag").context .empty past).slot? 0 "tags" = some (.object 1) ∧
      ((⟨1, 5⟩ : Accessor).set (noteFile "Bag").context (.object 0) "tags" (.seq 0)).run
          (heapAfter (noteFile "Bag").context .empty past) =
        .error (.notASequence "object") (heapAfter (noteFile "Bag").context .empty past) := by
  intro past
  constructor
  · rfl
  · rfl

/-- A class below another one that declares the same name for a string. -/
def redeclaredFile : ClassFile :=
  ⟨[{ name := "Note"
      annotations := ["Entity"]
      fields := [{ name := "tags", type := .named TypeDesc.listName [] }] },
    { name := "Label"
      supertypes := [.ofName "Note"]
      fields := [{ name := "tags", type := .string }] }]⟩

/-- Its objects pass as instances of the other, and their strings are met in place of a sequence. -/
example :
    let past : List Request :=
      [.invoke 7 (some (.object 0)) [.str "x"], .sequence [], .instantiate 4]
    redeclaredFile.KeepsSequencesApart ∧
      ((⟨0, 8⟩ : Accessor).set redeclaredFile.context (.object 0) "tags" (.seq 0)).run
          (heapAfter redeclaredFile.context .empty past) =
        .error (.notASequence "string") (heapAfter redeclaredFile.context .empty past) :=
  ⟨by decide, rfl⟩

end FieldAccess
