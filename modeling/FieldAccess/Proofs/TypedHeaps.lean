import FieldAccess.ClassFile.Basic
import FieldAccess.Proofs.Laws
import FieldAccess.Proofs.Sessions
import Mathlib.Data.List.Nodup

/-! Objects stay what they were made: their class, its name and the names of their slots never
change, and a slot holds only what the type of its field takes. Two laws of evaluation carry this
through every method body; requests that allocate are looked at here. -/
namespace FieldAccess

namespace Heap

/-- Every object is still there, with its class. -/
def Grows (h h' : Heap) : Prop :=
  ∀ (id : ObjectId) (cell : ObjectCell), h.objects[id]? = some cell →
    ∃ cell' : ObjectCell, h'.objects[id]? = some cell' ∧ cell'.owner = cell.owner ∧
      cell'.className = cell.className

theorem Grows.refl (h : Heap) : h.Grows h := fun _ cell hc => ⟨cell, hc, rfl, rfl⟩

theorem Grows.trans {a b c : Heap} (hab : a.Grows b) (hbc : b.Grows c) : a.Grows c := by
  intro id cell hc
  obtain ⟨cell', hc', ho, hn⟩ := hab id cell hc
  obtain ⟨cell'', hc'', ho', hn'⟩ := hbc id cell' hc'
  exact ⟨cell'', hc'', ho'.trans ho, hn'.trans hn⟩

/-- Nothing is allocated, and no object changes its class. -/
structure SameShape (h h' : Heap) : Prop where
  objects : h'.objects.length = h.objects.length
  sequences : h'.sequences.length = h.sequences.length
  grows : h.Grows h'

theorem SameShape.refl (h : Heap) : h.SameShape h := ⟨rfl, rfl, .refl h⟩

theorem SameShape.trans {a b c : Heap} (hab : a.SameShape b) (hbc : b.SameShape c) :
    a.SameShape c :=
  ⟨hbc.objects.trans hab.objects, hbc.sequences.trans hab.sequences, hab.grows.trans hbc.grows⟩

theorem object_eq_ok_iff {h : Heap} {id : ObjectId} {cell : ObjectCell} :
    h.object id = .ok cell ↔ h.objects[id]? = some cell := by
  unfold object
  cases h.objects[id]? <;> simp

theorem sequence_eq_ok_iff {h : Heap} {id : SeqId} {items : List Value} :
    h.sequence id = .ok items ↔ h.sequences[id]? = some items := by
  unfold sequence
  cases h.sequences[id]? <;> simp

theorem objects_setSlot (h : Heap) (id : ObjectId) (field : String) (v : Value) (o : ObjectId) :
    (h.setSlot id field v).objects[o]? =
      (h.objects[o]?).map fun cell =>
        if id = o then { cell with slots := Assoc.put field v cell.slots } else cell := by
  simp only [setSlot, List.getElem?_modify]
  rfl

theorem sameShape_setSlot (h : Heap) (id : ObjectId) (field : String) (v : Value) :
    h.SameShape (h.setSlot id field v) := by
  refine ⟨by simp [setSlot], rfl, ?_⟩
  intro o cell hc
  refine ⟨_, by rw [objects_setSlot, hc]; rfl, ?_⟩
  split <;> exact ⟨rfl, rfl⟩

theorem sameShape_setSequence (h : Heap) (id : SeqId) (items : List Value) :
    h.SameShape (h.setSequence id items) :=
  ⟨rfl, by simp [setSequence], fun _ cell hc => ⟨cell, hc, rfl, rfl⟩⟩

/-- What a type takes it goes on taking: the class of an object does not change. -/
theorem accepts_mono {h h' : Heap} (hg : h.Grows h') {types : Hierarchy} {v : Value} {t : TypeDesc}
    (ha : h.accepts types v t = .ok true) : h'.accepts types v t = .ok true := by
  cases t with
  | void | any | primitive p | boxed p => exact ha
  | named name args =>
    cases v with
    | object id =>
      cases hc : h.object id with
      | error e => simp [accepts, hc, bind, Except.bind] at ha
      | ok cell =>
        obtain ⟨cell', hc', _, hn⟩ := hg id cell (object_eq_ok_iff.mp hc)
        simp only [accepts, hc, object_eq_ok_iff.mpr hc', bind, Except.bind, hn] at ha ⊢
        exact ha
    | _ => exact ha

end Heap

/-- Evaluation allocates nothing and changes no class, from any heap. -/
def Law.shape (ctx : Context) : Law ctx where
  inv _ := True
  rel := Heap.SameShape
  good _ _ := True
  fault _ := True
  refl := .refl
  trans := .trans
  stable _ _ := trivial
  null _ := trivial
  bool _ _ := trivial
  ordinary _ _ := trivial
  object _ _ _ := trivial
  sequence _ _ _ := trivial
  slot _ _ _ := trivial
  item _ _ _ := trivial
  store _ _ _ _ _ := ⟨trivial, Heap.sameShape_setSlot _ _ _ _⟩
  replace _ _ _ := ⟨trivial, Heap.sameShape_setSequence _ _ _⟩

theorem Law.Keeps.outcome {ctx : Context} {L : Law ctx} {α : Type} {h : Heap} {x : Action α}
    {post : α → Heap → Prop} (hx : L.Keeps h x post) :
    L.inv (x.outcome h).2 ∧ L.rel h (x.outcome h).2 := by
  unfold Law.Keeps at hx
  unfold Action.outcome
  cases hr : x.run h with
  | ok a h' => rw [hr] at hx; exact ⟨hx.1, hx.2.1⟩
  | error e h' => rw [hr] at hx; exact ⟨hx.1, hx.2.1⟩

theorem invokeAt_sameShape (ctx : Context) (depth : Nat) (h : Heap) (method : NodeId)
    (receiver : Option Value) (args : List Value) :
    h.SameShape ((Action.invokeAt ctx depth method receiver args).outcome h).2 :=
  ((Law.holds_invokeWithin (L := .shape ctx) _ h method receiver args trivial
    (fun _ _ => trivial) fun _ _ => trivial).outcome).2

/-! ### Slots -/

def Program.fieldNames (p : Program) (id : NodeId) : List String :=
  (p.fieldsOf id).map fun f => f.2.name

/-- Each name is declared once, with a type that has values. -/
structure Program.Plain (p : Program) (id : NodeId) : Prop where
  distinct : (p.fieldNames id).Nodup
  inhabited : ∀ f ∈ p.fieldsOf id, f.2.type ≠ .void

/-- An object has the name of its class and a slot for each of its fields. -/
structure ObjectCell.Fits (p : Program) (cell : ObjectCell) : Prop where
  named : ∃ c, p.class? cell.owner = some c ∧ cell.className = c.name
  slots : Assoc.keys cell.slots = (p.fieldNames cell.owner).eraseDups

/-- Each slot holds a value that its field takes. -/
def Heap.SlotsTyped (ctx : Context) (h : Heap) (cell : ObjectCell) : Prop :=
  ctx.program.Plain cell.owner → ∀ f ∈ ctx.program.fieldsOf cell.owner,
    ∃ v, Assoc.get? f.2.name cell.slots = some v ∧ h.accepts ctx.types v f.2.type = .ok true

def Heap.Typed (ctx : Context) (h : Heap) : Prop :=
  ∀ (o : ObjectId) (cell : ObjectCell), h.objects[o]? = some cell →
    cell.Fits ctx.program ∧ h.SlotsTyped ctx cell

theorem Heap.SlotsTyped.mono {ctx : Context} {h h' : Heap} (hg : h.Grows h') {cell : ObjectCell}
    (ht : h.SlotsTyped ctx cell) : h'.SlotsTyped ctx cell := by
  intro plain f hf
  obtain ⟨v, hv, ha⟩ := ht plain f hf
  exact ⟨v, hv, accepts_mono hg ha⟩

/-- A field with a name that is declared once is the one that is found by it. -/
theorem Program.Plain.find?_eq {p : Program} {id : NodeId} (plain : p.Plain id)
    {f g : NodeId × FieldDecl} (hf : f ∈ p.fieldsOf id)
    (hg : (p.fieldsOf id).find? (fun x => x.2.name == f.2.name) = some g) : g = f := by
  have hname : g.2.name = f.2.name := by simpa using List.find?_some hg
  exact List.inj_on_of_nodup_map plain.distinct (List.mem_of_find?_eq_some hg) hf hname

theorem Heap.Typed.setSlot {ctx : Context} {h : Heap} (ht : h.Typed ctx) {id : ObjectId}
    {cell : ObjectCell} {field : String} {decl : NodeId × FieldDecl} {v : Value}
    (hc : h.object id = .ok cell)
    (hf : (ctx.program.fieldsOf cell.owner).find? (fun f => f.2.name == field) = some decl)
    (ha : h.accepts ctx.types v decl.2.type = .ok true) : (h.setSlot id field v).Typed ctx := by
  have hgrows := (sameShape_setSlot h id field v).grows
  intro o cell' hc'
  rw [objects_setSlot] at hc'
  obtain ⟨old, hold, rfl⟩ := Option.map_eq_some_iff.mp hc'
  have hfit := ht o old hold
  by_cases ho : id = o
  · subst ho
    rw [object_eq_ok_iff.mp hc, Option.some.injEq] at hold
    subst hold
    simp only [if_true]
    have hdecl : decl.2.name = field := by simpa using List.find?_some hf
    have hmem : field ∈ Assoc.keys cell.slots := by
      rw [hfit.1.slots, List.mem_eraseDups]
      exact List.mem_map.mpr ⟨decl, List.mem_of_find?_eq_some hf, hdecl⟩
    refine ⟨⟨hfit.1.named, (Assoc.keys_put_of_mem hmem v).trans hfit.1.slots⟩, ?_⟩
    intro plain f hfmem
    by_cases hname : f.2.name = field
    · subst hname
      refine ⟨v, Assoc.get?_put_same _ _ _, accepts_mono hgrows ?_⟩
      rw [← plain.find?_eq hfmem hf]
      exact ha
    · obtain ⟨w, hw, haw⟩ := hfit.2 plain f hfmem
      exact ⟨w, by rw [Assoc.get?_put_other hname]; exact hw, accepts_mono hgrows haw⟩
  · simp only [if_neg ho]
    exact ⟨hfit.1, hfit.2.mono hgrows⟩

/-- Evaluation keeps every slot within its type. -/
def Law.typed (ctx : Context) : Law ctx where
  inv := Heap.Typed ctx
  rel _ _ := True
  good _ _ := True
  fault _ := True
  refl _ := trivial
  trans _ _ := trivial
  stable _ _ := trivial
  null _ := trivial
  bool _ _ := trivial
  ordinary _ _ := trivial
  object _ _ _ := trivial
  sequence _ _ _ := trivial
  slot _ _ _ := trivial
  item _ _ _ := trivial
  store ht _ hc hf ha := ⟨ht.setSlot hc hf ha, trivial⟩
  replace ht _ _ :=
    ⟨fun o cell hc => ⟨(ht o cell hc).1,
      (ht o cell hc).2.mono (Heap.sameShape_setSequence _ _ _).grows⟩, trivial⟩

theorem invoke_typed {ctx : Context} {h : Heap} (ht : h.Typed ctx) (method : NodeId)
    (receiver : Option Value) (args : List Value) :
    ((Action.invoke ctx method receiver args).outcome h).2.Typed ctx :=
  ((Law.holds_invokeWithin (L := .typed ctx) _ h method receiver args ht
    (fun _ _ => trivial) fun _ _ => trivial).outcome).1

/-! ### Allocation -/

/-- The cell of a new object. -/
def Program.newCell (p : Program) (id : NodeId) (decl : ClassDecl) : ObjectCell :=
  ⟨id, decl.name, Assoc.ofPairs ((p.fieldsOf id).map fun f => (f.2.name, Value.default f.2.type))⟩

theorem instantiate_run {ctx : Context} {id : NodeId} {decl : ClassDecl}
    (hc : ctx.program.class? id = some decl) (h : Heap) :
    (Action.instantiate ctx id).run h =
      .ok (.object h.objects.length)
        { h with objects := h.objects ++ [ctx.program.newCell id decl] } := by
  simp only [Action.instantiate, hc]
  rfl

theorem instantiate_run_none {ctx : Context} {id : NodeId} (hc : ctx.program.class? id = none)
    (h : Heap) : (Action.instantiate ctx id).run h = .error (.notAClass id) h := by
  simp only [Action.instantiate, hc]
  rfl

theorem Heap.accepts_default (h : Heap) (types : Hierarchy) {t : TypeDesc} (ht : t ≠ .void) :
    h.accepts types (Value.default t) t = .ok true := by
  cases t with
  | void => exact absurd rfl ht
  | any | boxed _ | named _ _ => rfl
  | primitive p => cases p <;> rfl

theorem Program.newCell_fits {p : Program} {id : NodeId} {decl : ClassDecl}
    (hc : p.class? id = some decl) : (p.newCell id decl).Fits p := by
  refine ⟨⟨decl, hc, rfl⟩, ?_⟩
  rw [Program.newCell, Assoc.keys_ofPairs, List.map_map]
  rfl

/-- The slot of a field that is declared once starts at the first value of its type. -/
theorem Program.get?_newCell {p : Program} {id : NodeId} {decl : ClassDecl}
    (distinct : (p.fieldNames id).Nodup) {f : NodeId × FieldDecl} (hf : f ∈ p.fieldsOf id) :
    Assoc.get? f.2.name (p.newCell id decl).slots = some (Value.default f.2.type) := by
  have hkeys :
      (Assoc.keys ((p.fieldsOf id).map fun f => (f.2.name, Value.default f.2.type))).Nodup := by
    rw [Assoc.keys, List.map_map]
    exact distinct
  rw [Program.newCell, Assoc.ofPairs_of_nodup hkeys]
  exact Assoc.get?_of_mem hkeys (List.mem_map.mpr ⟨f, hf, rfl⟩)

theorem Heap.grows_append (h : Heap) (cells : List ObjectCell) (sequences : List (List Value)) :
    h.Grows ⟨h.objects ++ cells, sequences⟩ := by
  intro o cell hc
  refine ⟨cell, ?_, rfl, rfl⟩
  rw [List.getElem?_append_left (List.getElem?_eq_some_iff.mp hc).1]
  exact hc

theorem Heap.objects_append_cases {h : Heap} {new cell : ObjectCell} {o : ObjectId}
    (hc : (h.objects ++ [new])[o]? = some cell) :
    h.objects[o]? = some cell ∨ (h.objects[o]? = none ∧ cell = new) := by
  rcases Nat.lt_or_ge o h.objects.length with hlt | hge
  · rw [List.getElem?_append_left hlt] at hc
    exact Or.inl hc
  · rw [List.getElem?_append_right hge] at hc
    exact Or.inr ⟨List.getElem?_eq_none_iff.mpr hge,
      List.mem_singleton.mp (List.mem_of_getElem? hc)⟩

theorem Heap.Typed.instantiate {ctx : Context} {h : Heap} (ht : h.Typed ctx) {id : NodeId}
    {decl : ClassDecl} (hc : ctx.program.class? id = some decl) :
    Heap.Typed ctx { h with objects := h.objects ++ [ctx.program.newCell id decl] } := by
  have hgrows := h.grows_append [ctx.program.newCell id decl] h.sequences
  intro o cell ho
  rcases objects_append_cases ho with hold | ⟨_, rfl⟩
  · exact ⟨(ht o cell hold).1, (ht o cell hold).2.mono hgrows⟩
  · refine ⟨Program.newCell_fits hc, ?_⟩
    intro plain f hf
    exact ⟨_, Program.get?_newCell plain.distinct hf, accepts_default _ _ (plain.inhabited f hf)⟩

/-! ### Runs -/

namespace Request

variable {ctx : Context} {h : Heap}

theorem after_instantiate (ctx : Context) (h : Heap) (id : NodeId) :
    (Request.instantiate id).after ctx h = h ∨ ∃ decl, ctx.program.class? id = some decl ∧
      (Request.instantiate id).after ctx h =
        { h with objects := h.objects ++ [ctx.program.newCell id decl] } := by
  rw [after, perform]
  cases hc : ctx.program.class? id with
  | none => exact Or.inl (by rw [Action.outcome_of_error (instantiate_run_none hc h)])
  | some decl => exact Or.inr ⟨decl, rfl, by rw [Action.outcome_of_ok (instantiate_run hc h)]⟩

/-- No request takes an object away or changes its class. -/
theorem after_grows (r : Request) : h.Grows (r.after ctx h) := by
  rcases r.after_cases ctx h with ⟨id, rfl⟩ | ⟨items, rfl⟩ | heq | ⟨method, receiver, args, heq⟩
  · rcases after_instantiate ctx h id with heq | ⟨decl, _, heq⟩
    · rw [heq]
      exact .refl h
    · rw [heq]
      exact h.grows_append [ctx.program.newCell id decl] h.sequences
  · exact fun _ cell hc => ⟨cell, hc, rfl, rfl⟩
  · rw [heq]
    exact .refl h
  · rw [heq]
    exact (invokeAt_sameShape ctx 0 h method receiver args).grows

/-- One request keeps every slot within its type. -/
theorem after_typed (ht : h.Typed ctx) (r : Request) : (r.after ctx h).Typed ctx := by
  rcases r.after_cases ctx h with ⟨id, rfl⟩ | ⟨items, rfl⟩ | heq | ⟨method, receiver, args, heq⟩
  · rcases after_instantiate ctx h id with heq | ⟨decl, hc, heq⟩
    · rw [heq]
      exact ht
    · rw [heq]
      exact ht.instantiate hc
  · have hgrows : h.Grows ((Request.sequence items).after ctx h) := after_grows _
    exact fun o cell hc => ⟨(ht o cell hc).1, (ht o cell hc).2.mono hgrows⟩
  · rw [heq]
    exact ht
  · rw [heq]
    exact invoke_typed ht method receiver args

end Request

theorem heapAfter_grows (ctx : Context) (start : Heap) (past : List Request) :
    start.Grows (heapAfter ctx start past) := by
  induction past with
  | nil => exact .refl start
  | cons r past ih => exact ih.trans r.after_grows

theorem heapAfter_typed {ctx : Context} {start : Heap} (ht : start.Typed ctx)
    (past : List Request) : (heapAfter ctx start past).Typed ctx := by
  induction past with
  | nil => exact ht
  | cons r past ih => exact r.after_typed ih

theorem Heap.typed_empty (ctx : Context) : Heap.empty.Typed ctx := nofun

/-- In every heap that requests can lead to, whether they fail or not, whatever the bodies of the
methods do: an object has the class and the name it was made with, for ever; its slots are the
declared names, each once and in order of first declaration; where no name is declared twice and no
type is `void`, each slot passes the conversion to its type. A call of a method allocates
nothing. -/
theorem objects_keep_class_and_typed_slots (ctx : Context) (past : List Request) :
    (∀ (id : NodeId) (decl : ClassDecl), ctx.program.class? id = some decl →
      (Action.instantiate ctx id).run (heapAfter ctx .empty past) =
        .ok (.object (heapAfter ctx .empty past).objects.length)
          (heapAfter ctx .empty (.instantiate id :: past)) ∧
      ∀ later : List Request, ∃ cell : ObjectCell,
        (heapAfter ctx .empty (later ++ .instantiate id :: past)).objects[
          (heapAfter ctx .empty past).objects.length]? = some cell ∧
        cell.owner = id ∧ cell.className = decl.name) ∧
    (∀ (o : ObjectId) (cell : ObjectCell), (heapAfter ctx .empty past).objects[o]? = some cell →
      (∀ later : List Request, ∃ cell' : ObjectCell,
        (heapAfter ctx .empty (later ++ past)).objects[o]? = some cell' ∧
        cell'.owner = cell.owner ∧ cell'.className = cell.className) ∧
      (∃ decl, ctx.program.class? cell.owner = some decl ∧ cell.className = decl.name) ∧
      Assoc.keys cell.slots = ((ctx.program.fieldsOf cell.owner).map fun f => f.2.name).eraseDups ∧
      (((ctx.program.fieldsOf cell.owner).map fun f => f.2.name).Nodup →
        (∀ f ∈ ctx.program.fieldsOf cell.owner, f.2.type ≠ .void) →
        ∀ f ∈ ctx.program.fieldsOf cell.owner, ∃ v,
          Assoc.get? f.2.name cell.slots = some v ∧
          (heapAfter ctx .empty past).coerce ctx.types v f.2.type = .ok v)) ∧
    ∀ (method : NodeId) (receiver : Option Value) (args : List Value),
      (heapAfter ctx .empty (.invoke method receiver args :: past)).objects.length =
        (heapAfter ctx .empty past).objects.length ∧
      (heapAfter ctx .empty (.invoke method receiver args :: past)).sequences.length =
        (heapAfter ctx .empty past).sequences.length := by
  have htyped := heapAfter_typed (Heap.typed_empty ctx) past
  generalize hh : heapAfter ctx .empty past = h at htyped
  have hgrows : ∀ later, h.Grows (heapAfter ctx .empty (later ++ past)) := by
    intro later
    rw [heapAfter_append, hh]
    exact heapAfter_grows ctx h later
  refine ⟨?_, ?_, ?_⟩
  · intro id decl hc
    have hrun := instantiate_run hc h
    have hmade : heapAfter ctx .empty (.instantiate id :: past) =
        { h with objects := h.objects ++ [ctx.program.newCell id decl] } := by
      rw [heapAfter, hh, Request.after, Request.perform, Action.outcome_of_ok hrun]
    rw [hmade]
    refine ⟨hrun, ?_⟩
    intro later
    rw [heapAfter_append, hmade]
    exact heapAfter_grows ctx _ later h.objects.length (ctx.program.newCell id decl)
      List.getElem?_concat_length
  · intro o cell ho
    obtain ⟨⟨hnamed, hslots⟩, htypes⟩ := htyped o cell ho
    refine ⟨fun later => hgrows later o cell ho, hnamed, hslots, ?_⟩
    intro distinct inhabited f hf
    obtain ⟨v, hv, haccepts⟩ := htypes ⟨distinct, inhabited⟩ f hf
    exact ⟨v, hv, Heap.coerce_ok_iff.mpr haccepts⟩
  · intro method receiver args
    have hshape := invokeAt_sameShape ctx 0 h method receiver args
    rw [heapAfter, hh]
    exact ⟨hshape.objects, hshape.sequences⟩

def chainFile : ClassFile :=
  ⟨[{ name := "Link"
      fields :=
        [{ name := "next", type := .ofName "Link" },
          { name := "size", type := .primitive .int32 }] }]⟩

/-- Two links, the first before the second, after a refused write of null to a number. -/
theorem chain_next_typed :
    let ctx := Context.ofProgram chainFile.toProgram
    let past : List Request :=
      [.invoke 6 (some (.object 0)) [.null], .invoke 3 (some (.object 0)) [.object 1],
        .instantiate 0, .instantiate 0]
    let cell : ObjectCell := ⟨0, "Link", [("next", .object 1), ("size", .int32 0)]⟩
    (heapAfter ctx .empty past).objects[0]? = some cell ∧
      ∃ v, Assoc.get? "next" cell.slots = some v ∧
        (heapAfter ctx .empty past).coerce ctx.types v (.ofName "Link") = .ok v :=
  ⟨rfl, ((objects_keep_class_and_typed_slots _ _).2.1 0
    ⟨0, "Link", [("next", .object 1), ("size", .int32 0)]⟩ rfl).2.2.2 (by decide) (by decide)
    (1, ⟨"next", .ofName "Link", []⟩) List.mem_cons_self⟩

end FieldAccess
