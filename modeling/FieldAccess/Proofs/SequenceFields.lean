import FieldAccess.Proofs.FileSessions

/-! Sequence fields are replaced in place. A slot that is null takes the sequence that is written; a
slot that holds a sequence keeps it, and only its elements are exchanged. So a sequence, once in a
slot, stays there. -/
namespace FieldAccess

namespace Heap

/-- One slot is written, and nothing else. -/
structure Stores (h : Heap) (o : ObjectId) (field : String) (v : Value) (h' : Heap) : Prop where
  slot : h'.slot? o field = some v
  others : ∀ o' field', ¬(o' = o ∧ field' = field) → h'.slot? o' field' = h.slot? o' field'
  sequences : h'.sequences = h.sequences
  shape : h.SameShape h'

/-- The elements of one sequence are exchanged, and nothing else. -/
structure Replaces (h : Heap) (k : SeqId) (items : List Value) (h' : Heap) : Prop where
  items : h'.sequences[k]? = some items
  others : ∀ j : SeqId, j ≠ k → h'.sequences[j]? = h.sequences[j]?
  objects : h'.objects = h.objects

variable {h : Heap}

theorem stores_setSlot {o : ObjectId} {cell : ObjectCell} (hc : h.objects[o]? = some cell)
    (field : String) (v : Value) : h.Stores o field v (h.setSlot o field v) where
  slot := by simp [slot?_setSlot, hc]
  others o' field' hne := by
    rw [slot?_setSlot, if_neg]
    rintro ⟨rfl, rfl⟩
    exact hne ⟨rfl, rfl⟩
  sequences := rfl
  shape := h.sameShape_setSlot o field v

theorem sequences_setSequence_self {k : SeqId} {current : List Value}
    (hk : h.sequences[k]? = some current) (items : List Value) :
    (h.setSequence k items).sequences[k]? = some items :=
  List.getElem?_set_self (List.getElem?_eq_some_iff.mp hk).1

theorem sequences_setSequence_of_ne {j k : SeqId} (hne : j ≠ k) (items : List Value) :
    (h.setSequence k items).sequences[j]? = h.sequences[j]? :=
  List.getElem?_set_ne (Ne.symm hne)

theorem setSequence_setSequence (h : Heap) (k : SeqId) (a b : List Value) :
    (h.setSequence k a).setSequence k b = h.setSequence k b := by
  simp [setSequence]

theorem replaces_setSequence {k : SeqId} {current : List Value}
    (hk : h.sequences[k]? = some current) (items : List Value) :
    h.Replaces k items (h.setSequence k items) :=
  ⟨sequences_setSequence_self hk items, fun _ hne => sequences_setSequence_of_ne hne items, rfl⟩

/-- Every sequence type takes every sequence. -/
theorem accepts_seq {types : Hierarchy} {t : TypeDesc} (ht : types.isSequence t = true)
    (s : SeqId) : h.accepts types (.seq s) t = .ok true := by
  cases t with
  | named name args => exact congrArg Except.ok ht
  | _ => cases ht

end Heap

namespace Action

variable {h : Heap} {k : SeqId} {current : List Value}

theorem run_clear (hk : h.sequences[k]? = some current) :
    (callSequence .clear (some (.seq k)) []).run h = .ok .null (h.setSequence k []) := by
  rw [callSequence_clear, bind_of_ok (query_of_ok (Heap.sequence_eq_ok_iff.mpr hk))]
  rfl

theorem run_appendAll (hk : h.sequences[k]? = some current) {s : SeqId} {items : List Value}
    (hs : h.sequences[s]? = some items) :
    (callSequence .appendAll (some (.seq k)) [.seq s]).run h =
      .ok .null (h.setSequence k (current ++ items)) := by
  rw [callSequence_appendAll, bind_of_ok (query_of_ok (Heap.sequence_eq_ok_iff.mpr hs)),
    bind_of_ok (query_of_ok (Heap.sequence_eq_ok_iff.mpr hk))]
  rfl

/-- Emptying a sequence first loses the new elements if they are its own. -/
theorem run_appendAll_of_cleared (hk : h.sequences[k]? = some current) {s : SeqId}
    {items : List Value} (hs : h.sequences[s]? = some items) :
    (callSequence .appendAll (some (.seq k)) [.seq s]).run (h.setSequence k []) =
      .ok .null (h.setSequence k (if s = k then [] else items)) := by
  have hk' : (h.setSequence k []).sequences[k]? = some [] := Heap.sequences_setSequence_self hk []
  by_cases hsk : s = k
  · subst hsk
    rw [run_appendAll hk' hk', Heap.setSequence_setSequence, if_pos rfl]
    rfl
  · have hs' := (Heap.sequences_setSequence_of_ne hsk []).trans hs
    rw [run_appendAll hk' hs', Heap.setSequence_setSequence, if_neg hsk]
    rfl

end Action

namespace ClassFile.Hosts

variable {file : ClassFile} {a : Accessor} {c : ClassDef} {fields : List FieldDesc}
  (hosts : file.Hosts a c fields)
include hosts

theorem isSequence_declared {f : FieldDesc} (hf : f ∈ fields) (hseq : f.type.isSequence = true) :
    file.context.types.isSequence f.type.declared = true := by
  obtain ⟨entry, _, hd⟩ := Catalog.exists_entry (catalog_ok hosts.catalogued).2.1 hf
  rw [hd.type, FieldType.classify] at hseq ⊢
  split at hseq
  · next ht =>
    rw [if_pos ht]
    exact ht
  · cases hseq

theorem assign_null {f : FieldDesc} (hf : f ∈ fields) (hseq : f.type.isSequence = true)
    (hg : file.context.program.method? f.getter = some (.getterOf f.name f.type.declared))
    (hs : file.context.program.method? f.setter = some (.setterOf f.name f.type.declared))
    {h : Heap} {o : ObjectId} {cell : ObjectCell} (hc : h.objects[o]? = some cell)
    (howner : cell.owner = a.host) (hslot : h.slot? o f.name = some .null) (s : SeqId) :
    (f.assign file.context (Action.invokeWithin file.context (254 + 1)) (.object o)
        (.seq s)).run h = .ok () (h.setSlot o f.name (.seq s)) := by
  have hrun := hosts.store_run hf hc howner (Heap.accepts_seq (hosts.isSequence_declared hf hseq) s)
  rw [← FieldDesc.callMember_setterOf hs 254 o] at hrun
  have hread := Action.loadField_of_slot? hslot
  rw [← FieldDesc.read_getterOf hg 254 o] at hread
  rw [FieldDesc.assign_of_null hseq hread]
  exact Action.bind_of_ok hrun _

omit hosts in
/-- The slot is not touched between the steps, so that each of them finds the same sequence. -/
theorem assign_seq {f : FieldDesc} (hseq : f.type.isSequence = true)
    (hg : file.context.program.method? f.getter = some (.getterOf f.name f.type.declared))
    {h : Heap} {o : ObjectId} {k : SeqId} (hslot : h.slot? o f.name = some (.seq k))
    {current : List Value} (hk : h.sequences[k]? = some current) {s : SeqId} {items : List Value}
    (hs : h.sequences[s]? = some items) :
    (f.assign file.context (Action.invokeWithin file.context (254 + 1)) (.object o)
        (.seq s)).run h = .ok () (h.setSequence k (if s = k then [] else items)) := by
  have hread := Action.loadField_of_slot? hslot
  have hread' : (Action.loadField (.object o) f.name).run (h.setSequence k []) =
      .ok (.seq k) (h.setSequence k []) := Action.loadField_of_slot? hslot
  rw [← FieldDesc.read_getterOf hg 254 o] at hread hread'
  rw [FieldDesc.assign_of_present hseq hread rfl, FieldDesc.exchange, Action.bind_of_ok hread,
    Action.bind_of_ok (Action.run_clear hk), Action.bind_of_ok hread']
  exact Action.bind_of_ok (Action.run_appendAll_of_cleared hk hs) _

/-- No proper request takes a sequence out of the slot of a sequence field. -/
theorem slot?_after {f : FieldDesc} (hf : f ∈ fields) (hseq : f.type.isSequence = true) {h : Heap}
    {o : ObjectId} {cell : ObjectCell} (hc : h.objects[o]? = some cell)
    (howner : cell.owner = a.host) {k : SeqId} (hslot : h.slot? o f.name = some (.seq k))
    {r : Request} (proper : r.Proper h) :
    (r.after file.context h).slot? o f.name = some (.seq k) := by
  rcases Request.proper_cases file proper with
    ⟨id, rfl⟩ | ⟨items, rfl⟩ | ⟨_, hkept⟩ | ⟨o', v, b, g, hr⟩
  · rcases Request.after_instantiate file.context h id with hkept | ⟨decl, _, hafter⟩
    · rw [hkept]
      exact hslot
    · rw [hafter, Heap.slot?, List.getElem?_append_left (List.getElem?_eq_some_iff.mp hc).1]
      exact hslot
  · exact hslot
  · rw [hkept]
    exact hslot
  · rcases hr.effect with ⟨hnull, _, hafter⟩ | ⟨_, hkept⟩
    · rw [hafter, Heap.slot?_setSlot, if_neg]
      · exact hslot
      · -- a store into this very slot would have found it null
        rintro ⟨rfl, hname⟩
        obtain rfl := hr.eq_of_name hosts hf hc howner hname
        rw [hnull hseq] at hslot
        cases hslot
    · rw [Heap.slot?, hkept]
      exact hslot

theorem slot?_heapAfter {f : FieldDesc} (hf : f ∈ fields) (hseq : f.type.isSequence = true)
    {h : Heap} {o : ObjectId} {cell : ObjectCell} (hc : h.objects[o]? = some cell)
    (howner : cell.owner = a.host) {k : SeqId} (hslot : h.slot? o f.name = some (.seq k))
    {later : List Request} (proper : ProperRun file.context h later) :
    (heapAfter file.context h later).slot? o f.name = some (.seq k) := by
  induction later with
  | nil => exact hslot
  | cons r later ih =>
    obtain ⟨cell', hc', howner', _⟩ := heapAfter_grows file.context h later o cell hc
    exact hosts.slot?_after hf hseq hc' (howner'.trans howner) (ih proper.1) proper.2

end ClassFile.Hosts

/-- Writing a sequence into a sequence field with both accessors, by name or typed, on any heap. It
never fails. A slot that was null holds the sequence then, and nothing else changes; a slot that
held a sequence holds the same one, which takes over the elements, or is emptied if it was written
to itself, and no other sequence and no slot changes. So a sequence stays in its slot, whatever
requests follow. -/
theorem sequence_fields_replace_in_place (file : ClassFile) {host : NodeId} {a : Accessor}
    (located : Accessor.locate file.context.program host = .ok a) {c : ClassDef}
    (placed : (host, c) ∈ file.placed) {fields : List FieldDesc}
    (catalogued : catalog file.context.program file.context.types host = .ok fields) {f : FieldDesc}
    (hf : f ∈ fields) {t : TypeDesc} (sequence : f.type = .sequence t) {fd : FieldDef}
    (hfd : fd ∈ c.fields) (hname : fd.name = f.name) (accessors : fd.accessors = .getSet) (h : Heap)
    {o : ObjectId} {cell : ObjectCell} (hc : h.objects[o]? = some cell) (howner : cell.owner = host)
    (hclass : cell.className = c.name) :
    (∀ (s : SeqId) (items : List Value), h.sequences[s]? = some items →
      (h.slot? o f.name = some .null →
        ∃ h', (a.set file.context (.object o) f.name (.seq s)).run h = .ok () h' ∧
          (a.setTyped file.context (.object o) f.name (.seq s)).run h = .ok () h' ∧
          h.Stores o f.name (.seq s) h') ∧
      ∀ (k : SeqId) (current : List Value), h.slot? o f.name = some (.seq k) →
        h.sequences[k]? = some current →
        ∃ h', (a.set file.context (.object o) f.name (.seq s)).run h = .ok () h' ∧
          (a.setTyped file.context (.object o) f.name (.seq s)).run h = .ok () h' ∧
          h'.slot? o f.name = some (.seq k) ∧ h.Replaces k (if s = k then [] else items) h') ∧
    ∀ k : SeqId, h.slot? o f.name = some (.seq k) → ∀ later : List Request,
      ProperRun file.context h later →
      (heapAfter file.context h later).slot? o f.name = some (.seq k) := by
  obtain ⟨rfl, hosts⟩ := ClassFile.hosts_of_locate located placed catalogued
  obtain ⟨hg, hs⟩ := hosts.getSet hf hfd hname accessors
  have hseq : f.type.isSequence = true := by rw [sequence]; rfl
  have hi : (Action.coerce file.context (.object o) (.ofName c.name)).run h =
      .ok (.object o) h := by
    rw [← hclass]
    exact Action.coerce_instance hc
  refine ⟨fun s items hitems => ?_, fun k hslot later proper =>
    hosts.slot?_heapAfter hf hseq hc howner hslot proper⟩
  have hv : h.accepts file.context.types (.seq s) f.type.declared = .ok true :=
    Heap.accepts_seq (hosts.isSequence_declared hf hseq) s
  rw [hosts.set_run hf (.seq s) hi, hosts.setTyped_run hf (.seq s) hi,
    Action.bind_of_ok (Action.coerce_ok_iff.mpr (FieldDesc.accepts_castType_of_declared hv)),
    Action.bind_of_ok (Action.coerce_ok_iff.mpr hv)]
  refine ⟨fun hnull => ?_, fun k current hslot hk => ?_⟩
  · have hrun := hosts.assign_null hf hseq hg hs hc howner hnull s
    exact ⟨_, hrun, hrun, Heap.stores_setSlot hc f.name (.seq s)⟩
  · have hrun := ClassFile.Hosts.assign_seq hseq hg hslot hk hitems
    exact ⟨_, hrun, hrun, hslot, Heap.replaces_setSequence hk _⟩

/-- Two persons share their tags; writing the tags of one to the other empties both. -/
theorem person_shared_tags_emptied :
    let h : Heap := ⟨[⟨0, "Person", [("age", .int64 41), ("tags", .seq 0)]⟩,
      ⟨0, "Person", [("age", .int64 5), ("tags", .seq 0)]⟩], [[.str "a", .seq 0]]⟩
    ∃ h', ((⟨0, 7⟩ : Accessor).set personFile.context (.object 1) "tags" (.seq 0)).run h =
      .ok () h' ∧
      ((⟨0, 7⟩ : Accessor).setTyped personFile.context (.object 1) "tags" (.seq 0)).run h =
        .ok () h' ∧
      h'.slot? 1 "tags" = some (.seq 0) ∧ h.Replaces 0 [] h' := by
  intro h
  have replaced := (sequence_fields_replace_in_place personFile (a := ⟨0, 7⟩) rfl List.mem_cons_self
    (show catalog personFile.context.program personFile.context.types 0 = .ok personFields from rfl)
    (List.mem_cons_of_mem _ List.mem_cons_self)
      rfl (List.mem_cons_of_mem _ List.mem_cons_self) rfl rfl
    h (o := 1) rfl rfl rfl).1
  exact (replaced 0 _ rfl).2 0 _ rfl rfl

end FieldAccess
