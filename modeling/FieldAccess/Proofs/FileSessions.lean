import FieldAccess.Proofs.FileClients

/-! Sessions over the classes of a file: objects and sequences are made, and fields are read and
written through the accessor type of the class of the object. A request then does nothing, makes one
cell, or is an assignment to one field. -/
namespace FieldAccess

namespace Request

/-- Methods are called through the accessor type of the class of an object only. -/
def Proper (h : Heap) : Request → Prop
  | instantiate _ | sequence _ => True
  | invoke _ _ _ => False
  | get host instance_ _ | getTyped host instance_ _ | set host instance_ _ _
  | setTyped host instance_ _ _ =>
    ∃ o cell, instance_ = .object o ∧ h.objects[o]? = some cell ∧ cell.owner = host

/-- Object, field name and value of a request that is to write. -/
def write? : Request → Option (ObjectId × String × Value)
  | set _ (.object o) field v | setTyped _ (.object o) field v => some (o, field, v)
  | _ => none

/-- A request that assigns to a field of an object of a class with an accessor type. -/
structure Assigns (file : ClassFile) (h : Heap) (r : Request) (o : ObjectId) (a : Accessor)
    (g : FieldDesc) (v : Value) : Prop where
  field : ∃ c fields, file.Hosts a c fields ∧ g ∈ fields
  own : ∃ cell, h.objects[o]? = some cell ∧ cell.owner = a.host
  /-- A typed call may name the field by any name with the same setter. -/
  named : r.write? = some (o, g.name, v) ∨
    ∃ name, r = .setTyped a.host (.object o) name v ∧ Naming.setter name = Naming.setter g.name
  /-- A value that the type takes is stored, or sequences change. -/
  effect : ((g.type.isSequence = true → h.slot? o g.name = some .null) ∧
      r.succeeds file.context h = true ∧ r.after file.context h = h.setSlot o g.name v) ∨
    (g.type.isSequence = true ∧ (r.after file.context h).objects = h.objects)

variable {file : ClassFile} {h : Heap}

/-- An object has one field of a name. -/
theorem Assigns.eq_of_name {r : Request} {o : ObjectId} {a b : Accessor} {f g : FieldDesc}
    {v : Value} (hr : r.Assigns file h o b g v) {c : ClassDef} {fields : List FieldDesc}
    (hosts : file.Hosts a c fields) (hf : f ∈ fields) {cell : ObjectCell}
    (hc : h.objects[o]? = some cell) (howner : cell.owner = a.host) (hname : g.name = f.name) :
    g = f := by
  obtain ⟨d, others, hosts', hg⟩ := hr.field
  obtain ⟨cell', hc', howner'⟩ := hr.own
  rw [hc, Option.some.injEq] at hc'
  subst hc'
  exact hosts.eq_of_name hosts' (howner'.symm.trans howner) hf hg hname

/-- A call for reading leaves the heap as it is. -/
theorem after_read {r : Request} {host : NodeId} {use : Accessor → Action Value}
    (hr : r.perform file.context = client file.context host use)
    (huse : ∀ a c fields, file.Hosts a c fields → ((use a).outcome h).2 = h) :
    r.after file.context h = h := by
  rw [after, hr]
  cases hl : Accessor.locate file.context.program host with
  | error e => rw [outcome_client_of_error hl]
  | ok a =>
    obtain ⟨_, c, fields, hosts⟩ := ClassFile.exists_hosts hl
    rw [outcome_client_of_ok hl, huse a c fields hosts]

/-- A call for writing is refused without a trace or assigns to a field. -/
theorem after_write {r : Request} {host : NodeId} {use : Accessor → Action Unit}
    (hr : r.perform file.context = client file.context host fun a => do use a; return .null)
    {o : ObjectId} {cell : ObjectCell} (hc : h.objects[o]? = some cell) (howner : cell.owner = host)
    {v : Value}
    (huse : ∀ a c fields, file.Hosts a c fields → a.host = host →
      (∃ e, (use a).run h = .error e h) ∨ ∃ g ∈ fields,
        (r.write? = some (o, g.name, v) ∨ ∃ name, r = .setTyped a.host (.object o) name v ∧
          Naming.setter name = Naming.setter g.name) ∧
        (use a).run h =
          (g.assign file.context (Action.invokeWithin file.context (254 + 1)) (.object o)
            v).run h) :
    (r.succeeds file.context h = false ∧ r.after file.context h = h) ∨
      ∃ a g, r.Assigns file h o a g v := by
  have hafter : r.after file.context h = ((r.perform file.context).outcome h).2 := rfl
  have hsucceeds : r.succeeds file.context h = ((r.perform file.context).outcome h).1.isSome := rfl
  rw [hr] at hafter hsucceeds
  cases hl : Accessor.locate file.context.program host with
  | error e =>
    rw [outcome_client_of_error hl] at hafter hsucceeds
    exact Or.inl ⟨hsucceeds, hafter⟩
  | ok a =>
    obtain ⟨rfl, c, fields, hosts⟩ := ClassFile.exists_hosts hl
    rw [outcome_client_of_ok hl, outcome_discard] at hafter hsucceeds
    rw [Option.isSome_map] at hsucceeds
    rcases huse a c fields hosts rfl with ⟨e, he⟩ | ⟨g, hg, named, hx⟩
    · rw [Action.outcome_of_error he] at hafter hsucceeds
      exact Or.inl ⟨hsucceeds, hafter⟩
    · rcases hosts.assign_cases hg 254 hc howner v with ⟨e, he⟩ | ⟨hslot, _, hrun⟩ | ⟨hseq, hkept⟩
      · rw [Action.outcome_of_error (hx.trans he)] at hafter hsucceeds
        exact Or.inl ⟨hsucceeds, hafter⟩
      · rw [Action.outcome_of_ok (hx.trans hrun)] at hafter hsucceeds
        exact Or.inr ⟨a, g, ⟨c, fields, hosts, hg⟩, ⟨cell, hc, howner⟩, named,
          Or.inl ⟨hslot, hsucceeds, hafter⟩⟩
      · refine Or.inr ⟨a, g, ⟨c, fields, hosts, hg⟩, ⟨cell, hc, howner⟩, named, Or.inr ⟨hseq, ?_⟩⟩
        rw [hafter, Action.outcome, hx, ← Action.outcome]
        exact hkept

/-- What a proper request can do. -/
theorem proper_cases (file : ClassFile) {r : Request} (proper : r.Proper h) :
    (∃ id, r = .instantiate id) ∨ (∃ items, r = .sequence items) ∨
      ((r.write?.isSome = true → r.succeeds file.context h = false) ∧ r.after file.context h = h) ∨
      ∃ o v a g, r.Assigns file h o a g v := by
  cases r with
  | instantiate id => exact Or.inl ⟨id, rfl⟩
  | sequence items => exact Or.inr (Or.inl ⟨items, rfl⟩)
  | invoke method receiver args => exact proper.elim
  | get host instance_ key =>
    obtain ⟨o, cell, rfl, _⟩ := proper
    exact Or.inr
      (Or.inr (Or.inl ⟨nofun, after_read rfl fun a c fields hosts => hosts.get_keeps h o key⟩))
  | getTyped host instance_ name =>
    obtain ⟨o, cell, rfl, _⟩ := proper
    exact Or.inr (Or.inr (Or.inl
      ⟨nofun, after_read rfl fun a c fields hosts => hosts.getTyped_keeps h o name⟩))
  | set host instance_ key v =>
    obtain ⟨o, cell, rfl, hc, howner⟩ := proper
    rcases after_write (r := .set host (.object o) key v) rfl hc howner
        fun a c fields hosts _ => by
        rcases hosts.set_cases h o key v with he | ⟨g, hg, rfl, hx⟩
        · exact Or.inl he
        · exact Or.inr ⟨g, hg, Or.inl rfl, hx⟩ with ⟨hfailed, hkept⟩ | hassigns
    · exact Or.inr (Or.inr (Or.inl ⟨fun _ => hfailed, hkept⟩))
    · exact Or.inr (Or.inr (Or.inr ⟨o, v, hassigns⟩))
  | setTyped host instance_ name v =>
    obtain ⟨o, cell, rfl, hc, howner⟩ := proper
    rcases after_write (r := .setTyped host (.object o) name v) rfl hc howner
        fun a c fields hosts ha => by
        rcases hosts.setTyped_cases h o name v with he | ⟨g, hg, hname, hx⟩
        · exact Or.inl he
        · exact Or.inr ⟨g, hg, Or.inr ⟨name, by rw [ha], hname⟩, hx⟩
            with ⟨hfailed, hkept⟩ | hassigns
    · exact Or.inr (Or.inr (Or.inl ⟨fun _ => hfailed, hkept⟩))
    · exact Or.inr (Or.inr (Or.inr ⟨o, v, hassigns⟩))

end Request

/-- A history of proper requests. -/
def ProperRun (ctx : Context) (start : Heap) : List Request → Prop
  | [] => True
  | r :: past => ProperRun ctx start past ∧ r.Proper (heapAfter ctx start past)

end FieldAccess
