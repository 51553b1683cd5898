import FieldAccess.Proofs.FailedWrites
import FieldAccess.Proofs.Reruns

/-! Accessor types are put together rightly. A call for a field can fail for what it is given: a
value of the wrong kind, a handle that leads nowhere, an accessor without a body. It never fails for
how the type was made: every name is bound, every method is there with the right number of
parameters, and the calls do not go deep. Instances, values and the heap are arbitrary. -/
namespace FieldAccess

/-- Failures of a body that is put together wrongly. -/
def EvalError.Stuck : EvalError → Prop
  | .missingLocal _ | .notAMethod _ | .notAClass _ | .arityMismatch _ _ _ | .noSuchMethod _ _
  | .missingAccessorType _ | .callDepthExceeded _ | .unknownField _ => True
  | _ => False

theorem EvalError.OfAccess.not_stuck {e : EvalError} (he : e.OfAccess) : ¬ e.Stuck := by
  cases e with
  | conversion _ _ | nullReceiver _ | noSuchField _ _ | abstractMethod _ | danglingHandle _
  | notAnObject _ => exact id
  | _ => exact absurd he id

namespace Action

variable {α β : Type}

/-- Whatever the heap, an action ends or fails for what it is given. -/
def Unstuck (x : Action α) : Prop := ∀ h e h', x.run h = .error e h' → ¬ e.Stuck

theorem Clean.unstuck {x : Action α} (hx : Clean x) : Unstuck x := by
  intro h e h' hrun
  exact (hx h e h' hrun).2.not_stuck

theorem unstuck_pure (a : α) : Unstuck (pure a : Action α) := by
  intro h e h' hrun
  cases hrun

theorem unstuck_throw {e : EvalError} (he : ¬ e.Stuck) : Unstuck (throw e : Action α) := by
  intro h e' h' hrun
  cases hrun
  exact he

theorem Unstuck.bind {x : Action α} {f : α → Action β} (hx : Unstuck x) (hf : ∀ a, Unstuck (f a)) :
    Unstuck (x >>= f) := by
  intro h e h' hrun
  cases hr : x.run h with
  | error e' h₁ =>
    rw [bind_of_error hr] at hrun
    cases hrun
    exact hx h e h' hr
  | ok a h₁ =>
    rw [bind_of_ok hr] at hrun
    exact hf a h₁ e h' hrun

theorem Unstuck.discard {x : Action α} (hx : Unstuck x) (b : β) :
    Unstuck (do let _ ← x; return b) :=
  hx.bind fun _ => unstuck_pure b

theorem unstuck_sequence (id : SeqId) : Unstuck (query fun h => h.sequence id) := by
  refine Clean.unstuck (clean_query ?_)
  intro h e he
  unfold Heap.sequence at he
  split at he <;> cases he
  trivial

/-- With the number of arguments that it takes, an operation on a sequence is refused only for its
receiver or its argument. -/
theorem unstuck_callSequence {op : SequenceOp} (w : Value) {args : List Value}
    (hl : args.length = op.arity) : Unstuck (callSequence op (some w) args) := by
  cases w with
  | seq k =>
    cases op with
    | clear =>
      obtain rfl := List.length_eq_zero_iff.mp hl
      rw [callSequence_clear]
      refine (unstuck_sequence k).bind fun _ => ?_
      intro h e h' hrun
      cases hrun
    | appendAll =>
      obtain ⟨arg, rfl⟩ := List.length_eq_one_iff.mp hl
      cases arg with
      | seq source =>
        rw [callSequence_appendAll]
        refine (unstuck_sequence source).bind fun _ => (unstuck_sequence k).bind fun _ => ?_
        intro h e h' hrun
        cases hrun
      | null => exact unstuck_throw (e := .nullArgument (sequenceName .appendAll)) id
      | _ => exact unstuck_throw (e := .notASequence _) id
  | null => exact unstuck_throw (e := .nullReceiver (sequenceName op)) id
  | _ => exact unstuck_throw (e := .notASequence _) id

end Action

/-! ### Calls for a field -/

namespace ClassFile.Hosts

variable {file : ClassFile} {a : Accessor} {c : ClassDef} {fields : List FieldDesc}
  (hosts : file.Hosts a c fields)
include hosts

theorem unstuck_read {f : FieldDesc} (hf : f ∈ fields) (room : Nat) (i : Value) :
    Action.Unstuck
      (f.read file.context (Action.invokeWithin file.context (room + 1)) i) := by
  rcases hosts.read_any hf room i with ⟨e, he, hread⟩ | ⟨o, rfl, _, hread⟩
  · rw [hread]
    exact Action.unstuck_throw he.not_stuck
  · rw [hread]
    exact (Action.clean_loadField o f.name).unstuck

theorem unstuck_assign {f : FieldDesc} (hf : f ∈ fields) (room : Nat) (i v : Value) :
    Action.Unstuck
      (f.assign file.context (Action.invokeWithin file.context (room + 1)) i v) := by
  have hset := (hosts.setter_clean hf room i v).unstuck.discard ()
  cases hseq : f.type.isSequence with
  | false =>
    rw [FieldDesc.assign_of_scalar hseq]
    exact hset
  | true =>
    have hread := hosts.unstuck_read hf room i
    rw [FieldDesc.assign_of_sequence hseq]
    refine hread.bind fun current => ?_
    split
    · exact hset
    · refine hread.bind fun w => (Action.unstuck_callSequence w rfl).bind fun _ => ?_
      exact hread.bind fun w => (Action.unstuck_callSequence w rfl).discard ()

theorem unstuck_get {f : FieldDesc} (hf : f ∈ fields) (i : Value) :
    Action.Unstuck (a.get file.context i f.name) ∧
      Action.Unstuck (a.getTyped file.context i f.name) := by
  have hinstance := (Action.clean_coerce file.context i (.ofName c.name)).unstuck
  rw [Accessor.get, Accessor.getTyped, hosts.serves.serves.getAt hf,
    hosts.serves.serves.getTypedAt hf]
  constructor
  · exact hinstance.bind fun j => hosts.unstuck_read hf 254 j
  · exact hinstance.bind fun j => hosts.unstuck_read hf 254 j

theorem unstuck_write {f : FieldDesc} (hf : f ∈ fields) (t : TypeDesc) (i v : Value) :
    Action.Unstuck (f.write file.context c.name t i v) := by
  refine (Action.clean_coerce _ i _).unstuck.bind fun j => ?_
  exact (Action.clean_coerce _ v t).unstuck.bind fun w => hosts.unstuck_assign hf 254 j w

end ClassFile.Hosts

/-- After a run, the accessor type of an injected class is found. -/
theorem ClassFile.exists_locate (file : ClassFile) {host : NodeId}
    (injected : host ∈ (Batch.run true file.toProgram).report.injected) :
    ∃ a, Accessor.locate file.context.program host = .ok a := by
  have isolates := Batch.run_isolates file.toProgram
  have hid := isolates.injected_subset injected
  have servable := (isolates.served_iff hid).mp (Or.inl injected)
  obtain ⟨c, hc⟩ := Batch.class?_of_mem_candidates hid
  obtain ⟨d, hd, _⟩ := file.context_served.grown.class? hc
  obtain ⟨⟨mapper, origin⟩, hfound⟩ :=
    Option.isSome_iff_exists.mp (Batch.findReserved?_run file.toProgram hid servable)
  have hreserved : file.context.program.findReserved? host = some (mapper, origin) := hfound
  exact ⟨⟨host, mapper⟩, by simp [Accessor.locate, hd, hreserved]⟩

/-- For every class that a run over the program of a file has injected: its accessor type is found,
its catalog is what it was before the run, and for each field of it, on every heap, with any
instance and any value, none of the four calls of a client is stuck. -/
theorem injected_accessors_never_stuck (file : ClassFile) {host : NodeId}
    (injected : host ∈ (Batch.run true file.toProgram).report.injected) :
    ∃ a fields, Accessor.locate file.context.program host = .ok a ∧
      catalog file.toProgram (.ofProgram file.toProgram) host = .ok fields ∧
      catalog file.context.program file.context.types host = .ok fields ∧
      ∀ f ∈ fields, ∀ (h h' : Heap) (instance_ v : Value) (e : EvalError),
        (a.get file.context instance_ f.name).run h = .error e h' ∨
          (a.set file.context instance_ f.name v).run h = .error e h' ∨
          (a.getTyped file.context instance_ f.name).run h = .error e h' ∨
          (a.setTyped file.context instance_ f.name v).run h = .error e h' → ¬ e.Stuck := by
  obtain ⟨a, located⟩ := file.exists_locate injected
  obtain ⟨rfl, c, fields, hosts⟩ := ClassFile.exists_hosts located
  refine ⟨a, fields, located, ?_, hosts.catalogued, ?_⟩
  · have served := file.context_served
    rw [← served.catalog_eq (ClassFile.places hosts.placed).decl served.types]
    exact hosts.catalogued
  · intro f hf h h' i v e hrun
    obtain ⟨hget, hgetTyped⟩ := hosts.unstuck_get hf i
    rw [hosts.set_eq hf, hosts.setTyped_eq hf] at hrun
    rcases hrun with hrun | hrun | hrun | hrun
    · exact hget h e h' hrun
    · exact hosts.unstuck_write hf _ i v h e h' hrun
    · exact hgetTyped h e h' hrun
    · exact hosts.unstuck_write hf _ i v h e h' hrun

/-- A class whose fields have the names of parameters and locals of the methods made for it. -/
def oddFile : ClassFile :=
  ⟨[{ name := "Odd"
      annotations := ["Entity"]
      fields :=
        [{ name := "value", type := .ofName TypeDesc.listName },
          { name := "instance", type := .primitive .int32 }] }]⟩

def oddFields : List FieldDesc :=
  [⟨"value", "Value", .sequence (.ofName TypeDesc.listName), 1, 2, 3⟩,
    ⟨"instance", "Instance", .scalar (.primitive .int32), 4, 5, 6⟩]

/-- A write to an object that is not there, of a sequence that is not there. -/
theorem odd_value_refused :
    0 ∈ (Batch.run true oddFile.toProgram).report.injected ∧
      ∀ (e : EvalError) (h' : Heap),
        ((⟨0, 7⟩ : Accessor).set oddFile.context (.object 3) "value" (.seq 5)).run .empty =
          .error e h' → ¬ e.Stuck := by
  have injected : 0 ∈ (Batch.run true oddFile.toProgram).report.injected := List.mem_cons_self
  obtain ⟨a, fields, located, _, catalogued, unstuck⟩ :=
    injected_accessors_never_stuck oddFile injected
  obtain rfl : a = ⟨0, 7⟩ := Except.ok.inj (located.symm.trans rfl)
  obtain rfl : fields = oddFields := Except.ok.inj (catalogued.symm.trans rfl)
  refine ⟨injected, ?_⟩
  intro e h' hrun
  exact unstuck _ List.mem_cons_self .empty h' (.object 3) (.seq 5) e (Or.inr (Or.inl hrun))

end FieldAccess
