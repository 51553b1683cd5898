import FieldAccess.Proofs.SequenceFields
import FieldAccess.Proofs.Subtyping

/-! Writes that fail. Every check comes before the first change, with one exception: a sequence that
is in its slot is emptied before the value to append is looked at. So a failed write leaves no
trace, or it leaves that sequence empty. Instances may be of any class, and the heap is
arbitrary. -/
namespace FieldAccess

/-- Failures of a conversion, of a look-up in the heap and of the call of an accessor. -/
def EvalError.OfAccess : EvalError → Prop
  | .conversion _ _ | .nullReceiver _ | .noSuchField _ _ | .abstractMethod _ | .danglingHandle _
  | .notAnObject _ => True
  | _ => False

theorem EvalError.OfAccess.ne_notASequence {e : EvalError} (he : e.OfAccess) (found : String) :
    e ≠ .notASequence found := by
  rintro rfl
  exact he

/-- Null or a sequence. -/
def Value.SeqOrNull (v : Value) : Prop := v = .null ∨ ∃ s, v = .seq s

namespace Heap

theorem object_error {h : Heap} {id : ObjectId} {e : EvalError} (he : h.object id = .error e) :
    e.OfAccess := by
  unfold object at he
  cases hc : h.objects[id]? with
  | some cell => rw [hc] at he; cases he
  | none => rw [hc] at he; cases he; exact trivial

theorem coerce_error {h : Heap} {types : Hierarchy} {v : Value} {t : TypeDesc} {e : EvalError}
    (he : h.coerce types v t = .error e) : e.OfAccess := by
  unfold coerce at he
  cases ha : h.accepts types v t with
  | ok b =>
    rw [ha] at he
    cases b with
    | true => cases he
    | false => cases he; exact trivial
  | error e' =>
    rw [ha] at he
    cases he
    -- only an object is looked up, for the name of its class
    cases t with
    | named name args =>
      cases v with
      | object id =>
        cases hc : h.object id with
        | ok cell => simp [accepts, hc, bind, Except.bind, pure, Except.pure] at ha
        | error e'' =>
          simp only [accepts, hc, bind, Except.bind, Except.error.injEq] at ha
          exact ha ▸ object_error hc
      | _ => cases ha
    | _ => cases ha

/-- A handle of a sequence that is there. -/
def LiveSeq (h : Heap) (v : Value) : Prop := ∃ s items, v = .seq s ∧ h.sequences[s]? = some items

theorem sequence_of_dead {h : Heap} {s : SeqId} (hs : ¬ h.LiveSeq (.seq s)) :
    h.sequence s = .error (.danglingHandle (SeqId.text s)) := by
  have hnone : h.sequences[s]? = none := by
    cases hitems : h.sequences[s]? with
    | none => rfl
    | some items => exact absurd ⟨s, items, rfl, hitems⟩ hs
  simp [sequence, hnone]

/-- A value that is among the sequences by subtyping only: an object of a class below them, or a
string where strings are. -/
def PassesAsSequence (h : Heap) (types : Hierarchy) (v : Value) : Prop :=
  (∃ o cell, v = .object o ∧ h.objects[o]? = some cell ∧
    types.isSubtype cell.className TypeDesc.sequenceName = true) ∨
  ∃ s, v = .str s ∧ types.isSubtype TypeDesc.stringName TypeDesc.sequenceName = true

/-- What a sequence type takes. -/
theorem accepts_sequence_cases {h : Heap} {types : Hierarchy} {v : Value} {t : TypeDesc}
    (ht : types.isSequence t = true) (hv : h.accepts types v t = .ok true) :
    v.SeqOrNull ∨ h.PassesAsSequence types v := by
  obtain ⟨name, args, rfl, hname⟩ := Hierarchy.isSequence_iff.mp ht
  cases v with
  | null => exact Or.inl (Or.inl rfl)
  | seq s => exact Or.inl (Or.inr ⟨s, rfl⟩)
  | object o =>
    cases hc : h.object o with
    | error e => simp [accepts, hc, bind, Except.bind] at hv
    | ok cell =>
      have hsub : types.isSubtype cell.className name = true := by
        simpa [accepts, hc, bind, Except.bind, pure, Except.pure] using hv
      exact Or.inr
        (Or.inl ⟨o, cell, rfl, object_eq_ok_iff.mp hc, Hierarchy.isSubtype_trans hsub hname⟩)
  | str s =>
    have hsub : types.isSubtype TypeDesc.stringName name = true := Except.ok.inj hv
    exact Or.inr (Or.inr ⟨s, rfl, Hierarchy.isSubtype_trans hsub hname⟩)
  | _ => cases hv

end Heap

/-! ### Failures before any change -/

namespace Action

variable {α β : Type}

/-- A failure comes before any change, and is one of access. -/
def Clean (x : Action α) : Prop := ∀ h e h', x.run h = .error e h' → h' = h ∧ e.OfAccess

/-- A run that does not fail leaves the heap as it is. -/
def ReadOnly (x : Action α) : Prop := ∀ h a h', x.run h = .ok a h' → h' = h

theorem clean_throw {e : EvalError} (he : e.OfAccess) : Clean (throw e : Action α) := by
  intro h e' h' hrun
  cases hrun
  exact ⟨rfl, he⟩

theorem clean_query {f : Heap → Except EvalError α} (hf : ∀ h e, f h = .error e → e.OfAccess) :
    Clean (query f) := by
  intro h e h' hrun
  cases hq : f h with
  | ok a => rw [query_of_ok hq] at hrun; cases hrun
  | error e' =>
    rw [query_of_error hq] at hrun
    cases hrun
    exact ⟨rfl, hf h _ hq⟩

theorem readOnly_query (f : Heap → Except EvalError α) : ReadOnly (query f) := by
  intro h a h' hrun
  cases hq : f h with
  | ok b => rw [query_of_ok hq] at hrun; cases hrun; rfl
  | error e => rw [query_of_error hq] at hrun; cases hrun

/-- Reading first does not change what a failure leaves. -/
theorem Clean.bind {x : Action α} {f : α → Action β} (hx : Clean x) (hread : ReadOnly x)
    (hf : ∀ a, Clean (f a)) : Clean (x >>= f) := by
  intro h e h' hrun
  cases hr : x.run h with
  | error e' h₁ =>
    rw [bind_of_error hr] at hrun
    cases hrun
    exact hx h e h' hr
  | ok a h₁ =>
    rw [bind_of_ok hr] at hrun
    obtain rfl := hread h a h₁ hr
    exact hf a _ e h' hrun

theorem Clean.discard {x : Action α} (hx : Clean x) (b : β) : Clean (do let _ ← x; return b) := by
  intro h e h' hrun
  cases hr : x.run h with
  | error e' h₁ =>
    rw [bind_of_error hr] at hrun
    cases hrun
    exact hx h e h' hr
  | ok a h₁ => rw [bind_of_ok hr] at hrun; cases hrun

theorem clean_coerce (ctx : Context) (v : Value) (t : TypeDesc) : Clean (coerce ctx v t) :=
  clean_query fun _ _ he => Heap.coerce_error he

theorem clean_loadField (o : ObjectId) (field : String) : Clean (loadField (.object o) field) := by
  refine clean_query ?_
  intro h e he
  cases hc : h.object o with
  | error e' =>
    simp only [hc, bind, Except.bind] at he
    cases he
    exact Heap.object_error hc
  | ok cell =>
    cases hv : Assoc.get? field cell.slots with
    | some v => simp [hc, hv, bind, Except.bind, pure, Except.pure] at he
    | none =>
      simp only [hc, hv, bind, Except.bind] at he
      cases he
      exact trivial

theorem clean_storeField (ctx : Context) (o : ObjectId) (field : String) (v : Value) :
    Clean (storeField ctx o field v) := by
  refine (clean_query fun _ _ he => Heap.object_error he).bind (readOnly_query _) fun cell => ?_
  cases (ctx.program.fieldsOf cell.owner).find? (fun f => f.2.name == field) with
  | none => exact clean_throw trivial
  | some decl =>
    refine (clean_coerce ctx v decl.2.type).bind (readOnly_query _) fun w => ?_
    intro h e h' hrun
    cases hrun

/-- A call of a method of an object fails at once or runs its body on an object. -/
theorem callMember_cases {ctx : Context} {method : NodeId} {decl : MethodDecl}
    (hm : ctx.program.method? method = some decl) (hs : decl.isStatic = false) (room : Nat)
    (i : Value) (args : List Value) (hl : args.length = decl.params.length) :
    (∃ e : EvalError, e.OfAccess ∧
        callMember ctx (invokeWithin ctx room) method (some i) args = throw e) ∨
      ∃ o body, i = .object o ∧ decl.body = some body := by
  by_cases hnull : i = .null
  · subst hnull
    exact Or.inl ⟨.nullReceiver decl.name, trivial, by simp [callMember_eq, hm, hs, Value.isNull]⟩
  have hcall : callMember ctx (invokeWithin ctx room) method (some i) args =
      invokeWithin ctx room method (some i) args := by
    have hpresent : i.isNull = false := by cases i <;> first | rfl | exact absurd rfl hnull
    simp [callMember_eq, hm, hpresent]
  rw [hcall]
  cases hb : decl.body with
  | none =>
    refine Or.inl ⟨.abstractMethod decl.name, trivial, ?_⟩
    simp [invokeWithin_eq, enter, hm, hl, hb, throw_bind]
  | some body =>
    rw [invokeWithin_eq, enter_eq hm hb _ hl]
    cases i with
    | object o => exact Or.inr ⟨o, body, rfl, rfl⟩
    | null => exact absurd rfl hnull
    | _ => exact Or.inl ⟨.notAnObject _, trivial, by simp only [bindReceiver, hs]; rfl⟩

end Action

/-! ### Refilling a sequence -/

namespace Action

/-- A sequence is emptied and gets the elements of another one. -/
def refill (w v : Value) : Action Unit := do
  let _ ← callSequence .clear (some w) []
  let _ ← callSequence .appendAll (some w) [v]

variable {h : Heap} {w v : Value}

/-- Only the handle of a sequence that is there can be emptied. -/
theorem run_clear_of_dead (hw : ¬ h.LiveSeq w) :
    ∃ e, (callSequence .clear (some w) []).run h = .error e h ∧
      (w.SeqOrNull → ∀ found, e ≠ .notASequence found) := by
  cases w with
  | seq k =>
    refine ⟨.danglingHandle (SeqId.text k), ?_, fun _ _ => nofun⟩
    rw [callSequence_clear]
    exact bind_of_error (query_of_error (Heap.sequence_of_dead hw)) _
  | null => exact ⟨_, rfl, fun _ _ => nofun⟩
  | _ =>
    refine ⟨_, rfl, ?_⟩
    rintro (hnull | ⟨s, hseq⟩)
    · cases hnull
    · cases hseq

theorem run_appendAll_of_dead (k : SeqId) (hv : ¬ h.LiveSeq v) :
    ∃ e, (callSequence .appendAll (some (.seq k)) [v]).run h = .error e h ∧
      (v.SeqOrNull → ∀ found, e ≠ .notASequence found) := by
  cases v with
  | seq s =>
    refine ⟨.danglingHandle (SeqId.text s), ?_, fun _ _ => nofun⟩
    rw [callSequence_appendAll]
    exact bind_of_error (query_of_error (Heap.sequence_of_dead hv)) _
  | null => exact ⟨_, rfl, fun _ _ => nofun⟩
  | _ =>
    refine ⟨_, rfl, ?_⟩
    rintro (hnull | ⟨s, hseq⟩)
    · cases hnull
    · cases hseq

/-- Emptying a sequence takes no handle away. -/
theorem not_liveSeq_setSequence (hv : ¬ h.LiveSeq v) (k : SeqId) (items : List Value) :
    ¬ (h.setSequence k items).LiveSeq v := by
  rintro ⟨s, new, rfl, hs⟩
  have hlt : s < h.sequences.length := by
    have := (List.getElem?_eq_some_iff.mp hs).1
    simpa [Heap.setSequence] using this
  exact hv ⟨s, _, rfl, List.getElem?_eq_getElem hlt⟩

theorem refill_of_dead (hw : ¬ h.LiveSeq w) :
    ∃ e, (refill w v).run h = .error e h ∧ (w.SeqOrNull → ∀ found, e ≠ .notASequence found) := by
  obtain ⟨e, he, hkind⟩ := run_clear_of_dead hw
  exact ⟨e, bind_of_error he _, hkind⟩

theorem refill_of_unusable {k : SeqId} {current : List Value} (hk : h.sequences[k]? = some current)
    (hv : ¬ h.LiveSeq v) :
    ∃ e, (refill (.seq k) v).run h = .error e (h.setSequence k []) ∧
      (v.SeqOrNull → ∀ found, e ≠ .notASequence found) := by
  obtain ⟨e, he, hkind⟩ := run_appendAll_of_dead k (not_liveSeq_setSequence hv k [])
  refine ⟨e, ?_, hkind⟩
  rw [refill, bind_of_ok (run_clear hk)]
  exact bind_of_error he _

/-- Refilling fails before any change, or after a sequence that is there was emptied. -/
theorem refill_failed {e : EvalError} {h' : Heap} (hrun : (refill w v).run h = .error e h') :
    (h' = h ∧ (w.SeqOrNull → ∀ found, e ≠ .notASequence found)) ∨
      ∃ k, w = .seq k ∧ h.LiveSeq w ∧ ¬ h.LiveSeq v ∧ h' = h.setSequence k [] ∧
        (v.SeqOrNull → ∀ found, e ≠ .notASequence found) := by
  by_cases hw : h.LiveSeq w
  · obtain ⟨k, current, rfl, hk⟩ := hw
    refine Or.inr ⟨k, rfl, ⟨k, current, rfl, hk⟩, ?_⟩
    by_cases hv : h.LiveSeq v
    · obtain ⟨s, items, rfl, hs⟩ := hv
      have hfilled : (refill (.seq k) (.seq s)).run h = .ok () _ :=
        (bind_of_ok (run_clear hk) _).trans (bind_of_ok (run_appendAll_of_cleared hk hs) _)
      rw [hfilled] at hrun
      cases hrun
    · obtain ⟨e', he', hkind⟩ := refill_of_unusable hk hv
      rw [he'] at hrun
      cases hrun
      exact ⟨hv, rfl, hkind⟩
  · obtain ⟨e', he', hkind⟩ := refill_of_dead (v := v) hw
    rw [he'] at hrun
    cases hrun
    exact Or.inl ⟨rfl, hkind⟩

end Action

/-! ### Accessors called on any value -/

namespace FieldDesc

variable {ctx : Context} {f : FieldDesc} {o : ObjectId} {h : Heap}

/-- The slot is not touched between the steps of an exchange, so that it is read once. -/
theorem exchange_of_slot {t : TypeDesc}
    (hg : ctx.program.method? f.getter = some (.getterOf f.name t)) (room : Nat)
    {w : Value} (hw : h.slot? o f.name = some w) (v : Value) :
    (f.exchange ctx (Action.invokeWithin ctx (room + 1)) (.object o) v).run h =
      (Action.refill w v).run h := by
  rw [exchange, read_getterOf hg, Action.bind_of_ok (Action.loadField_of_slot? hw), Action.refill]
  cases hclear : (Action.callSequence .clear (some w) []).run h with
  | error e h' => rw [Action.bind_of_error hclear, Action.bind_of_error hclear]
  | ok a h' =>
    have hkeeps := Action.keepsObjects_callSequence .clear (some w) [] h
    rw [Action.outcome_of_ok hclear] at hkeeps
    have hw' : h'.slot? o f.name = some w := by rw [Heap.slot?, hkeeps]; exact hw
    rw [Action.bind_of_ok hclear, Action.bind_of_ok hclear,
      Action.bind_of_ok (Action.loadField_of_slot? hw')]

end FieldDesc

/-- A method that was picked belongs to objects and has the arity that was asked for. -/
theorem Catalog.method?_of_pick {p : Program} {owner id : NodeId} {name : String} {arity : Nat}
    {preferred : MethodDecl → Bool}
    (h : pick preferred (instanceMethods p owner name arity) = some id) :
    ∃ m, p.method? id = some m ∧ m.isStatic = false ∧ m.params.length = arity := by
  obtain ⟨m, hm⟩ := mem_of_pick h
  obtain ⟨hmem, hshape⟩ := List.mem_filter.mp hm
  simp only [Bool.and_eq_true, Bool.not_eq_true', beq_iff_eq] at hshape
  exact ⟨m, Program.method?_of_mem_methodsOf hmem, hshape.1.1, hshape.2⟩

/-- The write finds a sequence in the slot and empties it, and what it then has to append is
none. -/
structure FieldDesc.Drains (f : FieldDesc) (ctx : Context) (host : String) (h : Heap)
    (instance_ v : Value) (k : SeqId) : Prop where
  sequence : f.type.isSequence = true
  getter : ctx.program.method? f.getter = some (.getterOf f.name f.type.declared)
  slot : ∃ o, instance_ = .object o ∧ h.slot? o f.name = some (.seq k)
  instance_ : h.coerce ctx.types instance_ (.ofName host) = .ok instance_
  live : h.LiveSeq (.seq k)
  value : h.coerce ctx.types v f.type.declared = .ok v
  unusable : ¬ h.LiveSeq v

namespace ClassFile.Hosts

variable {file : ClassFile} {a : Accessor} {c : ClassDef} {fields : List FieldDesc}
  (hosts : file.Hosts a c fields)
include hosts

/-- A getter fails at once or gives the slot of an object. -/
theorem read_any {f : FieldDesc} (hf : f ∈ fields) (room : Nat) (i : Value) :
    (∃ e : EvalError, e.OfAccess ∧
      f.read file.context (Action.invokeWithin file.context (room + 1)) i = throw e) ∨
    ∃ o, i = .object o ∧
      file.context.program.method? f.getter = some (.getterOf f.name f.type.declared) ∧
      f.read file.context (Action.invokeWithin file.context (room + 1)) i =
        Action.loadField (.object o) f.name := by
  obtain ⟨_, _, described⟩ := Catalog.exists_entry (catalog_ok hosts.catalogued).2.1 hf
  obtain ⟨g, hg, hstatic, harity⟩ := Catalog.method?_of_pick described.getter
  obtain ⟨fd, _, backed⟩ := hosts.exists_backed hf
  rcases Action.callMember_cases hg hstatic (room + 1) i [] harity.symm with
    hrefused | ⟨o, body, rfl, hbody⟩
  · exact Or.inl hrefused
  · obtain ⟨g', hg', hgb⟩ := backed.getter
    obtain rfl : g = g' := Option.some.inj (hg.symm.trans hg')
    cases hp : fd.accessors.hasGetter with
    | false =>
      rw [hp] at hgb
      exact absurd (hgb.symm.trans hbody) nofun
    | true =>
      rw [hp] at hgb
      have hgetter : file.context.program.method? f.getter =
          some (.getterOf f.name f.type.declared) := by
        rw [backed.name, backed.declared]
        exact hg.trans (congrArg some hgb)
      exact Or.inr ⟨o, rfl, hgetter, FieldDesc.read_getterOf hgetter room o⟩

/-- A setter called on any value changes nothing when it fails. -/
theorem setter_clean {f : FieldDesc} (hf : f ∈ fields) (room : Nat) (i v : Value) :
    Action.Clean
      (Action.callMember file.context (Action.invokeWithin file.context (room + 1)) f.setter
      (some i) [v]) := by
  obtain ⟨_, _, described⟩ := Catalog.exists_entry (catalog_ok hosts.catalogued).2.1 hf
  obtain ⟨s, hs, hstatic, harity⟩ := Catalog.method?_of_pick described.setter
  obtain ⟨fd, _, backed⟩ := hosts.exists_backed hf
  rcases Action.callMember_cases hs hstatic (room + 1) i [v] harity.symm with
    ⟨e, he, hrefused⟩ | ⟨o, body, rfl, hbody⟩
  · rw [hrefused]
    exact Action.clean_throw he
  · obtain ⟨s', hs', hsb⟩ := backed.setter
    obtain rfl : s = s' := Option.some.inj (hs.symm.trans hs')
    cases hp : fd.accessors.hasSetter with
    | false =>
      rw [hp] at hsb
      exact absurd (hsb.symm.trans hbody) nofun
    | true =>
      rw [hp] at hsb
      rw [FieldDesc.callMember_setterOf (hs.trans (congrArg some hsb)) room o v]
      refine (Action.clean_coerce _ v _).bind (Action.readOnly_query _) fun w => ?_
      exact (Action.clean_storeField _ o _ w).discard _

/-- An assignment that fails has changed nothing, or it has emptied the sequence in the slot. -/
theorem assign_failed {f : FieldDesc} (hf : f ∈ fields) (room : Nat) {i v : Value} {h h' : Heap}
    {e : EvalError}
    (hrun : (f.assign file.context (Action.invokeWithin file.context (room + 1)) i v).run h =
      .error e h') :
    (h' = h ∧ (e.OfAccess ∨ ∃ o w, i = .object o ∧ h.slot? o f.name = some w ∧
        (w.SeqOrNull → ∀ found, e ≠ .notASequence found))) ∨
      ∃ o k, f.type.isSequence = true ∧
        file.context.program.method? f.getter = some (.getterOf f.name f.type.declared) ∧
        i = .object o ∧ h.slot? o f.name = some (.seq k) ∧ h.LiveSeq (.seq k) ∧ ¬ h.LiveSeq v ∧
        h' = h.setSequence k [] ∧ (v.SeqOrNull → ∀ found, e ≠ .notASequence found) := by
  have hset := (hosts.setter_clean hf room i v).discard ()
  cases hseq : f.type.isSequence with
  | false =>
    rw [FieldDesc.assign_of_scalar hseq] at hrun
    obtain ⟨hkept, he⟩ := hset h e h' hrun
    exact Or.inl ⟨hkept, Or.inl he⟩
  | true =>
    rcases hosts.read_any hf room i with ⟨e', he', hread⟩ | ⟨o, rfl, hgetter, hread⟩
    · rw [FieldDesc.assign_of_sequence hseq, hread] at hrun
      cases hrun
      exact Or.inl ⟨rfl, Or.inl he'⟩
    · rcases Action.loadField_cases h o f.name with ⟨w, hw, hload⟩ | ⟨e', hload⟩
      · rw [← hread] at hload
        cases hnull : w.isNull with
        | true =>
          obtain rfl := Value.eq_null hnull
          rw [FieldDesc.assign_of_null hseq hload] at hrun
          obtain ⟨hkept, he⟩ := hset h e h' hrun
          exact Or.inl ⟨hkept, Or.inl he⟩
        | false =>
          rw [FieldDesc.assign_of_present hseq hload hnull,
            FieldDesc.exchange_of_slot hgetter room hw] at hrun
          rcases Action.refill_failed hrun
            with ⟨hkept, hkind⟩ | ⟨k, rfl, hlive, hv, hdrained, hkind⟩
          · exact Or.inl ⟨hkept, Or.inr ⟨o, w, rfl, hw, hkind⟩⟩
          · exact Or.inr ⟨o, k, rfl, hgetter, rfl, hw, hlive, hv, hdrained, hkind⟩
      · have he' := (Action.clean_loadField o f.name h e' h hload).2
        rw [← hread] at hload
        rw [FieldDesc.assign_of_unreadable hseq hload] at hrun
        cases hrun
        exact Or.inl ⟨rfl, Or.inl he'⟩

omit hosts in
/-- A sequence in the slot is emptied before the value is found to be of no use. -/
theorem assign_of_drains {f : FieldDesc} {h : Heap} {i v : Value} {k : SeqId} (room : Nat)
    (drains : f.Drains file.context c.name h i v k) :
    ∃ e, (f.assign file.context (Action.invokeWithin file.context (room + 1)) i v).run h =
      .error e (h.setSequence k []) := by
  obtain ⟨o, rfl, hslot⟩ := drains.slot
  obtain ⟨_, items, ⟨⟩, hk⟩ := drains.live
  have hload := Action.loadField_of_slot? hslot
  rw [← FieldDesc.read_getterOf drains.getter room o] at hload
  obtain ⟨e, he, _⟩ := Action.refill_of_unusable hk drains.unusable
  refine ⟨e, ?_⟩
  rw [FieldDesc.assign_of_present drains.sequence hload rfl,
    FieldDesc.exchange_of_slot drains.getter room hslot]
  exact he

end ClassFile.Hosts

/-! ### Writes from outside -/

/-- A sequence field takes the same values in both calls. -/
theorem FieldDesc.accepts_castType_of_sequence {f : FieldDesc} (hseq : f.type.isSequence = true)
    (h : Heap) (types : Hierarchy) (v : Value) :
    h.accepts types v f.castType = h.accepts types v f.type.declared := by
  refine accepts_castType_eq h types v ?_
  intro q hq
  rw [hq] at hseq
  cases hseq

/-- A write of a field from outside. The value is converted to the given type. -/
def FieldDesc.write (f : FieldDesc) (ctx : Context) (host : String) (t : TypeDesc)
    (instance_ v : Value) : Action Unit := do
  let i ← Action.coerce ctx instance_ (.ofName host)
  let w ← Action.coerce ctx v t
  f.assign ctx (Action.invokeWithin ctx (254 + 1)) i w

theorem FieldDesc.write_of_accepted (f : FieldDesc) {ctx : Context} {host : String} {t : TypeDesc}
    {i v : Value} {h : Heap} (hi : h.coerce ctx.types i (.ofName host) = .ok i)
    (hv : h.accepts ctx.types v t = .ok true) :
    (f.write ctx host t i v).run h =
      (f.assign ctx (Action.invokeWithin ctx (254 + 1)) i v).run h := by
  rw [write, Action.bind_of_ok (Action.coerce_of_ok hi),
    Action.bind_of_ok (Action.coerce_ok_iff.mpr hv)]

/-- A write fails in a conversion or is the assignment of the value itself. -/
theorem FieldDesc.write_cases (f : FieldDesc) (ctx : Context) (host : String) (t : TypeDesc)
    (i v : Value) (h : Heap) :
    (∃ e : EvalError, e.OfAccess ∧ (f.write ctx host t i v).run h = .error e h) ∨
      (h.coerce ctx.types i (.ofName host) = .ok i ∧ h.accepts ctx.types v t = .ok true ∧
        (f.write ctx host t i v).run h =
          (f.assign ctx (Action.invokeWithin ctx (254 + 1)) i v).run h) := by
  rcases Action.coerce_cases ctx i (.ofName host) h with hi | ⟨e, hi⟩
  · rcases Action.coerce_cases ctx v t h with hv | ⟨e, hv⟩
    · have hi := Heap.coerce_ok_iff.mpr (Action.coerce_ok_iff.mp hi)
      have hv := Action.coerce_ok_iff.mp hv
      exact Or.inr ⟨hi, hv, f.write_of_accepted hi hv⟩
    · refine Or.inl ⟨e, (Action.clean_coerce ctx v t h e h hv).2, ?_⟩
      rw [write, Action.bind_of_ok hi]
      exact Action.bind_of_error hv _
  · exact Or.inl ⟨e, (Action.clean_coerce ctx i _ h e h hi).2, Action.bind_of_error hi _⟩

namespace ClassFile.Hosts

variable {file : ClassFile} {a : Accessor} {c : ClassDef} {fields : List FieldDesc}
  (hosts : file.Hosts a c fields)
include hosts

theorem set_eq {f : FieldDesc} (hf : f ∈ fields) (i v : Value) :
    a.set file.context i f.name v = f.write file.context c.name f.castType i v := by
  rw [Accessor.set, hosts.serves.serves.setAt hf]
  rfl

theorem setTyped_eq {f : FieldDesc} (hf : f ∈ fields) (i v : Value) :
    a.setTyped file.context i f.name v = f.write file.context c.name f.type.declared i v := by
  rw [Accessor.setTyped, hosts.serves.serves.setTypedAt hf]
  rfl

/-- What a failed write leaves. The type that a sequence field converts to may be its own or its
erasure. -/
theorem write_failed {f : FieldDesc} (hf : f ∈ fields) {t : TypeDesc} {i v : Value} {h h' : Heap}
    (ht : f.type.isSequence = true → h.accepts file.context.types v t =
      h.accepts file.context.types v f.type.declared) {e : EvalError}
    (hrun : (f.write file.context c.name t i v).run h = .error e h') :
    (h' = h ∧ (e.OfAccess ∨ ∃ o w, i = .object o ∧ h.slot? o f.name = some w ∧
        (w.SeqOrNull → ∀ found, e ≠ .notASequence found))) ∨
      ∃ k, f.Drains file.context c.name h i v k ∧ h' = h.setSequence k [] ∧
        (v.SeqOrNull → ∀ found, e ≠ .notASequence found) := by
  rcases f.write_cases file.context c.name t i v h with ⟨e', he', hwrite⟩ | ⟨hi, hv, hwrite⟩
  · rw [hwrite] at hrun
    cases hrun
    exact Or.inl ⟨rfl, Or.inl he'⟩
  · rw [hwrite] at hrun
    rcases hosts.assign_failed hf 254 hrun with
      hkept | ⟨o, k, hseq, hgetter, rfl, hslot, hlive, hunusable, hdrained, hkind⟩
    · exact Or.inl hkept
    · have hvalue := Heap.coerce_ok_iff.mpr ((ht hseq).symm.trans hv)
      exact Or.inr ⟨k, ⟨hseq, hgetter, ⟨o, rfl, hslot⟩, hi, hlive, hvalue, hunusable⟩,
        hdrained, hkind⟩

end ClassFile.Hosts

/-- Writes on any heap, to any instance, of any value. A write of a name that no field has fails and
changes nothing, and so does a typed one unless it is that of a field. When a write of a field
fails, by name or typed, the heap is as before, except precisely when the write drains the sequence
in the slot: then both calls fail, and that sequence is empty, and nothing else has changed. The
value was null then, a handle of a sequence that is not there, or an object or a string that only
passes as a sequence. -/
theorem failed_writes_leave_no_trace (file : ClassFile) {host : NodeId} {a : Accessor}
    (located : Accessor.locate file.context.program host = .ok a) {c : ClassDef}
    (placed : (host, c) ∈ file.placed) {fields : List FieldDesc}
    (catalogued : catalog file.context.program file.context.types host = .ok fields) (h : Heap)
    (instance_ v : Value) :
    (∀ key, (∀ f ∈ fields, f.name ≠ key) →
      ∃ e, (a.set file.context instance_ key v).run h = .error e h) ∧
    (∀ key, (∃ e, (a.setTyped file.context instance_ key v).run h = .error e h) ∨
      ∃ f ∈ fields, a.setTyped file.context instance_ key v =
        a.setTyped file.context instance_ f.name v) ∧
    ∀ f ∈ fields,
      (∀ e h', (a.set file.context instance_ f.name v).run h = .error e h' ∨
          (a.setTyped file.context instance_ f.name v).run h = .error e h' →
        (∀ k, ¬ f.Drains file.context c.name h instance_ v k) → h' = h) ∧
      ∀ k, f.Drains file.context c.name h instance_ v k →
        (∃ e h', (a.set file.context instance_ f.name v).run h = .error e h' ∧
          (a.setTyped file.context instance_ f.name v).run h = .error e h' ∧ h.Replaces k [] h') ∧
        (v = .null ∨ (∃ s : SeqId, v = .seq s ∧ h.sequences[s]? = none) ∨
          h.PassesAsSequence file.context.types v) := by
  obtain ⟨rfl, hosts⟩ := ClassFile.hosts_of_locate located placed catalogued
  refine ⟨fun key hkey => hosts.serves.serves.setAt_unknown hkey 0 instance_ v h, ?_, ?_⟩
  · intro key
    rcases hosts.serves.setTypedAt_cases 0 instance_ key v h with hfails | ⟨f, hf, hname⟩
    · exact Or.inl hfails
    · refine Or.inr ⟨f, hf, ?_⟩
      rw [Accessor.setTyped, Accessor.setTypedAt, hname]
      rfl
  intro f hf
  have hcast : f.type.isSequence = true → h.accepts file.context.types v f.castType =
      h.accepts file.context.types v f.type.declared :=
    fun hseq => FieldDesc.accepts_castType_of_sequence hseq h file.context.types v
  rw [hosts.set_eq hf, hosts.setTyped_eq hf]
  constructor
  · intro e h' failed kept
    have unchanged : ∀ t, (f.type.isSequence = true → h.accepts file.context.types v t =
        h.accepts file.context.types v f.type.declared) →
        (f.write file.context c.name t instance_ v).run h = .error e h' → h' = h := by
      intro t ht hrun
      rcases hosts.write_failed hf ht hrun with ⟨hkept, _⟩ | ⟨k, drains, _⟩
      · exact hkept
      · exact absurd drains (kept k)
    rcases failed with hrun | hrun
    · exact unchanged f.castType hcast hrun
    · exact unchanged f.type.declared (fun _ => rfl) hrun
  · intro k drains
    have hv := Heap.coerce_ok_iff.mp drains.value
    constructor
    · obtain ⟨e, he⟩ := ClassFile.Hosts.assign_of_drains 254 drains
      obtain ⟨_, items, ⟨⟩, hk⟩ := drains.live
      refine ⟨e, h.setSequence k [], ?_, ?_, Heap.replaces_setSequence hk []⟩
      · rw [f.write_of_accepted drains.instance_ ((hcast drains.sequence).trans hv)]
        exact he
      · rw [f.write_of_accepted drains.instance_ hv]
        exact he
    · rcases Heap.accepts_sequence_cases (hosts.isSequence_declared hf drains.sequence) hv with
        (hnull | ⟨s, rfl⟩) | hrest
      · exact Or.inl hnull
      · refine Or.inr (Or.inl ⟨s, rfl, ?_⟩)
        cases hs : h.sequences[s]? with
        | none => rfl
        | some items => exact absurd ⟨s, items, rfl, hs⟩ drains.unusable
      · exact Or.inr (Or.inr hrest)

/-- Null for the tags of a person empties them. -/
theorem person_tags_drained :
    let h : Heap :=
      ⟨[⟨0, "Person", [("age", .int64 41), ("tags", .seq 1)]⟩], [[.int32 4], [.str "a"]]⟩
    ∃ e h', ((⟨0, 7⟩ : Accessor).set personFile.context (.object 0) "tags" .null).run h =
      .error e h' ∧
      ((⟨0, 7⟩ : Accessor).setTyped personFile.context (.object 0) "tags" .null).run h =
        .error e h' ∧
      h.Replaces 1 [] h' := by
  intro h
  have hf :
    (⟨"tags", "Tags", .sequence (.named TypeDesc.listName [.string]), 4, 5, 6⟩ : FieldDesc) ∈
      personFields := List.mem_cons_of_mem _ List.mem_cons_self
  have traces := (failed_writes_leave_no_trace personFile (a := ⟨0, 7⟩) rfl List.mem_cons_self
    (show catalog personFile.context.program personFile.context.types 0 = .ok personFields from rfl)
    h (.object 0) .null).2.2 _ hf
  have drains : FieldDesc.Drains
      ⟨"tags", "Tags", .sequence (.named TypeDesc.listName [.string]), 4, 5, 6⟩ personFile.context
      "Person" h (.object 0) .null 1 :=
    { sequence := rfl
      getter := rfl
      slot := ⟨0, rfl, rfl⟩
      instance_ := rfl
      live := ⟨1, [.str "a"], rfl, rfl⟩
      value := rfl
      unusable := by
        rintro ⟨s, items, hnull, _⟩
        cases hnull }
  exact (traces.2 1 drains).1

/-- A class of some name among the sequences, and a marked class with a field for a sequence. -/
def noteFile (sequence : String) : ClassFile :=
  ⟨[{ name := sequence
      supertypes := [.named TypeDesc.listName []] },
    { name := "Note"
      annotations := ["Entity"]
      fields := [{ name := "tags", type := .named TypeDesc.listName [] }] }]⟩

/-- Where strings are among the sequences, a string empties the tags before it is refused. -/
theorem note_tags_drained_by_string :
    let h : Heap := ⟨[⟨1, "Note", [("tags", .seq 0)]⟩], [[.int32 7]]⟩
    Accessor.locate (noteFile "string").context.program 1 = .ok ⟨1, 5⟩ ∧
      ((⟨1, 5⟩ : Accessor).set (noteFile "string").context (.object 0) "tags" (.str "x")).run h =
        .error (.notASequence "string") ⟨[⟨1, "Note", [("tags", .seq 0)]⟩], [[]]⟩ := by
  intro h
  constructor
  · rfl
  · rfl

end FieldAccess
