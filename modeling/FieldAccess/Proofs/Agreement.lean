import FieldAccess.ClassFile.Basic
import FieldAccess.Proofs.Clients

/-! The two faces of an accessor type. Reading a field by its name and through its own method is the
same action. Writing differs in the order of the checks and, for a primitive, in what the first of
them lets through; the accessors of the class see the same calls all the same. -/
namespace FieldAccess

/-! ### Where the accessor type is -/

/-- Synthesis fails where the catalog does. -/
theorem synthesize_of_class {p : Program} {types : Hierarchy} {id : NodeId} {c : ClassDecl}
    (hc : p.class? id = some c) :
    synthesize p types id = (catalog p types id).map (Synthesis.mapper id c.name) := by
  rw [synthesize, Program.expectClass_eq_ok_iff.mpr hc]
  cases catalog p types id <;> rfl

theorem synthesize_ok {p : Program} {types : Hierarchy} {host : NodeId} {m : MapperSpec}
    (h : synthesize p types host = .ok m) :
    ∃ fields c, catalog p types host = .ok fields ∧ p.class? host = some c ∧
      m = Synthesis.mapper host c.name fields := by
  unfold synthesize at h
  cases hc : catalog p types host with
  | error es => rw [hc] at h; cases h
  | ok fields =>
    cases he : p.expectClass host with
    | error e => simp [hc, he, bind, Except.bind] at h
    | ok c =>
      refine ⟨fields, c, rfl, Program.expectClass_eq_ok_iff.mp he, ?_⟩
      simpa [hc, he, bind, Except.bind, pure, Except.pure, eq_comm] using h

namespace Program

theorem inject_injected {p q : Program} {host nested : NodeId} {m : MapperSpec}
    (h : p.inject host m = .ok (q, .injected nested)) :
    (∃ c, p.class? host = some c) ∧ p.findReserved? host = none ∧
      q = (p.attachMapper host m).1 ∧ nested = p.size := by
  unfold inject at h
  cases hc : p.expectClass host with
  | error e => rw [hc] at h; cases h
  | ok c =>
    simp only [hc] at h
    by_cases hm : m.host ≠ host
    · simp [hm] at h
    · rw [if_neg hm] at h
      cases hr : p.findReserved? host with
      | some found => rw [hr] at h; cases h
      | none =>
        simp only [hr, Except.ok.injEq, Prod.mk.injEq, InjectOutcome.injected.injEq] at h
        refine ⟨⟨c, expectClass_eq_ok_iff.mp hc⟩, rfl, h.1.symm, ?_⟩
        rw [← h.2, attachMapper_eq]

/-- A class in the grown program is one from before or the new type; all else that is new is a
method. -/
theorem header_attachMapper {p : Program} {host : Nat} {m : MapperSpec} (hhost : host < p.size)
    {k : Nat} {header : String × Origin}
    (h : ((p.attachMapper host m).1.node? k).bind headerOf? = some header) :
    (k < p.size ∧ (p.node? k).bind headerOf? = some header) ∨
      (k = p.size ∧ header = (m.name, .synthesized)) := by
  rcases Nat.lt_trichotomy k p.size with hlt | rfl | hgt
  · obtain ⟨n, hn⟩ := node?_of_lt hlt
    obtain ⟨n', hn', hx⟩ := (p.extends_attachMapper host m).node? hn
    rw [hn', Option.bind_some, stable_headerOf? n n' hx] at h
    exact Or.inl ⟨hlt, by rw [hn]; exact h⟩
  · rw [class?_eq_some_iff.mp (class?_attachMapper_new hhost)] at h
    exact Or.inr ⟨rfl, (Option.some.inj h).symm⟩
  · exfalso
    obtain ⟨j, hj⟩ := Nat.exists_eq_add_of_lt hgt
    rw [Nat.add_right_comm] at hj
    subst hj
    by_cases hjlt : j < m.methods.length
    · rw [node?_attachMapper_method hjlt, List.getElem?_eq_getElem hjlt] at h
      cases h
    · have hsize := size_attachMapper p host m
      cases hn : (p.attachMapper host m).1.node? (p.size + 1 + j) with
      | none => rw [hn] at h; cases h
      | some n => have := lt_size_of_node? hn; omega

/-- The nested type that carries the reserved name is the new one, whatever the host lists. -/
theorem findReserved?_attachMapper {p : Program} {host : Nat} {m : MapperSpec} {c : ClassDecl}
    (hc : p.class? host = some c) (hname : m.name = mapperName)
    (hnone : p.findReserved? host = none) :
    (p.attachMapper host m).1.findReserved? host = some (p.size, .synthesized) := by
  have hlt := lt_size_of_class? hc
  have hhost := class?_attachMapper_host (m := m) hc
  have hmem : ((p.size, mapperName, .synthesized) : NodeId × String × Origin) ∈
      membersAs headerOf? (p.attachMapper host m).1 host := by
    rw [membersAs_eq _ hhost, List.mem_filterMap]
    refine ⟨p.size, by simp, ?_⟩
    rw [class?_eq_some_iff.mp (class?_attachMapper_new hlt)]
    simp [headerOf?, Node.asClass?, MapperSpec.classDecl, hname]
  -- a member of the reserved name that was there before would have been found then
  have honly : ∀ x ∈ membersAs headerOf? (p.attachMapper host m).1 host,
      (x.2.1 == mapperName) = true → x = (p.size, mapperName, .synthesized) := by
    intro x hx hxname
    rw [membersAs_eq _ hhost, List.mem_filterMap] at hx
    obtain ⟨k, hk, hkx⟩ := hx
    obtain ⟨header, hh, rfl⟩ := Option.map_eq_some_iff.mp hkx
    rcases header_attachMapper hlt hh with ⟨hklt, hold⟩ | ⟨rfl, rfl⟩
    · have hkmem : k ∈ c.members := by
        rcases List.mem_append.mp hk with h | h
        · exact h
        · exact absurd (List.mem_singleton.mp h) (Nat.ne_of_lt hklt)
      have hmember : (k, header) ∈ membersAs headerOf? p host := by
        rw [membersAs_eq _ hc, List.mem_filterMap]
        exact ⟨k, hkmem, by rw [hold]; rfl⟩
      rw [findReserved?_eq, Option.map_eq_none_iff, List.find?_eq_none] at hnone
      exact absurd hxname (hnone _ hmember)
    · rw [hname]
  rw [findReserved?_eq]
  cases hfind : (membersAs headerOf? (p.attachMapper host m).1 host).find?
      (fun n => n.2.1 == mapperName) with
  | none => exact absurd (beq_self_eq_true mapperName) (List.find?_eq_none.mp hfind _ hmem)
  | some x =>
    have hx : (x.2.1 == mapperName) = true := by simpa using List.find?_some hfind
    rw [honly x (List.mem_of_find?_eq_some hfind) hx]
    rfl

end Program

theorem locate_of_inject {p q : Program} {types : Hierarchy} {r : Program} {host nested : NodeId}
    {m : MapperSpec} (hs : synthesize r types host = .ok m)
    (hi : p.inject host m = .ok (q, .injected nested)) :
    Accessor.locate q host = .ok ⟨host, nested⟩ := by
  obtain ⟨fields, c, _, _, rfl⟩ := synthesize_ok hs
  obtain ⟨⟨d, hd⟩, hnone, rfl, rfl⟩ := Program.inject_injected hi
  have hfound := Program.findReserved?_attachMapper (m := Synthesis.mapper host c.name fields) hd
    rfl hnone
  simp [Accessor.locate, Program.class?_attachMapper_host hd, hfound]

/-- The methods of an attached type stand behind it, and stay in front when the program grows. -/
theorem methodsOf_of_inject {p q r : Program} {host nested : NodeId} {m : MapperSpec}
    (hi : p.inject host m = .ok (q, .injected nested)) (hgrown : q.Extends r) :
    ((m.methods.zipIdx (nested + 1)).map fun s => (s.2, s.1.toDecl)) <+: r.methodsOf nested := by
  obtain ⟨⟨c, hc⟩, _, rfl, rfl⟩ := Program.inject_injected hi
  have hlt := Program.lt_size_of_class? hc
  have hsize := Program.size_attachMapper p host m
  rw [← Program.methodsOf_attachMapper_eq hlt]
  refine hgrown.membersAs_prefix Program.stable_asMethod? (Program.class?_attachMapper_new hlt) ?_
  intro k hk
  obtain ⟨j, hj, rfl⟩ := List.mem_range'.mp hk
  rw [hsize, Nat.one_mul]
  exact Nat.add_lt_add_left hj _

theorem serves_of_inject {p q r : Program} {a : Accessor} {hostName : String}
    {fields : List FieldDesc} (named : WellNamed fields)
    (hi : p.inject a.host (Synthesis.mapper a.host hostName fields) =
      .ok (q, .injected a.mapper))
    (hgrown : q.Extends r) : a.Serves r hostName fields := by
  have hprefix := (methodsOf_of_inject hi hgrown).map Prod.snd
  rw [List.map_map] at hprefix
  refine ⟨named, ?_⟩
  rwa [← List.zipIdx_map_fst (a.mapper + 1) (Synthesis.mapper a.host hostName fields).methods,
    List.map_map]

/-! ### Writing -/

/-- A setter whose parameter refuses a value refuses it before anything is changed. -/
theorem callMember_refuses {ctx : Context} {method : NodeId} {decl : MethodDecl} {t : TypeDesc}
    (hm : ctx.program.method? method = some decl) (ht : decl.params.map Param.type = [t])
    {v : Value} {h : Heap} {e : EvalError} (hc : (Action.coerce ctx v t).run h = .error e h)
    (room : Nat) (i : Value) :
    ∃ e', (Action.callMember ctx (Action.invokeWithin ctx room) method (some i) [v]).run h =
      .error e' h := by
  obtain ⟨q, hq, rfl⟩ := List.map_eq_singleton_iff.mp ht
  have hlen : [v].length = decl.params.length := by simp [hq]
  by_cases hnull : (!decl.isStatic && (some i).all Value.isNull) = true
  · exact ⟨.nullReceiver decl.name, by simp only [Action.callMember_eq, hm, if_pos hnull]; rfl⟩
  · simp only [Action.callMember_eq, hm, if_neg hnull]
    cases hb : decl.body with
    | none =>
      obtain ⟨e', he'⟩ := Action.invoke_abstract hm hb room (some i) [v]
      exact ⟨e', by rw [he']; rfl⟩
    | some body =>
      have hparams : ∀ this : Option Value,
          (Action.bindParams ctx decl.params [v] ⟨this, []⟩).run h = .error e h := by
        intro this
        rw [hq, Action.bindParams]
        exact Action.bind_of_error hc _
      cases hs : decl.isStatic with
      | true =>
        rw [Action.invoke_static hm hs hb room _ hlen]
        exact ⟨e, Action.bind_of_error (hparams none) _⟩
      | false =>
        rw [Action.invokeWithin_eq, Action.enter_eq hm hb _ hlen]
        cases i with
        | object id =>
          refine ⟨e, ?_⟩
          simp [Action.bindReceiver, hs, hparams]
        | _ => simp [Action.bindReceiver, hs]

namespace FieldDesc

variable {f : FieldDesc}

/-- The dynamic setter lets through what the field takes, and null for a primitive. -/
theorem accepts_castType_of_declared {h : Heap} {types : Hierarchy} {v : Value}
    (hv : h.accepts types v f.type.declared = .ok true) :
    h.accepts types v f.castType = .ok true := by
  unfold castType
  cases ht : f.type with
  | sequence t =>
    rw [ht] at hv
    rw [Heap.accepts_erasure]
    exact hv
  | scalar t =>
    rw [ht] at hv
    rw [Heap.accepts_erasure]
    cases t with
    | primitive p =>
      simp only [FieldType.declared, Heap.accepts, Except.ok.injEq] at hv
      simp [TypeDesc.toBoxed, Heap.accepts, hv]
    | _ => exact hv

theorem accepts_castType_eq (h : Heap) (types : Hierarchy) (v : Value)
    (hp : ∀ q, f.type ≠ .scalar (.primitive q)) :
    h.accepts types v f.castType = h.accepts types v f.type.declared := by
  unfold castType
  cases ht : f.type with
  | sequence t => exact Heap.accepts_erasure h types v t
  | scalar t =>
    rw [Heap.accepts_erasure]
    cases t with
    | primitive q => exact absurd ht (hp q)
    | _ => rfl

end FieldDesc

theorem getAt_eq_getTypedAt {a : Accessor} {ctx : Context} {hostName : String}
    {fields : List FieldDesc} (serves : a.Serves ctx.program hostName fields) {f : FieldDesc}
    (hf : f ∈ fields) (depth : Nat) (instance_ : Value) :
    a.getAt ctx depth instance_ f.name = a.getTypedAt ctx depth instance_ f.name := by
  rw [serves.getAt hf, serves.getTypedAt hf]

/-- A value that the field takes passes both ways; one that it does not take is stopped by the first
conversion, or by the parameter of the setter when it is null for a primitive. -/
theorem setAt_outcome_eq {a : Accessor} {ctx : Context} {hostName : String}
    {fields : List FieldDesc} (serves : a.Serves ctx.program hostName fields) {f : FieldDesc}
    (hf : f ∈ fields) (depth : Nat) (instance_ v : Value) (h : Heap)
    (hexact : (∀ q, f.type.declared ≠ .primitive q) ∨
      ∃ decl, ctx.program.method? f.setter = some decl ∧
        decl.params.map Param.type = [f.type.declared]) :
    (a.setAt ctx depth instance_ f.name v).outcome h =
      (a.setTypedAt ctx depth instance_ f.name v).outcome h := by
  rw [serves.setAt hf, serves.setTypedAt hf]
  rcases Action.coerce_cases ctx instance_ (.ofName hostName) h with hi | ⟨e, hi⟩
  case inr => rw [Action.outcome_of_error (Action.bind_of_error hi _),
    Action.outcome_of_error (Action.bind_of_error hi _)]
  simp only [Action.outcome, Action.bind_of_ok hi]
  rcases Action.coerce_cases ctx v f.type.declared h with hv | ⟨e, hv⟩
  · -- both reach the assignment, unless there is no room for it
    have hcast : (Action.coerce ctx v f.castType).run h = .ok v h :=
      Action.coerce_ok_iff.mpr (FieldDesc.accepts_castType_of_declared (Action.coerce_ok_iff.mp hv))
    rw [Action.bind_of_ok hv]
    cases Action.maxCallDepth - depth with
    | zero => rfl
    | succ room => rw [Action.descend_succ, Action.bind_of_ok hcast, Action.descend_succ]
  · rw [Action.bind_of_error hv]
    cases Action.maxCallDepth - depth with
    | zero => rfl
    | succ room =>
      rw [Action.descend_succ]
      rcases Action.coerce_cases ctx v f.castType h with hcast | ⟨e', hcast⟩
      · obtain ⟨q, hq⟩ : ∃ q, f.type = .scalar (.primitive q) := by
          by_contra hn
          have heq := FieldDesc.accepts_castType_eq h ctx.types v fun q hq => hn ⟨q, hq⟩
          rw [Action.coerce_ok_iff, heq, ← Action.coerce_ok_iff, hv] at hcast
          cases hcast
        rcases hexact with hnot | ⟨decl, hm, ht⟩
        · exact absurd (by rw [hq]; rfl) (hnot q)
        · obtain ⟨e'', hrefused⟩ := callMember_refuses hm ht hv room instance_
          rw [Action.bind_of_ok hcast, FieldDesc.assign, hq]
          simp only [Action.bind_of_error hrefused]
      · rw [Action.bind_of_error hcast]

/-- An accessor type made by synthesis and attached by injection, possibly to a program that has
changed in between, is the one its client finds. In every program that this one grows into, at any
depth, both reading calls for a field are one action, and both writing calls have one outcome on
every heap. For a primitive field the latter asks that the setter takes exactly the type of the
field. -/
theorem dynamic_and_typed_calls_agree {p₀ p₁ p₂ : Program} {types : Hierarchy} {a : Accessor}
    {m : MapperSpec} {fields : List FieldDesc} (synthesized : synthesize p₀ types a.host = .ok m)
    (catalogued : catalog p₀ types a.host = .ok fields)
    (attached : p₁.inject a.host m = .ok (p₂, .injected a.mapper)) :
    Accessor.locate p₂ a.host = .ok a ∧
      ∀ p, p₂.Extends p → ∀ f ∈ fields, ∀ (depth : Nat) (instance_ : Value),
        a.getAt (.ofProgram p) depth instance_ f.name =
            a.getTypedAt (.ofProgram p) depth instance_ f.name ∧
          ((∀ q, f.type.declared ≠ .primitive q) ∨
              (∃ decl, p.method? f.setter = some decl ∧
                decl.params.map Param.type = [f.type.declared]) →
            ∀ (v : Value) (h : Heap),
              (a.setAt (.ofProgram p) depth instance_ f.name v).outcome h =
                (a.setTypedAt (.ofProgram p) depth instance_ f.name v).outcome h) := by
  refine ⟨locate_of_inject synthesized attached, ?_⟩
  intro p grown f hf depth instance_
  obtain ⟨fields', c, hfields, _, rfl⟩ := synthesize_ok synthesized
  rw [catalogued, Except.ok.injEq] at hfields
  subst hfields
  have serves : a.Serves (Context.ofProgram p).program c.name fields :=
    serves_of_inject (catalog_ok catalogued).2.2 attached grown
  exact ⟨getAt_eq_getTypedAt serves hf depth instance_,
    fun hexact v h => setAt_outcome_eq serves hf depth instance_ v h hexact⟩

/-- A marked class with a primitive and a sequence. -/
def personFile : ClassFile :=
  ⟨[{ name := "Person"
      annotations := ["Entity"]
      fields :=
        [{ name := "age", type := .primitive .int64 },
          { name := "tags", type := .named TypeDesc.listName [.string] }] }]⟩

def personFields : List FieldDesc :=
  [⟨"age", "Age", .scalar (.primitive .int64), 1, 2, 3⟩,
    ⟨"tags", "Tags", .sequence (.named TypeDesc.listName [.string]), 4, 5, 6⟩]

/-- Null for the primitive, on a person that is there: refused both ways. -/
theorem person_age_null_agrees :
    let p := (personFile.toProgram.attachMapper 0 (Synthesis.mapper 0 "Person" personFields)).1
    let h : Heap := ⟨[⟨0, "Person", [("age", .int64 41), ("tags", .null)]⟩], []⟩
    ((⟨0, 7⟩ : Accessor).setAt (.ofProgram p) 3 (.object 0) "age" .null).outcome h =
      ((⟨0, 7⟩ : Accessor).setTypedAt (.ofProgram p) 3 (.object 0) "age" .null).outcome h := by
  intro p h
  have synthesized : synthesize personFile.toProgram (.ofProgram personFile.toProgram) 0 =
      .ok (Synthesis.mapper 0 "Person" personFields) := rfl
  have catalogued : catalog personFile.toProgram (.ofProgram personFile.toProgram) 0 =
      .ok personFields := rfl
  have attached : personFile.toProgram.inject 0 (Synthesis.mapper 0 "Person" personFields) =
      .ok (p, .injected 7) := rfl
  have agree := (dynamic_and_typed_calls_agree (a := ⟨0, 7⟩) synthesized catalogued attached).2
  exact (agree p (.refl p) _ List.mem_cons_self 3 (.object 0)).2
    (Or.inr ⟨.setterOf "age" (.primitive .int64), rfl, rfl⟩) .null h

end FieldAccess
