import FieldAccess.Proofs.Agreement

/-! An accessor type has a method for everything and nothing twice. Its dynamic methods choose among
all fields of the class and no other keys, so that a key which names no field is reported as it is.
Each method is found under its own name, also after the program has grown. -/
namespace FieldAccess

/-- Where a key tells the entries of a list apart, looking for the key of an entry finds the
entry. -/
theorem find?_of_nodup {α : Type} (key : α → String) {l : List α} (hnodup : (l.map key).Nodup)
    {a : α} (ha : a ∈ l) :
    l.find? (fun b => key b == key a) = some a := by
  induction l with
  | nil => cases ha
  | cons b rest ih =>
    rw [List.map_cons, List.nodup_cons] at hnodup
    rcases List.mem_cons.mp ha with rfl | ha
    · simp
    · have hne : key b ≠ key a := fun h => hnodup.1 (h ▸ List.mem_map.mpr ⟨a, ha, rfl⟩)
      rw [List.find?_cons_of_neg (by simpa using hne)]
      exact ih hnodup.2 ha

namespace Synthesis

/-- A body that only chooses: one case for each name, in order, and the key is unknown otherwise. -/
def IsTable (names : List String) (body : Block) : Prop :=
  ∃ cases, body = [.switch (.var fieldParam) cases [.throw (.unknownField (.var fieldParam))]] ∧
    cases.map Prod.fst = names

theorem isTable_dispatch {fields : List FieldDesc} (named : WellNamed fields)
    (body : FieldDesc → Block) : IsTable (fields.map FieldDesc.name) (dispatch fields body) := by
  refine ⟨fields.map fun f => (f.name, body f), ?_, ?_⟩
  · rw [dispatch, Assoc.ofPairs_of_nodup (named.nodup_cases body)]
  · rw [List.map_map]
    rfl

/-- Names of the methods of an accessor type: the dynamic pair, then a typed pair for each field. -/
def methodNames (names : List String) : List String :=
  "set" :: "get" :: names.flatMap fun name => [Naming.setter name, Naming.getter name]

theorem mem_typedNames {names : List String} {x : String} :
    (x ∈ names.flatMap fun name => [Naming.setter name, Naming.getter name]) ↔
      ∃ name ∈ names, x = Naming.setter name ∨ x = Naming.getter name := by
  simp only [List.mem_flatMap, List.mem_cons, List.not_mem_nil, or_false]

theorem nodup_typedNames {names : List String} (hdistinct : (names.map Naming.capitalize).Nodup) :
    (names.flatMap fun name => [Naming.setter name, Naming.getter name]).Nodup := by
  induction names with
  | nil => exact List.nodup_nil
  | cons name rest ih =>
    rw [List.map_cons, List.nodup_cons] at hdistinct
    obtain ⟨hfresh, hrest⟩ := hdistinct
    have hne : ∀ other ∈ rest, Naming.capitalize name ≠ Naming.capitalize other :=
      fun other hother heq => hfresh (List.mem_map.mpr ⟨other, hother, heq.symm⟩)
    rw [List.flatMap_cons, List.cons_append, List.cons_append, List.nil_append, List.nodup_cons,
      List.nodup_cons, List.mem_cons, mem_typedNames, mem_typedNames]
    refine ⟨?_, ?_, ih hrest⟩
    · rintro (h | ⟨other, hother, h | h⟩)
      · exact Naming.setter_ne_getter _ _ h
      · exact hne other hother (Naming.setter_inj.mp h)
      · exact Naming.setter_ne_getter _ _ h
    · rintro ⟨other, hother, h | h⟩
      · exact Naming.setter_ne_getter _ _ h.symm
      · exact hne other hother (Naming.getter_inj.mp h)

theorem dynamic_notMem_typedNames {names : List String} (hnamed : ∀ name ∈ names, name ≠ "")
    {x : String}
    (hx : x = "set" ∨ x = "get") : x ∉ names.flatMap fun name =>
      [Naming.setter name, Naming.getter name] := by
  rw [mem_typedNames]
  rintro ⟨name, hname, h⟩
  have hcapital := Naming.capitalize_ne_empty (hnamed name hname)
  have hlength : x.toList.length = 3 := by rcases hx with rfl | rfl <;> rfl
  have hlong : (Naming.capitalize name).toList.length ≠ 0 := by simpa using hcapital
  rcases h with rfl | rfl
  · rw [Naming.setter, String.toList_append, List.length_append] at hlength
    have : "set".toList.length = 3 := rfl
    omega
  · rw [Naming.getter, String.toList_append, List.length_append] at hlength
    have : "get".toList.length = 3 := rfl
    omega

/-- Accessor names of fields differ from each other and from those of the dynamic methods. -/
theorem nodup_methodNames {names : List String} (hnamed : ∀ name ∈ names, name ≠ "")
    (hdistinct : (names.map Naming.capitalize).Nodup) : (methodNames names).Nodup := by
  rw [methodNames, List.nodup_cons, List.nodup_cons, List.mem_cons, not_or]
  exact ⟨⟨by decide, dynamic_notMem_typedNames hnamed (.inl rfl)⟩,
    dynamic_notMem_typedNames hnamed (.inr rfl), nodup_typedNames hdistinct⟩

/-- An accessor type with all its methods: none is missing, and none hides another. -/
structure Complete (hostType : TypeDesc) (fields : List FieldDesc) (m : MapperSpec) : Prop where
  size : m.methods.length = 2 + 2 * fields.length
  static : ∀ s ∈ m.methods, s.isStatic = true
  order : m.methods.map MethodSpec.name = methodNames (fields.map FieldDesc.name)
  distinct : (m.methods.map MethodSpec.name).Nodup
  tables : ∀ s ∈ m.methods.take 2, IsTable (fields.map FieldDesc.name) s.body
  typed : ∀ k f, fields[k]? = some f →
    m.methods[2 + 2 * k]? = some (typedSet hostType f) ∧
    m.methods[3 + 2 * k]? = some (typedGet hostType f)

section
variable {hostType : TypeDesc} {fields : List FieldDesc}

variable (hostType) in
theorem getElem?_typed {k : Nat} {f : FieldDesc} (hf : fields[k]? = some f) :
    (fields.flatMap fun f => [typedSet hostType f, typedGet hostType f])[2 * k]? =
      some (typedSet hostType f) ∧
      (fields.flatMap fun f => [typedSet hostType f, typedGet hostType f])[2 * k + 1]? =
        some (typedGet hostType f) := by
  induction fields generalizing k with
  | nil => cases hf
  | cons g rest ih =>
    cases k with
    | zero =>
      cases hf
      exact ⟨rfl, rfl⟩
    | succ k => exact ih hf

theorem map_name_typed (named : WellNamed fields) :
    (fields.flatMap fun f => [typedSet hostType f, typedGet hostType f]).map MethodSpec.name =
      (fields.map FieldDesc.name).flatMap fun name => [Naming.setter name, Naming.getter name] := by
  induction fields with
  | nil => rfl
  | cons f rest ih =>
    have hcapitalized := named.capitalized f List.mem_cons_self
    rw [List.flatMap_cons, List.map_append, ih named.tail]
    simp [typedSet, typedGet, Naming.setter, Naming.getter, hcapitalized]

end

theorem complete_mapper (host : NodeId) (hostName : String) {fields : List FieldDesc}
    (named : WellNamed fields) :
    Complete (.ofName hostName) fields (mapper host hostName fields) := by
  have horder : (mapper host hostName fields).methods.map MethodSpec.name =
      methodNames (fields.map FieldDesc.name) := by
    rw [mapper, List.map_cons, List.map_cons, map_name_typed named]
    rfl
  constructor
  case size =>
    rw [mapper, List.length_cons, List.length_cons, length_typed]
    omega
  case static =>
    intro s hs
    simp only [mapper, List.mem_cons, List.mem_flatMap, List.not_mem_nil, or_false] at hs
    rcases hs with rfl | rfl | ⟨f, -, rfl | rfl⟩ <;> rfl
  case order => exact horder
  case distinct =>
    have hcapitalized : (fields.map FieldDesc.name).map Naming.capitalize =
        fields.map FieldDesc.capitalized := by
      rw [List.map_map]
      exact List.map_congr_left fun f hf => (named.capitalized f hf).symm
    rw [horder]
    apply nodup_methodNames
    · rintro name hname
      obtain ⟨f, hf, rfl⟩ := List.mem_map.mp hname
      exact named.nonempty f hf
    · rw [hcapitalized]
      exact named.distinct
  case tables =>
    intro s hs
    simp only [mapper, List.take_succ_cons, List.take_zero, List.mem_cons, List.not_mem_nil,
      or_false] at hs
    rcases hs with rfl | rfl
    · exact isTable_dispatch named setCase
    · exact isTable_dispatch named getCase
  case typed =>
    intro k f hf
    have hpair := getElem?_typed (.ofName hostName) hf
    rw [Nat.add_comm 2, Nat.add_comm 3]
    exact hpair

end Synthesis

/-- A method of an attached type is found under its name, in its place behind the type. -/
theorem findMethod_of_inject {p q r : Program} {host nested : NodeId} {m : MapperSpec}
    (hi : p.inject host m = .ok (q, .injected nested)) (hgrown : q.Extends r)
    (hdistinct : (m.methods.map MethodSpec.name).Nodup) {k : Nat} {s : MethodSpec}
    (hs : m.methods[k]? = some s) :
    r.findMethod nested s.name = .ok (nested + 1 + k) ∧
    r.method? (nested + 1 + k) = some s.toDecl := by
  have hmem : (s, nested + 1 + k) ∈ m.methods.zipIdx (nested + 1) :=
    List.mk_add_mem_zipIdx_iff_getElem?.mpr hs
  have hkeys : (m.methods.zipIdx (nested + 1)).map (MethodSpec.name ∘ Prod.fst) =
      m.methods.map MethodSpec.name := by
    rw [← List.map_map, List.zipIdx_map_fst]
  have hfirst : (m.methods.zipIdx (nested + 1)).find? (fun x => x.1.name == s.name) =
      some (s, nested + 1 + k) :=
    find?_of_nodup (MethodSpec.name ∘ Prod.fst) (hkeys ▸ hdistinct) hmem
  obtain ⟨rest, hrest⟩ := methodsOf_of_inject hi hgrown
  apply Program.findMethod_of_find?
  rw [← hrest, List.find?_append, List.find?_map, Function.comp_def]
  simp only [MethodSpec.toDecl]
  rw [hfirst]
  rfl

namespace Accessor.Serves

variable {a : Accessor} {ctx : Context} {hostName : String} {fields : List FieldDesc}

/-- A key that names no field is reported as it is, and nothing is changed. -/
theorem unknownField (serves : a.Serves ctx.program hostName fields) {key : String}
    (hnone : ∀ f ∈ fields, f.name ≠ key) {depth : Nat} (hroom : depth < Action.maxCallDepth)
    {h : Heap} {instance_ : Value}
    (haccepts : h.accepts ctx.types instance_ (.ofName hostName) = .ok true) :
    (a.getAt ctx depth instance_ key).run h = .error (.unknownField key) h ∧
      ∀ v, (a.setAt ctx depth instance_ key v).run h = .error (.unknownField key) h := by
  have hcoerce := Action.coerce_ok_iff.mpr haccepts
  have hdepth : ¬ Action.maxCallDepth - depth = 0 := by omega
  constructor
  · rw [serves.getAt_unknown_eq hnone, if_neg hdepth, Action.bind_of_ok hcoerce]
    rfl
  · intro v
    rw [serves.setAt_unknown_eq hnone, if_neg hdepth, Action.bind_of_ok hcoerce]
    rfl

end Accessor.Serves

/-- A class with a catalog has a complete accessor type. Once it is attached, and however the
program grows, its client finds it, each accessor name leads to the accessor of the very field, and
a key that names no field is unknown. -/
theorem dispatch_tables_complete {p₀ : Program} {types : Hierarchy} {a : Accessor}
    {fields : List FieldDesc} (catalogued : catalog p₀ types a.host = .ok fields) :
    fields.map FieldDesc.name = (p₀.fieldsOf a.host).map (fun x => x.2.name) ∧
      ∃ c m, p₀.class? a.host = some c ∧ synthesize p₀ types a.host = .ok m ∧
        Synthesis.Complete (.ofName c.name) fields m ∧
        ∀ p₁ p₂ : Program, p₁.inject a.host m = .ok (p₂, .injected a.mapper) →
          Accessor.locate p₂ a.host = .ok a ∧
          ∀ ctx : Context, p₂.Extends ctx.program →
            (∀ k f, fields[k]? = some f →
              ctx.program.findMethod a.mapper (Naming.setter f.name) = .ok (a.mapper + 3 + 2 * k) ∧
                ctx.program.method? (a.mapper + 3 + 2 * k) =
                  some (Synthesis.typedSet (.ofName c.name) f).toDecl ∧
                ctx.program.findMethod a.mapper (Naming.getter f.name) =
                  .ok (a.mapper + 4 + 2 * k) ∧
                ctx.program.method? (a.mapper + 4 + 2 * k) =
                  some (Synthesis.typedGet (.ofName c.name) f).toDecl) ∧
            ∀ (h : Heap) (instance_ : Value) (key : String),
              h.accepts ctx.types instance_ (.ofName c.name) = .ok true →
              (∀ f ∈ fields, f.name ≠ key) →
                (a.get ctx instance_ key).run h = .error (.unknownField key) h ∧
                  ∀ v, (a.set ctx instance_ key v).run h = .error (.unknownField key) h := by
  obtain ⟨⟨c, hc⟩, describes, named⟩ := catalog_ok catalogued
  have complete := Synthesis.complete_mapper a.host c.name named
  have synthesized : synthesize p₀ types a.host = .ok (Synthesis.mapper a.host c.name fields) := by
    rw [synthesize_of_class hc, catalogued]
    rfl
  refine ⟨Catalog.map_name describes, c, _, hc, synthesized, complete, fun p₁ p₂ attached => ?_⟩
  refine ⟨locate_of_inject synthesized attached, fun ctx grown => ⟨fun k f hf => ?_, ?_⟩⟩
  · have hcapitalized := named.capitalized f (List.mem_of_getElem? hf)
    have hsetter : (Synthesis.typedSet (.ofName c.name) f).name = Naming.setter f.name := by
      rw [Naming.setter, ← hcapitalized]
      rfl
    have hgetter : (Synthesis.typedGet (.ofName c.name) f).name = Naming.getter f.name := by
      rw [Naming.getter, ← hcapitalized]
      rfl
    obtain ⟨hset, hget⟩ := complete.typed k f hf
    have foundSetter := findMethod_of_inject attached grown complete.distinct hset
    have foundGetter := findMethod_of_inject attached grown complete.distinct hget
    rw [hsetter, ← Nat.add_assoc] at foundSetter
    rw [hgetter, ← Nat.add_assoc] at foundGetter
    exact ⟨foundSetter.1, foundSetter.2, foundGetter.1, foundGetter.2⟩
  · intro h instance_ key haccepts hnone
    have serves := serves_of_inject named attached grown
    exact serves.unknownField hnone (by decide) haccepts

/-- The capitalized name of a field is no key. -/
theorem person_capital_unknown :
    let p := (personFile.toProgram.attachMapper 0 (Synthesis.mapper 0 "Person" personFields)).1
    let h : Heap := ⟨[⟨0, "Person", [("age", .int64 41), ("tags", .null)]⟩], []⟩
    ((⟨0, 7⟩ : Accessor).get (.ofProgram p) (.object 0) "Age").run h =
      .error (.unknownField "Age") h ∧
      ((⟨0, 7⟩ : Accessor).set (.ofProgram p) (.object 0) "Age" .null).run h =
        .error (.unknownField "Age") h := by
  intro p h
  have catalogued : catalog personFile.toProgram (.ofProgram personFile.toProgram) 0 =
    .ok personFields := rfl
  obtain ⟨-, c, m, hc, hm, -, behind⟩ := dispatch_tables_complete (a := ⟨0, 7⟩) catalogued
  have hname : c.name = "Person" := congrArg ClassDecl.name (Option.some.inj hc.symm)
  have hmapper : m = Synthesis.mapper 0 "Person" personFields := Except.ok.inj hm.symm
  have attached : personFile.toProgram.inject 0 (Synthesis.mapper 0 "Person" personFields) =
      .ok (p, .injected 7) := rfl
  rw [hname, hmapper] at behind
  obtain ⟨-, calls⟩ := behind _ p attached
  have unknown := (calls (.ofProgram p) (.refl p)).2 h (.object 0) "Age" rfl (by decide)
  exact ⟨unknown.1, unknown.2 .null⟩

end FieldAccess
