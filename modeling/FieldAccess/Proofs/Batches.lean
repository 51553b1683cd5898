import FieldAccess.Batch
import FieldAccess.Proofs.Agreement

/-! A batch run gives accessor types to classes and changes nothing else that can be seen: fields,
methods and subtyping stay, so that every catalog is the one from before the run. Each accessor type
is the one made for the class by itself, whatever happened to the others. -/
namespace FieldAccess

/-! ### Subtyping -/

namespace Hierarchy

/-- Two hierarchies with the same links, apart from names that have none. -/
structure Agrees (a b : Hierarchy) : Prop where
  parents : ∀ name, a.parents name = b.parents name
  edgeCount : a.edgeCount = b.edgeCount

theorem Agrees.refl (a : Hierarchy) : a.Agrees a := ⟨fun _ => rfl, rfl⟩

theorem Agrees.trans {a b c : Hierarchy} (hab : a.Agrees b) (hbc : b.Agrees c) : a.Agrees c :=
  ⟨fun name => (hab.parents name).trans (hbc.parents name), hab.edgeCount.trans hbc.edgeCount⟩

theorem Agrees.search {a b : Hierarchy} (h : a.Agrees b) (goal : String) (fuel : Nat)
    (seen pending : List String) :
    a.search goal fuel seen pending = b.search goal fuel seen pending := by
  induction fuel generalizing seen pending with
  | zero => rfl
  | succ fuel ih =>
    cases pending with
    | nil => rfl
    | cons name pending => simp only [Hierarchy.search, ih, h.parents]

theorem Agrees.isSubtype {a b : Hierarchy} (h : a.Agrees b) (sub sup : String) :
    a.isSubtype sub sup = b.isSubtype sub sup := by
  rw [Hierarchy.isSubtype, Hierarchy.isSubtype, h.edgeCount, h.search]

theorem Agrees.isSequence {a b : Hierarchy} (h : a.Agrees b) (t : TypeDesc) :
    a.isSequence t = b.isSequence t := by
  unfold Hierarchy.isSequence isAssignable
  simp only [h.isSubtype]

theorem agrees_declareIn (name : String) (entries : List (String × List String)) :
    (⟨declareIn name [] entries⟩ : Hierarchy).Agrees ⟨entries⟩ := by
  induction entries with
  | nil =>
    refine ⟨fun other => ?_, rfl⟩
    by_cases h : name = other <;> simp [parents, parentsIn, declareIn, merge, h]
  | cons e rest ih =>
    obtain ⟨n, known⟩ := e
    by_cases hn : n = name
    · simp only [declareIn, if_pos hn, merge, List.foldl_nil]
      exact .refl _
    · simp only [declareIn, if_neg hn]
      refine ⟨fun other => ?_, ?_⟩
      · have hrest := ih.parents other
        simp only [parents] at hrest
        simp only [parents, parentsIn, hrest]
      · have hrest := ih.edgeCount
        simp only [edgeCount] at hrest
        simp only [edgeCount, List.foldr_cons, hrest]

/-- A name without supertypes adds no link. -/
theorem agrees_declare (types : Hierarchy) (name : String) : (types.declare name []).Agrees types :=
  agrees_declareIn name types.entries

end Hierarchy

namespace Program

/-- What subtyping reads of a node. -/
def typing? (n : Node) : Option (String × List String) :=
  n.asClass?.map fun c => (c.name, c.supertypes.filterMap TypeDesc.name?)

theorem ofProgram_eq (p : Program) :
    Hierarchy.ofProgram p =
      (p.nodes.filterMap fun e => typing? e.node).foldl (fun types d => types.declare d.1 d.2)
        Hierarchy.builtin := by
  have hclasses : p.classes.map (fun c => (c.2.name, c.2.supertypes.filterMap TypeDesc.name?)) =
      p.nodes.filterMap fun e => typing? e.node := by
    have hzip : p.nodes = p.nodes.zipIdx.map Prod.fst := by simp
    rw [classes, indexed, List.filterMap_map, List.map_filterMap]
    conv_rhs => rw [hzip, List.filterMap_map]
    congr 1
    funext x
    simp only [Function.comp_def, typing?, Option.map_map]
  rw [← hclasses, List.foldl_map]
  rfl

theorem filterMap_modify {α β : Type} (g : α → Option β) (f : α → α) (hg : ∀ a, g (f a) = g a)
    (l : List α) (i : Nat) : (l.modify i f).filterMap g = l.filterMap g := by
  induction l generalizing i with
  | nil => cases i <;> rfl
  | cons a l ih =>
    cases i with
    | zero => simp [List.filterMap_cons, hg]
    | succ i => simp [List.filterMap_cons, ih]

theorem typings_attach (p : Program) (owner : NodeId) (n : Node) :
    ((p.attach owner n).1.nodes.filterMap fun e => typing? e.node) =
      (p.nodes.filterMap fun e => typing? e.node) ++ (typing? n).toList := by
  simp only [attach, modifyClass]
  rw [filterMap_modify]
  · cases h : typing? n <;> simp [h]
  · intro e
    cases hn : e.node with
    | cls c => simp [typing?, Node.asClass?]
    | field f => simp [hn]
    | method m => simp [hn]

theorem typings_attachAll (p : Program) (owner : NodeId) {ns : List Node}
    (hns : ∀ n ∈ ns, n.asClass? = none) :
    ((p.attachAll owner ns).nodes.filterMap fun e => typing? e.node) =
      p.nodes.filterMap fun e => typing? e.node := by
  induction ns generalizing p with
  | nil => rfl
  | cons n ns ih =>
    have hnone : typing? n = none := by simp [typing?, hns n List.mem_cons_self]
    rw [attachAll_cons, ih _ fun n hn => hns n (List.mem_cons_of_mem _ hn), typings_attach, hnone]
    exact List.append_nil _

theorem types_attachMapper (p : Program) (host : NodeId) (m : MapperSpec) :
    (Hierarchy.ofProgram (p.attachMapper host m).1).Agrees (.ofProgram p) := by
  have hmethods : ∀ n ∈ m.methods.map (fun s => Node.method s.toDecl), n.asClass? = none := by
    intro n hn
    obtain ⟨s, _, rfl⟩ := List.mem_map.mp hn
    rfl
  rw [attachMapper_eq, ofProgram_eq, typings_attachAll _ _ hmethods, typings_attach,
    List.foldl_append, ← ofProgram_eq]
  exact Hierarchy.agrees_declare _ _

end Program

/-! ### Catalogs -/

/-- A catalog depends on the name of its class, its fields and its methods for objects, and on which
types are sequences. -/
theorem catalog_congr {p q : Program} {types types' : Hierarchy} {id : NodeId} {c d : ClassDecl}
    (hc : p.class? id = some c) (hd : q.class? id = some d) (hname : d.name = c.name)
    (hfields : q.fieldsOf id = p.fieldsOf id)
    (hmethods : ∀ name arity,
      Catalog.instanceMethods q id name arity = Catalog.instanceMethods p id name arity)
    (htypes : types'.Agrees types) : catalog q types' id = catalog p types id := by
  have hgetter : ∀ f, Catalog.getter? q id f = (Catalog.getter? p id f).map fun k => k := by
    intro f
    rw [Catalog.getter?, Catalog.getter?, hmethods, Option.map_id']
  have hsetter : ∀ f, Catalog.setter? q id f = (Catalog.setter? p id f).map fun k => k := by
    intro f
    rw [Catalog.setter?, Catalog.setter?, hmethods, Option.map_id']
  have hsame := Catalog.catalog_rename hgetter hsetter htypes.isSequence hc hd hname
    (by simpa using hfields)
  rw [hsame]
  cases catalog p types id with
  | error errors => rfl
  | ok fields => exact congrArg Except.ok (List.map_id fields)

/-! ### Runs -/

namespace Program

/-- `q` is `p` after some of its classes have been given an accessor type: fields, methods and
subtyping of `p` are as before, and a nested type of the reserved name is the one made for its
class. -/
structure Served (p q : Program) : Prop where
  grown : p.Extends q
  closed : q.Closed
  types : (Hierarchy.ofProgram q).Agrees (.ofProgram p)
  fields : ∀ id : Nat, id < p.size → q.fieldsOf id = p.fieldsOf id
  methods : ∀ id : Nat, id < p.size → q.methodsOf id = p.methodsOf id
  reserved : ∀ (id nested : Nat) (origin : Origin), q.findReserved? id = some (nested, origin) →
    id < p.size ∧ p.size ≤ nested ∧ ∃ c fields, p.class? id = some c ∧
      catalog p (.ofProgram p) id = .ok fields ∧
      (q.methodsOf nested).map Prod.snd =
        (Synthesis.mapper id c.name fields).methods.map MethodSpec.toDecl

theorem Served.refl {p : Program} (closed : p.Closed) (hnone : ∀ id, p.findReserved? id = none) :
    p.Served p := by
  refine ⟨.refl p, closed, .refl _, fun _ _ => rfl, fun _ _ => rfl, ?_⟩
  intro id nested origin h
  rw [hnone id] at h
  cases h

section AttachMapper
variable {p : Program} {host : Nat} {m : MapperSpec}

/-- Members of a class other than the host. -/
theorem membersAs_attachMapper_of_ne {α : Type} {kind : Node → Option α} (stable : Stable kind)
    (closed : p.Closed) {id : Nat} (hne : id ≠ host) (hid : id < p.size) :
    membersAs kind (p.attachMapper host m).1 id = membersAs kind p id := by
  have hnode := node?_attachMapper_of_ne (m := m) hne hid
  cases hc : p.class? id with
  | none =>
    have hc' : (p.attachMapper host m).1.class? id = none := by rw [class?, hnode]; exact hc
    simp [membersAs, members, hc, hc']
  | some c =>
    have hc' : (p.attachMapper host m).1.class? id = some c := by rw [class?, hnode]; exact hc
    have happend := (p.extends_attachMapper host m).membersAs_append stable hc (closed id c hc) hc'
      (List.append_nil c.members).symm
    rw [happend]
    exact List.append_nil _

/-- The host gets one member more, which is a class. -/
theorem membersAs_attachMapper_host {α : Type} {kind : Node → Option α} (stable : Stable kind)
    (hkind : ∀ c, kind (.cls c) = none) (closed : p.Closed) {c : ClassDecl}
    (hc : p.class? host = some c) :
    membersAs kind (p.attachMapper host m).1 host = membersAs kind p host := by
  have hnew := class?_eq_some_iff.mp (class?_attachMapper_new (m := m) (lt_size_of_class? hc))
  rw [(p.extends_attachMapper host m).membersAs_append stable hc (closed host c hc)
    (class?_attachMapper_host hc) rfl]
  simp [hnew, hkind]

theorem membersAs_attachMapper {α : Type} {kind : Node → Option α} (stable : Stable kind)
    (hkind : ∀ c, kind (.cls c) = none) (closed : p.Closed) {c : ClassDecl}
    (hc : p.class? host = some c) {id : Nat} (hid : id < p.size) :
    membersAs kind (p.attachMapper host m).1 id = membersAs kind p id := by
  by_cases h : id = host
  · subst h
    exact membersAs_attachMapper_host stable hkind closed hc
  · exact membersAs_attachMapper_of_ne stable closed h hid

/-- What stands behind the new type are its methods. -/
theorem class?_attachMapper_beyond {k : Nat} (hk : p.size < k) :
    (p.attachMapper host m).1.class? k = none := by
  cases hc : (p.attachMapper host m).1.class? k with
  | none => rfl
  | some d =>
    have hsize := size_attachMapper p host m
    have hlt := lt_size_of_class? hc
    obtain ⟨j, rfl⟩ := Nat.exists_eq_add_of_le (show p.size + 1 ≤ k by omega)
    have hj : j < m.methods.length := by omega
    rw [class?_eq_some_iff, node?_attachMapper_method hj, List.getElem?_eq_getElem hj] at hc
    cases hc

theorem closed_attachMapper (closed : p.Closed) {c : ClassDecl} (hc : p.class? host = some c) :
    (p.attachMapper host m).1.Closed := by
  have hsize := size_attachMapper p host m
  have hlt := lt_size_of_class? hc
  intro id d hd k hk
  rcases Nat.lt_trichotomy id p.size with hid | rfl | hid
  · by_cases hne : id = host
    · subst hne
      rw [class?_attachMapper_host hc, Option.some.injEq] at hd
      subst hd
      rcases List.mem_append.mp hk with hk | hk
      · exact Nat.lt_of_lt_of_le (closed id c hc k hk) (by omega)
      · rw [List.mem_singleton.mp hk, hsize]
        exact Nat.lt_of_lt_of_le (Nat.lt_succ_self _) (Nat.le_add_right _ _)
    · rw [class?, node?_attachMapper_of_ne hne hid] at hd
      exact Nat.lt_of_lt_of_le (closed id d hd k hk) (by omega)
  · rw [class?_attachMapper_new hlt, Option.some.injEq] at hd
    subst hd
    obtain ⟨j, hj, rfl⟩ := List.mem_range'.mp hk
    rw [Nat.one_mul, hsize]
    exact Nat.add_lt_add_left hj _
  · rw [class?_attachMapper_beyond hid] at hd
    cases hd

theorem findReserved?_attachMapper_of_ne (closed : p.Closed) {c : ClassDecl}
    (hc : p.class? host = some c) {id : Nat} (hne : id ≠ host) {found : NodeId × Origin}
    (h : (p.attachMapper host m).1.findReserved? id = some found) :
    id < p.size ∧ p.findReserved? id = some found := by
  have hlt := lt_size_of_class? hc
  rcases Nat.lt_trichotomy id p.size with hid | rfl | hid
  · rw [findReserved?_eq, membersAs_attachMapper_of_ne stable_headerOf? closed hne hid,
      ← findReserved?_eq] at h
    exact ⟨hid, h⟩
  · -- the new type has methods only
    exfalso
    have hmembers : (membersAs headerOf? (p.attachMapper host m).1 p.size).map Prod.snd =
        (m.methods.map fun s => Node.method s.toDecl).filterMap headerOf? := by
      refine membersAs_of_range headerOf? (class?_attachMapper_new hlt)
        (by rw [List.length_map]) ?_
      intro k hk
      rw [List.length_map] at hk
      rw [node?_attachMapper_method hk, List.getElem?_map]
    have hempty : (m.methods.map fun s => Node.method s.toDecl).filterMap headerOf? = [] := by
      rw [List.filterMap_eq_nil_iff]
      intro n hn
      obtain ⟨s, _, rfl⟩ := List.mem_map.mp hn
      rfl
    rw [hempty, List.map_eq_nil_iff] at hmembers
    rw [findReserved?_eq, hmembers] at h
    cases h
  · simp [findReserved?, nestedOf, members, class?_attachMapper_beyond hid] at h

end AttachMapper

theorem lt_size_of_findReserved? {q : Program} {id nested : Nat} {origin : Origin}
    (h : q.findReserved? id = some (nested, origin)) : nested < q.size := by
  rw [findReserved?_eq] at h
  obtain ⟨x, hx, heq⟩ := Option.map_eq_some_iff.mp h
  obtain ⟨n, hn, _⟩ := mem_membersAs (List.mem_of_find?_eq_some hx)
  obtain ⟨rfl, rfl⟩ := Prod.mk.injEq .. ▸ heq
  exact lt_size_of_node? hn

namespace Served

variable {p q : Program} (served : p.Served q)
include served

/-- A catalog says the same before and after. -/
theorem catalog_eq {id : Nat} {c : ClassDecl} (hc : p.class? id = some c) {types : Hierarchy}
    (htypes : types.Agrees (.ofProgram p)) :
    catalog q types id = catalog p (.ofProgram p) id := by
  obtain ⟨d, hd, hx⟩ := served.grown.class? hc
  have hid := lt_size_of_class? hc
  refine catalog_congr hc hd hx.name (served.fields id hid) ?_ htypes
  intro name arity
  rw [Catalog.instanceMethods, Catalog.instanceMethods, served.methods id hid]

/-- One more class is given the type that is made for it. -/
theorem attachMapper {host : Nat} {c : ClassDecl} (hc : p.class? host = some c)
    {fields : List FieldDesc} (hcatalog : catalog p (.ofProgram p) host = .ok fields)
    (hnone : q.findReserved? host = none) :
    p.Served (q.attachMapper host (Synthesis.mapper host c.name fields)).1 := by
  obtain ⟨d, hd, _⟩ := served.grown.class? hc
  have hhost := lt_size_of_class? hc
  have hsize := served.grown.size_le
  refine ⟨served.grown.trans (q.extends_attachMapper host _), closed_attachMapper served.closed hd,
    (types_attachMapper q host _).trans served.types, ?_, ?_, ?_⟩
  · intro id hid
    rw [fieldsOf_eq_membersAs,
      membersAs_attachMapper stable_asField? (fun _ => rfl) served.closed hd (by omega)]
    exact served.fields id hid
  · intro id hid
    rw [methodsOf_eq_membersAs,
      membersAs_attachMapper stable_asMethod? (fun _ => rfl) served.closed hd (by omega)]
    exact served.methods id hid
  · intro id nested origin h
    by_cases hne : id = host
    · subst hne
      rw [findReserved?_attachMapper hd rfl hnone, Option.some.injEq, Prod.mk.injEq] at h
      obtain ⟨rfl, _⟩ := h
      exact ⟨hhost, hsize, c, fields, hc, hcatalog, methodsOf_attachMapper_new (by omega)⟩
    · obtain ⟨_, hold⟩ := findReserved?_attachMapper_of_ne served.closed hd hne h
      obtain ⟨hid, hnested, c', fields', hc', hcatalog', hmethods⟩ :=
        served.reserved id nested origin hold
      refine ⟨hid, hnested, c', fields', hc', hcatalog', ?_⟩
      rw [methodsOf_eq_membersAs,
        membersAs_attachMapper stable_asMethod? (fun _ => rfl) served.closed hd
        (lt_size_of_findReserved? hold)]
      exact hmethods

end Served

theorem inject_alreadyPresent {p q : Program} {host existing : NodeId} {origin : Origin}
    {m : MapperSpec} (h : p.inject host m = .ok (q, .alreadyPresent existing origin)) : q = p := by
  unfold inject at h
  cases hc : p.expectClass host with
  | error e => rw [hc] at h; cases h
  | ok c =>
    simp only [hc] at h
    split at h
    · cases h
    · split at h
      · simp only [Except.ok.injEq, Prod.mk.injEq] at h
        exact h.1.symm
      · cases h

theorem class?_of_mem_classes {p : Program} {id : NodeId} {c : ClassDecl}
    (h : (id, c) ∈ p.classes) : p.class? id = some c := by
  obtain ⟨⟨id', n⟩, hn, hc⟩ := List.mem_filterMap.mp h
  obtain ⟨⟨e, i⟩, hi, heq⟩ := List.mem_map.mp hn
  obtain ⟨rfl, rfl⟩ := Prod.mk.injEq .. ▸ heq
  have hnode : p.nodes[i]? = some e := List.mk_mem_zipIdx_iff_getElem?.mp hi
  obtain ⟨c', hc', heq'⟩ := Option.map_eq_some_iff.mp hc
  obtain ⟨rfl, rfl⟩ := Prod.mk.injEq .. ▸ heq'
  simp [class?, node?, hnode, hc']

end Program

namespace Batch

/-- What a step does to the program: nothing, or it attaches the type made for the class. -/
theorem step_program (types : Hierarchy) (b : Batch) (id : NodeId) :
    (step types b id).program = b.program ∨
      ∃ m, synthesize b.program types id = .ok m ∧ b.program.findReserved? id = none ∧
        (step types b id).program = (b.program.attachMapper id m).1 := by
  by_cases hempty : (b.program.fieldsOf id).isEmpty
  · exact Or.inl (by simp [step, hempty])
  cases hs : synthesize b.program types id with
  | error errors => exact Or.inl (by simp [step, hempty, hs])
  | ok m =>
    cases hi : b.program.inject id m with
    | error e => exact Or.inl (by simp [step, hempty, hs, hi])
    | ok result =>
      obtain ⟨q, outcome⟩ := result
      cases outcome with
      | injected nested =>
        obtain ⟨_, hnone, rfl, _⟩ := Program.inject_injected hi
        exact Or.inr ⟨m, rfl, hnone, by simp [step, hempty, hs, hi]⟩
      | alreadyPresent existing origin =>
        obtain rfl := Program.inject_alreadyPresent hi
        exact Or.inl (by simp [step, hempty, hs, hi])

theorem step_served {p : Program} {b : Batch} (served : p.Served b.program) {id : Nat}
    {c : ClassDecl} (hc : p.class? id = some c) :
    p.Served (step (.ofProgram p) b id).program := by
  rcases step_program (.ofProgram p) b id with heq | ⟨m, hs, hnone, heq⟩
  · rw [heq]
    exact served
  · obtain ⟨fields, d, hcatalog, hd, rfl⟩ := synthesize_ok hs
    obtain ⟨d', hd', hx⟩ := served.grown.class? hc
    rw [hd, Option.some.injEq] at hd'
    subst hd'
    rw [served.catalog_eq hc (.refl _)] at hcatalog
    rw [heq, hx.name]
    exact served.attachMapper hc hcatalog hnone

theorem run_served {p : Program} (closed : p.Closed) (hnone : ∀ id, p.findReserved? id = none)
    (inline : Bool) : p.Served (run inline p).program := by
  have hfold : ∀ (ids : List NodeId) (b : Batch), (∀ id ∈ ids, ∃ c, p.class? id = some c) →
      p.Served b.program → p.Served (ids.foldl (step (.ofProgram p)) b).program := by
    intro ids
    induction ids with
    | nil => intro b _ served; exact served
    | cons id ids ih =>
      intro b hids served
      obtain ⟨c, hc⟩ := hids id List.mem_cons_self
      exact ih _ (fun id hid => hids id (List.mem_cons_of_mem _ hid)) (step_served served hc)
  have hstart : p.Served p := .refl closed hnone
  cases inline with
  | false => exact hstart
  | true =>
    refine hfold (candidates p) _ ?_ hstart
    intro id hid
    obtain ⟨⟨id', c⟩, hmem, rfl⟩ := List.mem_map.mp hid
    exact ⟨c, Program.class?_of_mem_classes (List.mem_filter.mp hmem).1⟩

end Batch

/-- The accessor type has the methods made for the fields, and no others. -/
structure Accessor.ServesOnly (a : Accessor) (p : Program) (hostName : String)
    (fields : List FieldDesc) : Prop where
  named : WellNamed fields
  methods : (p.methodsOf a.mapper).map Prod.snd =
    (Synthesis.mapper a.host hostName fields).methods.map MethodSpec.toDecl

theorem Accessor.ServesOnly.serves {a : Accessor} {p : Program} {hostName : String}
    {fields : List FieldDesc} (h : a.ServesOnly p hostName fields) : a.Serves p hostName fields :=
  ⟨h.named, h.methods ▸ List.prefix_rfl⟩

namespace Accessor.ServesOnly

variable {a : Accessor} {ctx : Context} {hostName : String} {fields : List FieldDesc}

/-- A call by name fails at once unless there is a method of the name for so many arguments. -/
theorem callAt_cases (only : a.ServesOnly ctx.program hostName fields) (depth : Nat) (name : String)
    (args : List Value) (h : Heap) :
    (∃ e, (a.callAt ctx depth name args).run h = .error e h) ∨
      ∃ s ∈ (Synthesis.mapper a.host hostName fields).methods,
        s.name = name ∧ s.params.length = args.length := by
  cases hfind : (ctx.program.methodsOf a.mapper).find? (fun m => m.2.name == name) with
  | none =>
    refine Or.inl ?_
    cases hc : ctx.program.class? a.mapper with
    | none =>
      exact ⟨.notAClass a.mapper,
        Action.bind_of_error (Action.query_of_error (by simp [Program.findMethod, hc])) _⟩
    | some c =>
      exact ⟨.noSuchMethod c.name name,
        Action.bind_of_error (Action.query_of_error (by simp [Program.findMethod, hc, hfind])) _⟩
  | some found =>
    obtain ⟨id, decl⟩ := found
    have hmem := List.mem_of_find?_eq_some hfind
    have hdecl : decl ∈ (ctx.program.methodsOf a.mapper).map Prod.snd :=
      List.mem_map.mpr ⟨_, hmem, rfl⟩
    rw [only.methods] at hdecl
    obtain ⟨s, hs, rfl⟩ := List.mem_map.mp hdecl
    have hname : s.toDecl.name = name := by simpa using List.find?_some hfind
    by_cases hl : s.params.length = args.length
    · exact Or.inr ⟨s, hs, hname, hl⟩
    · refine Or.inl ?_
      have hm := Program.method?_of_mem_methodsOf hmem
      obtain ⟨c, hc⟩ : ∃ c, ctx.program.class? a.mapper = some c := by
        cases hc : ctx.program.class? a.mapper with
        | none => simp [Program.methodsOf, Program.members, hc] at hmem
        | some c => exact ⟨c, rfl⟩
      have hid : ctx.program.findMethod a.mapper name = .ok id := by
        simp [Program.findMethod, hc, hfind]
      have hcall := Action.invoke_arity hm (Action.maxCallDepth - depth) none
        (show args.length ≠ s.toDecl.params.length from Ne.symm hl)
      refine ⟨.arityMismatch s.name s.params.length args.length, ?_⟩
      rw [Accessor.callAt, Action.bind_of_ok (Action.query_of_ok hid), Action.invokeAt, hcall]
      rfl

/-- A method of an accessor type is one of the dynamic pair or of the pair of a field. -/
theorem mem_methods {host : NodeId} {s : MethodSpec}
    (h : s ∈ (Synthesis.mapper host hostName fields).methods) :
    s = Synthesis.dynamicSet (.ofName hostName) fields ∨
      s = Synthesis.dynamicGet (.ofName hostName) fields ∨
      ∃ f ∈ fields, s = Synthesis.typedSet (.ofName hostName) f ∨
        s = Synthesis.typedGet (.ofName hostName) f := by
  simpa [Synthesis.mapper] using h

/-- A typed call with a name of one's own fails or is the one of a field. -/
theorem setTypedAt_cases (only : a.ServesOnly ctx.program hostName fields) (depth : Nat)
    (instance_ : Value) (name : String) (v : Value) (h : Heap) :
    (∃ e, (a.setTypedAt ctx depth instance_ name v).run h = .error e h) ∨
      ∃ f ∈ fields, Naming.setter name = Naming.setter f.name := by
  rcases only.callAt_cases depth (Naming.setter name) [instance_, v] h with
    ⟨e, he⟩ | ⟨s, hs, hname, hlength⟩
  · exact Or.inl ⟨e, Action.bind_of_error he _⟩
  · refine Or.inr ?_
    rcases mem_methods hs with rfl | rfl | ⟨f, hf, rfl | rfl⟩
    · cases hlength
    · exact absurd hname.symm (Naming.set_append_ne_get_append _ "")
    · refine ⟨f, hf, hname.symm.trans ?_⟩
      rw [Naming.setter, ← only.named.capitalized f hf]
      rfl
    · cases hlength

theorem getTypedAt_cases (only : a.ServesOnly ctx.program hostName fields) (depth : Nat)
    (instance_ : Value) (name : String) (h : Heap) :
    (∃ e, (a.getTypedAt ctx depth instance_ name).run h = .error e h) ∨
      ∃ f ∈ fields, Naming.getter name = Naming.getter f.name := by
  rcases only.callAt_cases depth (Naming.getter name) [instance_] h with
    ⟨e, he⟩ | ⟨s, hs, hname, hlength⟩
  · exact Or.inl ⟨e, he⟩
  · refine Or.inr ?_
    rcases mem_methods hs with rfl | rfl | ⟨f, hf, rfl | rfl⟩
    · cases hlength
    · cases hlength
    · cases hlength
    · refine ⟨f, hf, hname.symm.trans ?_⟩
      rw [Naming.getter, ← only.named.capitalized f hf]
      rfl

end Accessor.ServesOnly

/-- An accessor type that is found in a program after a run. -/
theorem Program.Served.locate {p q : Program} (served : p.Served q) {host : NodeId} {a : Accessor}
    (h : Accessor.locate q host = .ok a) :
    a.host = host ∧ ∃ c fields, p.class? host = some c ∧
    catalog q (.ofProgram q) host = .ok fields ∧
      a.ServesOnly q c.name fields := by
  unfold Accessor.locate at h
  cases hd : q.class? host with
  | none => rw [hd] at h; cases h
  | some d =>
    simp only [hd] at h
    cases hr : q.findReserved? host with
    | none => rw [hr] at h; cases h
    | some found =>
      obtain ⟨nested, origin⟩ := found
      simp only [hr, Except.ok.injEq] at h
      subst h
      obtain ⟨_, _, c, fields, hc, hcatalog, hmethods⟩ := served.reserved host nested origin hr
      refine ⟨rfl, c, fields, hc, ?_, (catalog_ok hcatalog).2.2, hmethods⟩
      rw [served.catalog_eq hc served.types]
      exact hcatalog

end FieldAccess
