import FieldAccess.Proofs.ClassFiles

/-! Where the accessors of a class file stand. Every field is followed by the accessors made for it,
and the declared methods come last. A catalog takes the accessor made for the field, whatever
methods of the same name are declared, and takes a declared one only where none was made. -/
namespace FieldAccess

/-- An entry of a list of blocks lies in one of the blocks. -/
theorem getElem?_flatMap_cases {α β : Type} {f : α → List β} {l : List α} {i : Nat} {b : β}
    (h : (l.flatMap f)[i]? = some b) :
    ∃ k a o, l[k]? = some a ∧ (f a)[o]? = some b ∧ i = ((l.take k).flatMap f).length + o := by
  induction l generalizing i with
  | nil => simp at h
  | cons a l ih =>
    rw [List.flatMap_cons] at h
    rcases Nat.lt_or_ge i (f a).length with hlt | hge
    · rw [List.getElem?_append_left hlt] at h
      exact ⟨0, a, i, rfl, h, by simp⟩
    · rw [List.getElem?_append_right hge] at h
      obtain ⟨k, a', o, hk, ho, hi⟩ := ih h
      refine ⟨k + 1, a', o, hk, ho, ?_⟩
      rw [List.take_succ_cons, List.flatMap_cons, List.length_append]
      omega

/-- The setter of a field stands behind its getter, if it has one. -/
def FieldDef.setterOffset (fd : FieldDef) : Nat := if fd.accessors.hasGetter then 2 else 1

theorem FieldDef.getElem?_nodes {fd : FieldDef} {o : Nat} {n : Node} (h : fd.nodes[o]? = some n) :
    (o = 0 ∧ n = .field fd.decl) ∨
      (o = 1 ∧ n = .method (.getterOf fd.name fd.type)) ∨
        (o = fd.setterOffset ∧ n = .method (.setterOf fd.name fd.type)) := by
  unfold FieldDef.nodes at h
  unfold FieldDef.setterOffset
  cases o with
  | zero => exact .inl ⟨rfl, (Option.some.inj h).symm⟩
  | succ o =>
    rw [List.getElem?_cons_succ] at h
    cases hg : fd.accessors.hasGetter <;> cases hs : fd.accessors.hasSetter <;> rw [hg, hs] at h
    · cases h
    · obtain ⟨rfl, rfl⟩ : o = 0 ∧ .method (.setterOf fd.name fd.type) = n := by
        simpa [List.getElem?_singleton] using h
      exact .inr (.inr ⟨rfl, rfl⟩)
    · obtain ⟨rfl, rfl⟩ : o = 0 ∧ .method (.getterOf fd.name fd.type) = n := by
        simpa [List.getElem?_singleton] using h
      exact .inr (.inl ⟨rfl, rfl⟩)
    · match o, h with
      | 0, h => exact .inr (.inl ⟨rfl, (Option.some.inj h).symm⟩)
      | 1, h => exact .inr (.inr ⟨rfl, (Option.some.inj h).symm⟩)

theorem MethodDef.node_ne {d : MethodDecl} {body : Block} (h : d.body = some body) (m : MethodDef) :
    .method d ≠ m.node := by
  intro heq
  have hnone := congrArg MethodDecl.body (Node.method.inj heq)
  rw [h] at hnone
  cases hnone

namespace ClassDef

/-- Place of a field, for a class that stands at `host`. -/
def fieldPlace (c : ClassDef) (host k : Nat) : Nat :=
  host + 1 + ((c.fields.take k).flatMap FieldDef.nodes).length

/-- Place of a declared method. -/
def methodPlace (c : ClassDef) (host k : Nat) : Nat :=
  host + 1 + (c.fields.flatMap FieldDef.nodes).length + k

theorem getElem?_nodes {c : ClassDef} {i : Nat} {n : Node} (h : c.nodes[i]? = some n) (host : Nat) :
    (∃ k fd o, c.fields[k]? = some fd ∧ fd.nodes[o]? = some n ∧
      host + 1 + i = c.fieldPlace host k + o) ∨
      ∃ k m, c.methods[k]? = some m ∧ n = m.node ∧ host + 1 + i = c.methodPlace host k := by
  rw [ClassDef.nodes] at h
  rcases Nat.lt_or_ge i (c.fields.flatMap FieldDef.nodes).length with hlt | hge
  · rw [List.getElem?_append_left hlt] at h
    obtain ⟨k, fd, o, hk, ho, rfl⟩ := getElem?_flatMap_cases h
    exact .inl ⟨k, fd, o, hk, ho, (Nat.add_assoc _ _ _).symm⟩
  · rw [List.getElem?_append_right hge, List.getElem?_map] at h
    obtain ⟨m, hm, rfl⟩ := Option.map_eq_some_iff.mp h
    exact .inr ⟨_, m, hm, rfl, by rw [methodPlace]; omega⟩

/-- A method that the class declares, without a body. -/
def Declares (c : ClassDef) (p : Program) (host : Nat) (id : NodeId) : Prop :=
  ∃ k m, c.methods[k]? = some m ∧ id = c.methodPlace host k ∧ p.method? id = some m.decl ∧
  m.decl.body = none

theorem Distinct.index_eq {c : ClassDef} (distinct : c.Distinct) {j k : Nat} {fd fd' : FieldDef}
    (hj : c.fields[j]? = some fd) (hk : c.fields[k]? = some fd')
    (heq : Naming.capitalize fd.name = Naming.capitalize fd'.name) : j = k := by
  have hlt : j < (c.fields.map fun fd => Naming.capitalize fd.name).length := by
    rw [List.length_map]
    exact (List.getElem?_eq_some_iff.mp hj).1
  refine (List.getElem?_inj hlt distinct).mp ?_
  rw [List.getElem?_map, List.getElem?_map, hj, hk]
  exact congrArg some heq

end ClassDef

namespace Program.Places

variable {p : Program} {host : Nat} {c : ClassDef} (places : p.Places host c)
include places

theorem exists_index {α : Type} {kind : Node → Option α} {id : NodeId} {a : α}
    (h : (id, a) ∈ Program.membersAs kind p host) :
    ∃ (i : Nat) (n : Node), id = host + 1 + i ∧ c.nodes[i]? = some n ∧ kind n = some a := by
  rw [membersAs_eq _ places.decl] at h
  obtain ⟨m, hm, hsome⟩ := List.mem_filterMap.mp h
  obtain ⟨j, hj, rfl⟩ := List.mem_range'.mp hm
  rw [Nat.one_mul, places.nodes j hj] at hsome
  obtain ⟨a', ha', heq⟩ := Option.map_eq_some_iff.mp hsome
  obtain ⟨n, hn, hkind⟩ := Option.bind_eq_some_iff.mp ha'
  cases heq
  exact ⟨j, n, rfl, hn, hkind⟩

theorem exists_index_of_field {id : NodeId} {f : FieldDecl} (h : (id, f) ∈ p.fieldsOf host) :
    ∃ i, id = host + 1 + i ∧ c.nodes[i]? = some (.field f) := by
  obtain ⟨i, n, rfl, hn, hkind⟩ := places.exists_index h
  cases n with
  | field f' =>
    cases hkind
    exact ⟨i, rfl, hn⟩
  | cls d => cases hkind
  | method m => cases hkind

theorem exists_index_of_method {id : NodeId} {m : MethodDecl} (h : (id, m) ∈ p.methodsOf host) :
    ∃ i, id = host + 1 + i ∧ c.nodes[i]? = some (.method m) := by
  obtain ⟨i, n, rfl, hn, hkind⟩ := places.exists_index h
  cases n with
  | method m' =>
    cases hkind
    exact ⟨i, rfl, hn⟩
  | cls d => cases hkind
  | field f => cases hkind

omit places in
/-- A node that can only be one of those of a field stands in its block. -/
theorem place_of_own (host : Nat) (distinct : c.Distinct) {k : Nat} {fd : FieldDef}
    (hk : c.fields[k]? = some fd) {i : Nat} {n : Node} (hn : c.nodes[i]? = some n)
    (own : ∀ fd' : FieldDef, n ∈ fd'.nodes → Naming.capitalize fd'.name = Naming.capitalize fd.name)
    (made : ∀ m : MethodDef, n ≠ m.node) :
    ∃ o, fd.nodes[o]? = some n ∧ host + 1 + i = c.fieldPlace host k + o := by
  rcases c.getElem?_nodes hn host with ⟨j, fd', o, hj, ho, hplace⟩ | ⟨j, m, _, rfl, _⟩
  · obtain rfl := distinct.index_eq hj hk (own fd' (List.mem_of_getElem? ho))
    obtain rfl : fd' = fd := Option.some.inj (hj.symm.trans hk)
    exact ⟨o, ho, hplace⟩
  · exact absurd rfl (made m)

theorem place_of_field (distinct : c.Distinct) {k : Nat} {fd : FieldDef}
    (hk : c.fields[k]? = some fd) {id : NodeId}
    (h : (id, fd.decl) ∈ p.fieldsOf host) : id = c.fieldPlace host k := by
  obtain ⟨i, rfl, hn⟩ := places.exists_index_of_field h
  have own : ∀ fd' : FieldDef, .field fd.decl ∈ fd'.nodes →
      Naming.capitalize fd'.name = Naming.capitalize fd.name := by
    intro fd' hmem
    rcases FieldDef.mem_nodes hmem with heq | heq | heq
    · have hname : fd.name = fd'.name := congrArg Node.name heq
      rw [hname]
    · cases heq
    · cases heq
  obtain ⟨o, ho, hplace⟩ := place_of_own host distinct hk hn own fun m heq => Node.noConfusion heq
  rcases FieldDef.getElem?_nodes ho with ⟨rfl, _⟩ | ⟨_, hm⟩ | ⟨_, hm⟩
  · exact hplace
  · cases hm
  · cases hm

theorem place_of_getter (distinct : c.Distinct) {k : Nat} {fd : FieldDef}
    (hk : c.fields[k]? = some fd) {id : NodeId}
    (h : (id, .getterOf fd.name fd.type) ∈ p.methodsOf host) :
    id = c.fieldPlace host k + 1 := by
  obtain ⟨i, rfl, hn⟩ := places.exists_index_of_method h
  have own : ∀ fd' : FieldDef, .method (.getterOf fd.name fd.type) ∈ fd'.nodes →
      Naming.capitalize fd'.name = Naming.capitalize fd.name := by
    intro fd' hmem
    rcases FieldDef.mem_nodes hmem with heq | heq | heq
    · cases heq
    · exact (Naming.getter_inj.mp (congrArg Node.name heq)).symm
    · exact absurd (congrArg Node.name heq).symm (Naming.setter_ne_getter _ _)
  obtain ⟨o, ho, hplace⟩ := place_of_own host distinct hk hn own (MethodDef.node_ne rfl)
  rcases FieldDef.getElem?_nodes ho with ⟨_, hm⟩ | ⟨rfl, _⟩ | ⟨_, hm⟩
  · cases hm
  · exact hplace
  · exact absurd (congrArg Node.name hm).symm (Naming.setter_ne_getter _ _)

theorem place_of_setter (distinct : c.Distinct) {k : Nat} {fd : FieldDef}
    (hk : c.fields[k]? = some fd) {id : NodeId}
    (h : (id, .setterOf fd.name fd.type) ∈ p.methodsOf host) :
    id = c.fieldPlace host k + fd.setterOffset := by
  obtain ⟨i, rfl, hn⟩ := places.exists_index_of_method h
  have own : ∀ fd' : FieldDef, .method (.setterOf fd.name fd.type) ∈ fd'.nodes →
      Naming.capitalize fd'.name = Naming.capitalize fd.name := by
    intro fd' hmem
    rcases FieldDef.mem_nodes hmem with heq | heq | heq
    · cases heq
    · exact absurd (congrArg Node.name heq) (Naming.setter_ne_getter _ _)
    · exact (Naming.setter_inj.mp (congrArg Node.name heq)).symm
  obtain ⟨o, ho, hplace⟩ := place_of_own host distinct hk hn own (MethodDef.node_ne rfl)
  rcases FieldDef.getElem?_nodes ho with ⟨_, hm⟩ | ⟨_, hm⟩ | ⟨rfl, _⟩
  · cases hm
  · exact absurd (congrArg Node.name hm) (Naming.setter_ne_getter _ _)
  · exact hplace

/-- A method without a body is one that the class declares. -/
theorem declares_of_abstract {id : NodeId} {m : MethodDecl} (h : (id, m) ∈ p.methodsOf host)
    (abstract : m.body = none) : c.Declares p host id := by
  obtain ⟨i, rfl, hn⟩ := places.exists_index_of_method h
  rcases c.getElem?_nodes hn host with ⟨k, fd, o, _, ho, _⟩ | ⟨k, d, hk, heq, hplace⟩
  · rcases FieldDef.getElem?_nodes ho with ⟨_, hm⟩ | ⟨_, hm⟩ | ⟨_, hm⟩
    · cases hm
    · rw [Node.method.inj hm] at abstract
      cases abstract
    · rw [Node.method.inj hm] at abstract
      cases abstract
  · refine ⟨k, d, hk, hplace, ?_, rfl⟩
    rw [method?_of_mem_methodsOf h, Node.method.inj heq]
    rfl

end Program.Places

namespace Catalog

theorem mem_methodsOf_of_pick {p : Program} {owner : NodeId} {name : String} {arity : Nat}
    {preferred : MethodDecl → Bool} {id : NodeId} {m : MethodDecl}
    (h : pick preferred (instanceMethods p owner name arity) = some id)
    (hm : p.method? id = some m) :
    (id, m) ∈ p.methodsOf owner := by
  obtain ⟨m', hmem⟩ := mem_of_pick h
  have hmem := (List.mem_filter.mp hmem).1
  obtain rfl : m' = m := Option.some.inj ((Program.method?_of_mem_methodsOf hmem).symm.trans hm)
  exact hmem

end Catalog

/-- Classes are added to a program, and one of them has a catalog. Each of its fields is described
in order, at its place. The accessors found for it are those made for this field, right behind it;
where the field asks for none, the one found is a declared method without a body. -/
theorem file_accessors_resolve {p : Program} {cs : List ClassDef} {host : NodeId} {c : ClassDef}
    (placed : (host, c) ∈ p.placements cs) {types : Hierarchy} {fields : List FieldDesc}
    (hcatalog : catalog (p.populateAll cs).1 types host = .ok fields) :
    fields.length = c.fields.length ∧
    ∀ (k : Nat) (fd : FieldDef) (f : FieldDesc), c.fields[k]? = some fd → fields[k]? = some f →
      f.name = fd.name ∧ f.field = c.fieldPlace host k ∧
      (if fd.accessors.hasGetter then
          f.getter = c.fieldPlace host k + 1 ∧
            (p.populateAll cs).1.method? f.getter = some (.getterOf fd.name fd.type)
        else c.Declares (p.populateAll cs).1 host f.getter) ∧
      (if fd.accessors.hasSetter then
          f.setter = c.fieldPlace host k + fd.setterOffset ∧
            (p.populateAll cs).1.method? f.setter = some (.setterOf fd.name fd.type)
        else c.Declares (p.populateAll cs).1 host f.setter) := by
  have places := Program.places_populateAll p cs placed
  generalize (p.populateAll cs).1 = q at hcatalog places ⊢
  have distinct := places.distinct hcatalog
  have hall := (catalog_ok hcatalog).2.1
  have hnames : fields.map FieldDesc.name = c.fields.map FieldDef.name := by
    have hmap := congrArg (List.map FieldDecl.name) places.fieldsOf_eq
    rw [List.map_map, List.map_map] at hmap
    exact (Catalog.map_name hall).trans hmap
  refine ⟨by simpa using congrArg List.length hnames, ?_⟩
  intro k fd f hfd hf
  have hname : f.name = fd.name := by
    have hk := congrArg (fun names => names[k]?) hnames
    simpa [hf, hfd] using hk
  -- fields of one name are one field
  have hsame : ∀ fd' ∈ c.fields, fd'.name = f.name → fd' = fd := by
    intro fd' hmem heq
    exact List.inj_on_of_nodup_map distinct hmem (List.mem_of_getElem? hfd) (by rw [heq, hname])
  obtain ⟨⟨id, decl⟩, hentry, describes⟩ := Catalog.exists_entry hall (List.mem_of_getElem? hf)
  obtain ⟨fd', hmem, hdecl⟩ : ∃ fd' ∈ c.fields, fd'.decl = decl :=
    List.mem_map.mp (places.fieldsOf_eq ▸ List.mem_map.mpr ⟨_, hentry, rfl⟩)
  obtain rfl := hsame fd' hmem (by rw [describes.name, ← hdecl]; rfl)
  obtain ⟨fd, hmem', backed⟩ := places.backed hcatalog (List.mem_of_getElem? hf)
  obtain rfl := hsame fd hmem' backed.name.symm
  obtain ⟨getter, hgetter, isGetter⟩ := backed.getter
  obtain ⟨setter, hsetter, isSetter⟩ := backed.setter
  have hmemGetter := Catalog.mem_methodsOf_of_pick describes.getter hgetter
  have hmemSetter := Catalog.mem_methodsOf_of_pick describes.setter hsetter
  refine ⟨hname, ?_, ?_, ?_⟩
  · rw [describes.field]
    exact places.place_of_field distinct hfd (hdecl ▸ hentry)
  · split
    · next present =>
      rw [MethodDecl.IsBacked, if_pos present] at isGetter
      subst isGetter
      exact ⟨places.place_of_getter distinct hfd hmemGetter, hgetter⟩
    · next absent =>
      rw [MethodDecl.IsBacked, if_neg absent] at isGetter
      exact places.declares_of_abstract hmemGetter isGetter
  · split
    · next present =>
      rw [MethodDecl.IsBacked, if_pos present] at isSetter
      subst isSetter
      exact ⟨places.place_of_setter distinct hfd hmemSetter, hsetter⟩
    · next absent =>
      rw [MethodDecl.IsBacked, if_neg absent] at isSetter
      exact places.declares_of_abstract hmemSetter isSetter

/-- A class that declares other methods under the names of its accessors, and the setter that one of
its fields lacks. -/
def kettleClass : ClassDef :=
  { name := "Kettle"
    fields :=
      [{ name := "size", type := .primitive .int32 },
        { name := "lid", type := .string, accessors := .get }]
    methods :=
      [{ name := "getSize", returns := .primitive .int32, isStatic := true },
        { name := "getSize", returns := .primitive .int32 },
        { name := "setSize", params := [⟨"text", .string⟩] },
        { name := "setSize", params := [⟨"size", .primitive .int32⟩] },
        { name := "setLid", params := [⟨"lid", .any⟩] }] }

/-- Of the three setters for the first field the one made for it is found; the second field has the
declared one, although that takes another type. -/
theorem kettle_accessors_found :
    (0, kettleClass) ∈ Program.empty.placements [kettleClass] ∧
      catalog (Program.empty.populateAll [kettleClass]).1 .builtin 0 =
        .ok [⟨"size", "Size", .scalar (.primitive .int32), 1, 2, 3⟩,
          ⟨"lid", "Lid", .scalar .string, 4, 5, 10⟩] ∧
      (Program.empty.populateAll [kettleClass]).1.method? 3 =
        some (.setterOf "size" (.primitive .int32)) ∧
      kettleClass.Declares (Program.empty.populateAll [kettleClass]).1 0 10 := by
  have placed : (0, kettleClass) ∈ Program.empty.placements [kettleClass] := List.mem_cons_self
  have hcatalog : catalog (Program.empty.populateAll [kettleClass]).1 .builtin 0 =
      .ok [⟨"size", "Size", .scalar (.primitive .int32), 1, 2, 3⟩,
        ⟨"lid", "Lid", .scalar .string, 4, 5, 10⟩] := rfl
  obtain ⟨_, hfields⟩ := file_accessors_resolve placed hcatalog
  obtain ⟨_, _, _, hsize⟩ := hfields 0 _ _ rfl rfl
  obtain ⟨_, _, _, hlid⟩ := hfields 1 _ _ rfl rfl
  exact ⟨placed, hcatalog, hsize.2, hlid⟩

end FieldAccess
