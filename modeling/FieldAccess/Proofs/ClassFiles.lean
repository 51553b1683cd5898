import FieldAccess.ClassFile.Basic
import FieldAccess.Proofs.Catalogs
import Mathlib.Data.List.Nodup

/-! The program of a class file: each class is followed by its members, nothing is nested, and the
accessors that a catalog finds are those made for the field, unless the file leaves them out. -/
namespace FieldAccess

theorem FieldDef.mem_nodes {f : FieldDef} {n : Node} (h : n ∈ f.nodes) :
    n = .field { name := f.name, type := f.type, annotations := f.annotations } ∨
      n = .method (.getterOf f.name f.type) ∨ n = .method (.setterOf f.name f.type) := by
  simp only [FieldDef.nodes, List.mem_cons, List.mem_append] at h
  rcases h with h | h | h
  · exact Or.inl h
  · split at h
    · exact Or.inr (Or.inl (List.mem_singleton.mp h))
    · cases h
  · split at h
    · exact Or.inr (Or.inr (List.mem_singleton.mp h))
    · cases h

namespace Program

/-- A class of a file stands at a place, its members right after it. -/
structure Places (p : Program) (host : Nat) (c : ClassDef) : Prop where
  decl : p.class? host = some { c.decl with members := List.range' (host + 1) c.nodes.length }
  nodes : ∀ k, k < c.nodes.length → p.node? (host + 1 + k) = c.nodes[k]?

theorem populate_eq (p : Program) (c : ClassDef) :
    p.populate c = ((p.addClass c.decl).1.attachAll p.size c.nodes, p.size) := rfl

theorem size_addClass (p : Program) (c : ClassDecl) : (p.addClass c).1.size = p.size + 1 := by
  simp [addClass, size]

theorem node?_addClass_of_lt (p : Program) (c : ClassDecl) {id : Nat} (h : id < p.size) :
    (p.addClass c).1.node? id = p.node? id := by
  rw [node?, addClass, List.getElem?_append_left h, node?]

theorem class?_addClass_last (p : Program) (c : ClassDecl) :
    (p.addClass c).1.class? p.size = some c := by
  rw [class?_eq_some_iff]
  simp [node?, addClass, size]

theorem size_populate (p : Program) (c : ClassDef) :
    (p.populate c).1.size = p.size + 1 + c.nodes.length := by
  rw [populate_eq, size_attachAll, size_addClass]

theorem node?_populate_of_lt (p : Program) (c : ClassDef) {id : Nat} (h : id < p.size) :
    (p.populate c).1.node? id = p.node? id := by
  have hlt : id < (p.addClass c.decl).1.size := by rw [size_addClass]; omega
  rw [populate_eq, node?_attachAll_of_ne _ _ (by omega) hlt, node?_addClass_of_lt p _ h]

theorem places_populate (p : Program) (c : ClassDef) : (p.populate c).1.Places p.size c := by
  have hlt : p.size < (p.addClass c.decl).1.size := by rw [size_addClass]; omega
  refine ⟨?_, ?_⟩
  · rw [populate_eq, class?_attachAll_owner _ (class?_addClass_last p c.decl), size_addClass]
    simp [ClassDef.decl]
  · intro k hk
    have hnew := node?_attachAll_new _ c.nodes hlt k hk
    rw [size_addClass] at hnew
    exact hnew

theorem node?_populateAll_of_lt (p : Program) (cs : List ClassDef) {id : Nat} (h : id < p.size) :
    (p.populateAll cs).1.node? id = p.node? id := by
  induction cs generalizing p with
  | nil => rfl
  | cons c cs ih =>
    have hlt : id < (p.populate c).1.size := by rw [size_populate]; omega
    exact (ih _ hlt).trans (node?_populate_of_lt p c h)

/-- Members of a class in a file are fields, the accessors made for them, and methods without a
body. -/
theorem mem_nodes_cases {c : ClassDef} {n : Node} (h : n ∈ c.nodes) :
    (∃ f, n = .field f) ∨ (∃ name type, n = .method (.getterOf name type)) ∨
      (∃ name type, n = .method (.setterOf name type)) ∨ ∃ m : MethodDef, n = m.node := by
  rw [ClassDef.nodes, List.mem_append, List.mem_flatMap, List.mem_map] at h
  rcases h with ⟨f, _, hn⟩ | ⟨m, _, rfl⟩
  · rcases FieldDef.mem_nodes hn with rfl | rfl | rfl
    · exact Or.inl ⟨_, rfl⟩
    · exact Or.inr (Or.inl ⟨_, _, rfl⟩)
    · exact Or.inr (Or.inr (Or.inl ⟨_, _, rfl⟩))
  · exact Or.inr (Or.inr (Or.inr ⟨m, rfl⟩))

theorem asClass?_of_mem_nodes {c : ClassDef} {n : Node} (h : n ∈ c.nodes) : n.asClass? = none := by
  rcases mem_nodes_cases h with ⟨_, rfl⟩ | ⟨_, _, rfl⟩ | ⟨_, _, rfl⟩ | ⟨_, rfl⟩ <;> rfl

/-- Classes with the places they get when a list of classes is added to a program. -/
def placements (p : Program) (cs : List ClassDef) : List (NodeId × ClassDef) :=
  (p.populateAll cs).2.zip cs

theorem placements_cons (p : Program) (c : ClassDef) (cs : List ClassDef) :
    p.placements (c :: cs) = (p.size, c) :: (p.populate c).1.placements cs := rfl

theorem places_populateAll (p : Program) (cs : List ClassDef) {host : Nat} {c : ClassDef}
    (h : (host, c) ∈ p.placements cs) : (p.populateAll cs).1.Places host c := by
  induction cs generalizing p with
  | nil => cases h
  | cons d ds ih =>
    rw [placements_cons] at h
    rcases List.mem_cons.mp h with heq | h
    · obtain ⟨rfl, rfl⟩ := Prod.mk.injEq .. ▸ heq
      obtain ⟨hdecl, hnodes⟩ := places_populate p c
      have hsize := size_populate p c
      refine ⟨?_, ?_⟩
      · have hkept := node?_populateAll_of_lt (p.populate c).1 ds (lt_size_of_class? hdecl)
        rw [class?_eq_some_iff] at hdecl ⊢
        exact hkept.trans hdecl
      · intro k hk
        have hlt : p.size + 1 + k < (p.populate c).1.size := by omega
        exact (node?_populateAll_of_lt _ ds hlt).trans (hnodes k hk)
    · exact ih _ h

/-- Added classes bring their own nodes and those of their members. -/
theorem node?_populateAll (p : Program) (cs : List ClassDef) {id : Nat} {n : Node}
    (h : (p.populateAll cs).1.node? id = some n) :
    p.node? id = some n ∨ (∃ c, (id, c) ∈ p.placements cs) ∨ ∃ c ∈ cs, n ∈ c.nodes := by
  induction cs generalizing p with
  | nil => exact Or.inl h
  | cons c cs ih =>
    rcases ih (p.populate c).1 h with hn | ⟨c', hc'⟩ | ⟨c', hc', hn⟩
    · rcases Nat.lt_trichotomy id p.size with hlt | rfl | hgt
      · exact Or.inl (node?_populate_of_lt p c hlt ▸ hn)
      · exact Or.inr (Or.inl ⟨c, List.mem_cons_self⟩)
      · -- places after the class hold its members
        have hsize := size_populate p c
        have hid := lt_size_of_node? hn
        obtain ⟨k, rfl⟩ := Nat.exists_eq_add_of_le (show p.size + 1 ≤ id by omega)
        have hnode := (places_populate p c).nodes k (by omega)
        exact Or.inr (Or.inr ⟨c, List.mem_cons_self, List.mem_of_getElem? (hnode.symm.trans hn)⟩)
    · exact Or.inr (Or.inl ⟨c', List.mem_cons_of_mem _ hc'⟩)
    · exact Or.inr (Or.inr ⟨c', List.mem_cons_of_mem _ hc', hn⟩)

/-- The classes of a grown program are the old ones and those that were added. -/
theorem class?_populateAll (p : Program) (cs : List ClassDef) {id : Nat} {d : ClassDecl}
    (h : (p.populateAll cs).1.class? id = some d) :
    p.class? id = some d ∨ ∃ c, (id, c) ∈ p.placements cs := by
  rcases node?_populateAll p cs (class?_eq_some_iff.mp h) with hold | hplaced | ⟨c, _, hn⟩
  · exact Or.inl (class?_eq_some_iff.mpr hold)
  · exact Or.inr hplaced
  · cases asClass?_of_mem_nodes hn

namespace Places

variable {p : Program} {host : Nat} {c : ClassDef}

theorem members_lt (places : p.Places host c) {k : Nat}
    (hk : k ∈ List.range' (host + 1) c.nodes.length) : k < p.size := by
  obtain ⟨j, hj, rfl⟩ := List.mem_range'.mp hk
  have hnode := places.nodes j hj
  rw [List.getElem?_eq_getElem hj] at hnode
  rw [Nat.one_mul]
  exact lt_size_of_node? hnode

theorem membersAs {α : Type} (places : p.Places host c) (kind : Node → Option α) :
    (Program.membersAs kind p host).map Prod.snd = c.nodes.filterMap kind :=
  membersAs_of_range kind places.decl rfl places.nodes

theorem findReserved? (places : p.Places host c) : p.findReserved? host = none := by
  have hnone : c.nodes.filterMap headerOf? = [] := by
    rw [List.filterMap_eq_nil_iff]
    intro n hn
    simp [headerOf?, asClass?_of_mem_nodes hn]
  have hempty := places.membersAs headerOf?
  rw [hnone, List.map_eq_nil_iff] at hempty
  rw [findReserved?_eq, hempty]
  rfl

end Places

end Program

/-! ### Fields and accessors -/

def FieldDef.decl (f : FieldDef) : FieldDecl :=
  { name := f.name, type := f.type, annotations := f.annotations }

/-- The accessors that are made for a field. -/
def FieldDef.accessorDecls (f : FieldDef) : List MethodDecl :=
  (if f.accessors.hasGetter then [.getterOf f.name f.type] else []) ++
    (if f.accessors.hasSetter then [.setterOf f.name f.type] else [])

def MethodDef.decl (m : MethodDef) : MethodDecl :=
  { name := m.name
    isStatic := m.isStatic
    params := m.params
    returnType := m.returns
    annotations := m.annotations }

theorem ClassDef.fields_of_nodes (c : ClassDef) :
    c.nodes.filterMap Node.asField? = c.fields.map FieldDef.decl := by
  have hmethods : (c.methods.map MethodDef.node).filterMap Node.asField? = [] := by
    rw [List.filterMap_eq_nil_iff]
    intro n hn
    obtain ⟨m, _, rfl⟩ := List.mem_map.mp hn
    rfl
  rw [ClassDef.nodes, List.filterMap_append, hmethods, List.append_nil]
  induction c.fields with
  | nil => rfl
  | cons f fs ih =>
    rw [List.flatMap_cons, List.filterMap_append, ih]
    simp only [FieldDef.nodes]
    cases f.accessors <;> rfl

theorem ClassDef.methods_of_nodes (c : ClassDef) :
    c.nodes.filterMap Node.asMethod? =
      c.fields.flatMap FieldDef.accessorDecls ++ c.methods.map MethodDef.decl := by
  have hmethods : (c.methods.map MethodDef.node).filterMap Node.asMethod? =
      c.methods.map MethodDef.decl := by
    rw [List.filterMap_map]
    exact congrFun List.filterMap_eq_map _
  rw [ClassDef.nodes, List.filterMap_append, hmethods]
  congr 1
  induction c.fields with
  | nil => rfl
  | cons f fs ih =>
    rw [List.flatMap_cons, List.filterMap_append, ih, List.flatMap_cons]
    congr 1
    simp only [FieldDef.nodes, FieldDef.accessorDecls]
    cases f.accessors <;> rfl

namespace Catalog

theorem mem_of_pick {preferred : MethodDecl → Bool} {methods : List (NodeId × MethodDecl)}
    {id : NodeId} (h : pick preferred methods = some id) : ∃ m, (id, m) ∈ methods := by
  unfold pick at h
  obtain ⟨⟨id', m⟩, hm, rfl⟩ := Option.map_eq_some_iff.mp h
  cases hfind : methods.find? (fun m => preferred m.2) with
  | some x =>
    rw [hfind] at hm
    cases hm
    exact ⟨m, List.mem_of_find?_eq_some hfind⟩
  | none =>
    rw [hfind] at hm
    exact ⟨m, List.mem_of_head? hm⟩

/-- A preferred method among the first is chosen before all that come later. -/
theorem mem_front_of_pick {preferred : MethodDecl → Bool} {methods : List (NodeId × MethodDecl)}
    {front rest : List MethodDecl} (hsplit : methods.map Prod.snd = front ++ rest) {m : MethodDecl}
    (hm : m ∈ front) (hp : preferred m = true) {id : NodeId}
    (h : pick preferred methods = some id) :
    ∃ m', (id, m') ∈ methods ∧ m' ∈ front := by
  obtain ⟨m', hm'⟩ : ∃ m', front.find? preferred = some m' := by
    cases hfind : front.find? preferred with
    | some m' => exact ⟨m', rfl⟩
    | none => exact absurd hp (List.find?_eq_none.mp hfind m hm)
  have hfind : (methods.map Prod.snd).find? preferred = some m' := by
    rw [hsplit, List.find?_append, hm']
    rfl
  rw [List.find?_map] at hfind
  obtain ⟨⟨id', m''⟩, hx, rfl⟩ := Option.map_eq_some_iff.mp hfind
  have hid : id' = id := by
    have hx' : methods.find? (fun m => preferred m.2) = some (id', m'') := hx
    simpa [pick, hx'] using h
  subst hid
  exact ⟨m'', List.mem_of_find?_eq_some hx, List.mem_of_find?_eq_some hm'⟩

end Catalog

/-- An accessor of the file is the one that was made for the field, or one whose body is missing. -/
def MethodDecl.IsBacked (m made : MethodDecl) (present : Bool) : Prop :=
  if present then m = made else m.body = none

namespace Program.Places

variable {p : Program} {host : Nat} {c : ClassDef}

theorem fieldsOf_eq (places : p.Places host c) :
    (p.fieldsOf host).map Prod.snd = c.fields.map FieldDef.decl :=
  (places.membersAs Node.asField?).trans c.fields_of_nodes

/-- If no other accessor of the class has the name of the one made for a field, a catalog takes that
one, and without it a method whose implementation lives elsewhere. -/
theorem isBacked_of_pick (places : p.Places host c) {name : String} {arity : Nat}
    {preferred : MethodDecl → Bool} {made : MethodDecl} {present : Bool}
    (only : ∀ m ∈ c.fields.flatMap FieldDef.accessorDecls, m.name = name →
      present = true ∧ m = made)
    (mem : present = true → made ∈ c.fields.flatMap FieldDef.accessorDecls)
    (shape : made.isStatic = false ∧ made.name = name ∧ made.params.length = arity)
    (hp : preferred made = true) {id : NodeId}
    (h : Catalog.pick preferred (Catalog.instanceMethods p host name arity) = some id) :
    ∃ m, p.method? id = some m ∧ m.IsBacked made present := by
  have hmethods : (p.methodsOf host).map Prod.snd =
      c.fields.flatMap FieldDef.accessorDecls ++ c.methods.map MethodDef.decl :=
    (places.membersAs Node.asMethod?).trans c.methods_of_nodes
  have hname : ∀ m, (id, m) ∈ Catalog.instanceMethods p host name arity →
      m.name = name ∧ (id, m) ∈ p.methodsOf host := by
    intro m hm
    obtain ⟨hmem, hshape⟩ := List.mem_filter.mp hm
    simp only [Bool.and_eq_true, beq_iff_eq] at hshape
    exact ⟨hshape.1.2, hmem⟩
  cases present with
  | true =>
    have hsplit := congrArg (List.filter fun m : MethodDecl =>
      !m.isStatic && m.name == name && m.params.length == arity) hmethods
    rw [List.filter_map, List.filter_append] at hsplit
    have hmade : made ∈ (c.fields.flatMap FieldDef.accessorDecls).filter fun m : MethodDecl =>
        !m.isStatic && m.name == name && m.params.length == arity :=
      List.mem_filter.mpr ⟨mem rfl, by simp [shape.1, shape.2.1, shape.2.2]⟩
    obtain ⟨m, hm, hfront⟩ := Catalog.mem_front_of_pick hsplit hmade hp h
    obtain ⟨hn, hmem⟩ := hname m hm
    exact ⟨m, method?_of_mem_methodsOf hmem, (only m (List.mem_filter.mp hfront).1 hn).2⟩
  | false =>
    obtain ⟨m, hm⟩ := Catalog.mem_of_pick h
    obtain ⟨hn, hmem⟩ := hname m hm
    refine ⟨m, method?_of_mem_methodsOf hmem, ?_⟩
    have hdecl : m ∈ (p.methodsOf host).map Prod.snd := List.mem_map.mpr ⟨_, hmem, rfl⟩
    rw [hmethods] at hdecl
    rcases List.mem_append.mp hdecl with hgen | hexplicit
    · cases (only m hgen hn).1
    · obtain ⟨d, _, rfl⟩ := List.mem_map.mp hexplicit
      rfl

end Program.Places

/-- A description of a field of a file, with what its accessors do. -/
structure FieldDesc.Backed (p : Program) (fd : FieldDef) (f : FieldDesc) : Prop where
  name : f.name = fd.name
  declared : f.type.declared = fd.type
  getter : ∃ m, p.method? f.getter = some m ∧
    m.IsBacked (.getterOf fd.name fd.type) fd.accessors.hasGetter
  setter : ∃ m, p.method? f.setter = some m ∧
    m.IsBacked (.setterOf fd.name fd.type) fd.accessors.hasSetter

theorem FieldType.declared_classify (types : Hierarchy) (t : TypeDesc) :
    (FieldType.classify types t).declared = t := by
  unfold classify
  split <;> rfl

theorem FieldDef.mem_accessorDecls {fd : FieldDef} {m : MethodDecl} :
    m ∈ fd.accessorDecls ↔
      (fd.accessors.hasGetter = true ∧ m = .getterOf fd.name fd.type) ∨
        (fd.accessors.hasSetter = true ∧ m = .setterOf fd.name fd.type) := by
  unfold accessorDecls
  cases fd.accessors.hasGetter <;> cases fd.accessors.hasSetter <;> simp

/-- No two fields of a class have accessors of the same names. -/
def ClassDef.Distinct (c : ClassDef) : Prop :=
  (c.fields.map fun fd => Naming.capitalize fd.name).Nodup

theorem Program.Places.distinct {p : Program} {host : Nat} {c : ClassDef} (places : p.Places host c)
    {types : Hierarchy} {fields : List FieldDesc} (hcatalog : catalog p types host = .ok fields) :
    c.Distinct := by
  obtain ⟨_, hall, named⟩ := catalog_ok hcatalog
  have hmap := congrArg (List.map fun d : FieldDecl => Naming.capitalize d.name) places.fieldsOf_eq
  rw [List.map_map, List.map_map] at hmap
  have hnodup := named.distinct
  rw [Catalog.map_capitalized hall] at hnodup
  unfold ClassDef.Distinct
  exact hmap ▸ hnodup

theorem Program.Places.backed {p : Program} {host : Nat} {c : ClassDef} (places : p.Places host c)
    {types : Hierarchy} {fields : List FieldDesc} (hcatalog : catalog p types host = .ok fields)
    {f : FieldDesc} (hf : f ∈ fields) : ∃ fd ∈ c.fields, f.Backed p fd := by
  obtain ⟨_, hall, _⟩ := catalog_ok hcatalog
  have hfields := places.fieldsOf_eq
  have hinj : ∀ fd ∈ c.fields, ∀ fd' ∈ c.fields,
      Naming.capitalize fd'.name = Naming.capitalize fd.name → fd' = fd :=
    fun fd hfd fd' hfd' heq => List.inj_on_of_nodup_map (places.distinct hcatalog) hfd' hfd heq
  obtain ⟨entry, hentry, hd⟩ := Catalog.exists_entry hall hf
  obtain ⟨fd, hfd, hdecl⟩ : ∃ fd ∈ c.fields, fd.decl = entry.2 :=
    List.mem_map.mp (hfields ▸ List.mem_map.mpr ⟨entry, hentry, rfl⟩)
  have hgetter := hd.getter
  have hsetter := hd.setter
  rw [← hdecl] at hgetter hsetter
  refine ⟨fd, hfd, ?_, ?_, ?_, ?_⟩
  · rw [hd.name, ← hdecl]
    rfl
  · rw [hd.type, FieldType.declared_classify, ← hdecl]
    rfl
  · refine places.isBacked_of_pick ?_ ?_ ⟨rfl, rfl, rfl⟩
      (by simp [MethodDecl.getterOf, FieldDef.decl]) hgetter
    · intro m hm hname
      obtain ⟨fd', hfd', hm⟩ := List.mem_flatMap.mp hm
      rcases FieldDef.mem_accessorDecls.mp hm with ⟨hg, rfl⟩ | ⟨_, rfl⟩
      · obtain rfl := hinj fd hfd fd' hfd' (Naming.getter_inj.mp hname)
        exact ⟨hg, rfl⟩
      · exact absurd hname (Naming.setter_ne_getter _ _)
    · intro hg
      exact List.mem_flatMap.mpr ⟨fd, hfd, FieldDef.mem_accessorDecls.mpr (Or.inl ⟨hg, rfl⟩)⟩
  · refine places.isBacked_of_pick ?_ ?_ ⟨rfl, rfl, rfl⟩
      (by simp [MethodDecl.setterOf, FieldDef.decl]) hsetter
    · intro m hm hname
      obtain ⟨fd', hfd', hm⟩ := List.mem_flatMap.mp hm
      rcases FieldDef.mem_accessorDecls.mp hm with ⟨_, rfl⟩ | ⟨hs, rfl⟩
      · exact absurd hname.symm (Naming.setter_ne_getter _ _)
      · obtain rfl := hinj fd hfd fd' hfd' (Naming.setter_inj.mp hname)
        exact ⟨hs, rfl⟩
    · intro hs
      exact List.mem_flatMap.mpr ⟨fd, hfd, FieldDef.mem_accessorDecls.mpr (Or.inr ⟨hs, rfl⟩)⟩

/-! ### The whole file -/

namespace ClassFile

variable {file : ClassFile}

/-- Classes of a file with their places in its program. -/
def placed (file : ClassFile) : List (NodeId × ClassDef) := Program.empty.placements file.classes

theorem places {host : Nat} {c : ClassDef} (h : (host, c) ∈ file.placed) :
    file.toProgram.Places host c :=
  Program.places_populateAll Program.empty file.classes h

theorem exists_placed {id : Nat} {d : ClassDecl} (h : file.toProgram.class? id = some d) :
    ∃ c, (id, c) ∈ file.placed := by
  rcases Program.class?_populateAll Program.empty file.classes h with hold | hnew
  · cases hold
  · exact hnew

theorem toProgram_closed (file : ClassFile) : file.toProgram.Closed := by
  intro id d hd m hm
  obtain ⟨c, hc⟩ := exists_placed hd
  have hplaces := places hc
  rw [hplaces.decl, Option.some.injEq] at hd
  subst hd
  exact hplaces.members_lt hm

theorem toProgram_findReserved? (file : ClassFile) (id : NodeId) :
    file.toProgram.findReserved? id = none := by
  cases hd : file.toProgram.class? id with
  | some d =>
    obtain ⟨c, hc⟩ := exists_placed hd
    exact (places hc).findReserved?
  | none => simp [Program.findReserved?, Program.nestedOf, Program.members, hd]

end ClassFile

end FieldAccess
