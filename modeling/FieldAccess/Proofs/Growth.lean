import FieldAccess.Injection
import FieldAccess.Program.Basic
import Mathlib.Data.List.Basic

/-! How a program grows. Nodes keep their places and their declarations; only the lists of a class
get longer, at their ends. In a closed program every listed member exists, so that what it says
about the members of a class cannot be changed by nodes that come later. -/
namespace FieldAccess

structure ClassDecl.Extends (c d : ClassDecl) : Prop where
  name : d.name = c.name
  isStatic : d.isStatic = c.isStatic
  origin : d.origin = c.origin
  annotations : c.annotations <+: d.annotations
  supertypes : c.supertypes <+: d.supertypes
  members : c.members <+: d.members

theorem ClassDecl.Extends.refl (c : ClassDecl) : c.Extends c :=
  ⟨rfl, rfl, rfl, List.prefix_rfl, List.prefix_rfl, List.prefix_rfl⟩

theorem ClassDecl.Extends.trans {a b c : ClassDecl} (hab : a.Extends b) (hbc : b.Extends c) :
    a.Extends c :=
  ⟨hbc.name.trans hab.name, hbc.isStatic.trans hab.isStatic, hbc.origin.trans hab.origin,
    hab.annotations.trans hbc.annotations, hab.supertypes.trans hbc.supertypes,
    hab.members.trans hbc.members⟩

theorem ClassDecl.extends_append_members (c : ClassDecl) (ids : List NodeId) :
    c.Extends { c with members := c.members ++ ids } :=
  ⟨rfl, rfl, rfl, List.prefix_rfl, List.prefix_rfl, List.prefix_append _ _⟩

inductive Node.Extends : Node → Node → Prop where
  | cls {c d : ClassDecl} (h : c.Extends d) : Extends (.cls c) (.cls d)
  | field (f : FieldDecl) : Extends (.field f) (.field f)
  | method (m : MethodDecl) : Extends (.method m) (.method m)

theorem Node.Extends.refl (n : Node) : n.Extends n := by
  cases n with
  | cls c => exact .cls (.refl c)
  | field f => exact .field f
  | method m => exact .method m

theorem Node.Extends.trans {a b c : Node} (hab : a.Extends b)
    (hbc : b.Extends c) : a.Extends c := by
  cases hab with
  | cls h => cases hbc with
    | cls h' => exact .cls (h.trans h')
  | field f => exact hbc
  | method m => exact hbc

namespace Program

/-- `q` is `p` after some additions. -/
def Extends (p q : Program) : Prop :=
  ∀ (id : NodeId) (e : Entry), p.nodes[id]? = some e →
    ∃ e' : Entry, q.nodes[id]? = some e' ∧ e'.parent = e.parent ∧ e.node.Extends e'.node

theorem Extends.refl (p : Program) : p.Extends p :=
  fun _ e h => ⟨e, h, rfl, .refl e.node⟩

theorem Extends.trans {p q r : Program} (hpq : p.Extends q) (hqr : q.Extends r) : p.Extends r := by
  intro id e h
  obtain ⟨e', h', hp, hn⟩ := hpq id e h
  obtain ⟨e'', h'', hp', hn'⟩ := hqr id e' h'
  exact ⟨e'', h'', hp'.trans hp, hn.trans hn'⟩

theorem node?_eq_some_iff {p : Program} {id : Nat} {n : Node} :
    p.node? id = some n ↔ ∃ e, p.nodes[id]? = some e ∧ e.node = n := by
  simp [node?]

theorem lt_size_of_node? {p : Program} {id : Nat} {n : Node} (h : p.node? id = some n) :
    id < p.size := by
  obtain ⟨e, he, _⟩ := node?_eq_some_iff.mp h
  exact (List.getElem?_eq_some_iff.mp he).1

theorem node?_of_lt {p : Program} {id : Nat} (h : id < p.size) : ∃ n, p.node? id = some n :=
  ⟨(p.nodes.get ⟨id, h⟩).node, node?_eq_some_iff.mpr ⟨_, List.getElem?_eq_getElem h, rfl⟩⟩

theorem class?_eq_some_iff {p : Program} {id : Nat} {c : ClassDecl} :
    p.class? id = some c ↔ p.node? id = some (.cls c) := by
  rw [class?]
  cases h : p.node? id with
  | none => simp
  | some n => cases n <;> simp [Node.asClass?]

theorem method?_eq_some_iff {p : Program} {id : Nat} {m : MethodDecl} :
    p.method? id = some m ↔ p.node? id = some (.method m) := by
  rw [method?]
  cases h : p.node? id with
  | none => simp
  | some n => cases n <;> simp [Node.asMethod?]

theorem lt_size_of_class? {p : Program} {id : Nat} {c : ClassDecl} (h : p.class? id = some c) :
    id < p.size := lt_size_of_node? (class?_eq_some_iff.mp h)

theorem Extends.node? {p q : Program} (h : p.Extends q) {id : Nat} {n : Node}
    (hn : p.node? id = some n) : ∃ n', q.node? id = some n' ∧ n.Extends n' := by
  obtain ⟨e, he, rfl⟩ := node?_eq_some_iff.mp hn
  obtain ⟨e', he', _, hx⟩ := h id e he
  exact ⟨e'.node, node?_eq_some_iff.mpr ⟨e', he', rfl⟩, hx⟩

theorem Extends.class? {p q : Program} (h : p.Extends q) {id : Nat} {c : ClassDecl}
    (hc : p.class? id = some c) : ∃ d, q.class? id = some d ∧ c.Extends d := by
  obtain ⟨n, hn, hx⟩ := h.node? (class?_eq_some_iff.mp hc)
  cases hx with
  | cls hd => exact ⟨_, class?_eq_some_iff.mpr hn, hd⟩

theorem Extends.size_le {p q : Program} (h : p.Extends q) : p.size ≤ q.size := by
  cases hs : p.size with
  | zero => exact Nat.zero_le _
  | succ k =>
    obtain ⟨n, hn⟩ := node?_of_lt (show k < p.size by omega)
    obtain ⟨n', hn', _⟩ := h.node? hn
    have := lt_size_of_node? hn'
    omega

/-- A node that is no class stays what it is; one that is there does not change its kind. -/
theorem Extends.method?_eq {p q : Program} (h : p.Extends q) {id : Nat} (hid : id < p.size) :
    q.method? id = p.method? id := by
  obtain ⟨n, hn⟩ := node?_of_lt hid
  obtain ⟨n', hn', hx⟩ := h.node? hn
  cases hx <;> simp [method?, hn, hn', Node.asMethod?]

theorem Extends.method? {p q : Program} (h : p.Extends q) {id : Nat} {m : MethodDecl}
    (hm : p.method? id = some m) : q.method? id = some m := by
  rw [h.method?_eq (lt_size_of_node? (method?_eq_some_iff.mp hm)), hm]

/-! ### One node at the end -/

@[simp] theorem size_attach (p : Program) (owner : Nat) (n : Node) :
    (p.attach owner n).1.size = p.size + 1 := by
  simp [attach, modifyClass, size]

theorem nodes_attach_of_ne (p : Program) {owner id : Nat} (n : Node) (h : id ≠ owner) :
    (p.attach owner n).1.nodes[id]? = (p.nodes ++ [⟨some owner, n⟩])[id]? := by
  simp [attach, modifyClass, h.symm]

theorem node?_attach_of_ne (p : Program) {owner id : Nat} (n : Node) (h : id ≠ owner)
    (hid : id < p.size) : (p.attach owner n).1.node? id = p.node? id := by
  rw [node?, nodes_attach_of_ne p n h, List.getElem?_append_left hid, node?]

theorem node?_attach_last (p : Program) {owner : Nat} (n : Node) (h : owner < p.size) :
    (p.attach owner n).1.node? p.size = some n := by
  have hne : p.size ≠ owner := by omega
  rw [node?, nodes_attach_of_ne p n hne]
  simp [size]

theorem class?_attach_owner {p : Program} {owner : Nat} {c : ClassDecl} (n : Node)
    (h : p.class? owner = some c) :
    (p.attach owner n).1.class? owner = some { c with members := c.members ++ [p.size] } := by
  have hlt := lt_size_of_class? h
  obtain ⟨e, he, hn⟩ := node?_eq_some_iff.mp (class?_eq_some_iff.mp h)
  have hnew : (p.nodes ++ [⟨some owner, n⟩])[owner]? = some e := by
    rw [List.getElem?_append_left hlt, he]
  rw [class?_eq_some_iff, node?_eq_some_iff]
  exact ⟨_, by simp only [attach, modifyClass, List.getElem?_modify, hnew]; rfl, by simp [hn]⟩

theorem extends_attach (p : Program) (owner : Nat) (n : Node) :
    p.Extends (p.attach owner n).1 := by
  intro id e he
  have hlt : id < p.nodes.length := (List.getElem?_eq_some_iff.mp he).1
  have hold : (p.nodes ++ [⟨some owner, n⟩])[id]? = some e := by
    rw [List.getElem?_append_left hlt, he]
  by_cases h : id = owner
  · subst h
    refine ⟨_, by simp only [attach, modifyClass, List.getElem?_modify, hold]; rfl, ?_⟩
    cases hn : e.node with
    | cls c => simpa [hn] using Node.Extends.cls (c.extends_append_members [p.size])
    | field f => simpa [hn] using Node.Extends.field f
    | method m => simpa [hn] using Node.Extends.method m
  · exact ⟨e, by rw [nodes_attach_of_ne p n h, hold], rfl, .refl e.node⟩

/-! ### Several members of one class -/

theorem attachAll_cons (p : Program) (owner : Nat) (n : Node) (ns : List Node) :
    p.attachAll owner (n :: ns) = (p.attach owner n).1.attachAll owner ns := rfl

theorem extends_attachAll (p : Program) (owner : Nat) (ns : List Node) :
    p.Extends (p.attachAll owner ns) := by
  induction ns generalizing p with
  | nil => exact .refl p
  | cons n ns ih => exact (p.extends_attach owner n).trans (ih _)

@[simp] theorem size_attachAll (p : Program) (owner : Nat) (ns : List Node) :
    (p.attachAll owner ns).size = p.size + ns.length := by
  induction ns generalizing p with
  | nil => rfl
  | cons n ns ih =>
    rw [attachAll_cons, ih, size_attach, List.length_cons]
    omega

theorem node?_attachAll_of_ne (p : Program) {owner id : Nat} (ns : List Node) (h : id ≠ owner)
    (hid : id < p.size) : (p.attachAll owner ns).node? id = p.node? id := by
  induction ns generalizing p with
  | nil => rfl
  | cons n ns ih =>
    have hlt : id < (p.attach owner n).1.size := by rw [size_attach]; omega
    rw [attachAll_cons, ih _ hlt, node?_attach_of_ne p n h hid]

theorem node?_attachAll_new (p : Program) {owner : Nat} (ns : List Node) (h : owner < p.size)
    (k : Nat) (hk : k < ns.length) : (p.attachAll owner ns).node? (p.size + k) = ns[k]? := by
  induction ns generalizing p k with
  | nil => cases hk
  | cons n ns ih =>
    have hlt : owner < (p.attach owner n).1.size := by rw [size_attach]; omega
    cases k with
    | zero =>
      have hlast : p.size < (p.attach owner n).1.size := by rw [size_attach]; omega
      rw [attachAll_cons, Nat.add_zero, node?_attachAll_of_ne _ _ (by omega) hlast,
        node?_attach_last p n h]
      rfl
    | succ k =>
      have hk' : k < ns.length := by rw [List.length_cons] at hk; omega
      have hrest := ih (p.attach owner n).1 hlt k hk'
      rw [size_attach, Nat.add_assoc, Nat.add_comm 1 k] at hrest
      rw [attachAll_cons, hrest, List.getElem?_cons_succ]

theorem class?_attachAll_owner {p : Program} {owner : Nat} {c : ClassDecl} (ns : List Node)
    (h : p.class? owner = some c) :
    (p.attachAll owner ns).class? owner =
      some { c with members := c.members ++ List.range' p.size ns.length } := by
  induction ns generalizing p c with
  | nil => simpa [attachAll] using h
  | cons n ns ih =>
    rw [attachAll_cons, ih (class?_attach_owner n h)]
    simp [List.range'_succ, size_attach]

/-! ### Members of one kind -/

/-- Members of a class that `kind` picks, with what it says about them. -/
def membersAs {α : Type} (kind : Node → Option α) (p : Program) (id : NodeId) : List (NodeId × α) :=
  (p.members id).filterMap fun m => (kind m.2).map (m.1, ·)

/-- What `kind` says about a node does not change when the node grows. -/
def Stable {α : Type} (kind : Node → Option α) : Prop :=
  ∀ n n' : Node, n.Extends n' → kind n' = kind n

theorem stable_asField? : Stable Node.asField? := by
  intro n n' h
  cases h <;> rfl

theorem stable_asMethod? : Stable Node.asMethod? := by
  intro n n' h
  cases h <;> rfl

/-- Name and origin of a class. -/
def headerOf? (n : Node) : Option (String × Origin) :=
  n.asClass?.map fun c => (c.name, c.origin)

theorem stable_headerOf? : Stable headerOf? := by
  intro n n' h
  cases h with
  | cls h => simp [headerOf?, Node.asClass?, h.name, h.origin]
  | field f => rfl
  | method m => rfl

theorem fieldsOf_eq_membersAs (p : Program) (id : NodeId) :
    p.fieldsOf id = membersAs Node.asField? p id := rfl

theorem methodsOf_eq_membersAs (p : Program) (id : NodeId) :
    p.methodsOf id = membersAs Node.asMethod? p id := rfl

theorem findReserved?_eq (p : Program) (id : NodeId) :
    p.findReserved? id =
      ((membersAs headerOf? p id).find? fun n => n.2.1 == mapperName).map fun n =>
        (n.1, n.2.2) := by
  have h : membersAs headerOf? p id =
      (p.nestedOf id).map fun n => (n.1, n.2.name, n.2.origin) := by
    rw [nestedOf, List.map_filterMap, membersAs]
    congr 1
    funext m
    cases h : m.2.asClass? <;> simp [headerOf?, h]
  rw [h, List.find?_map, findReserved?, Option.map_map]
  rfl

theorem membersAs_eq {α : Type} (kind : Node → Option α) {p : Program} {id : NodeId} {c : ClassDecl}
    (h : p.class? id = some c) :
    membersAs kind p id =
      c.members.filterMap fun m => ((p.node? m).bind kind).map (m, ·) := by
  rw [membersAs, members, h, List.filterMap_filterMap]
  congr 1
  funext m
  cases p.node? m <;> simp

theorem mem_membersAs {α : Type} {kind : Node → Option α} {p : Program} {id m : NodeId} {a : α}
    (h : (m, a) ∈ membersAs kind p id) : ∃ n, p.node? m = some n ∧ kind n = some a := by
  rw [membersAs] at h
  obtain ⟨⟨m', n⟩, hm, hk⟩ := List.mem_filterMap.mp h
  cases hc : p.class? id with
  | none => simp [members, hc] at hm
  | some c =>
    simp only [members, hc, List.mem_filterMap, Option.map_eq_some_iff, Prod.mk.injEq] at hm
    obtain ⟨_, _, n', hn, rfl, rfl⟩ := hm
    simp only [Option.map_eq_some_iff, Prod.mk.injEq] at hk
    obtain ⟨a', ha, rfl, rfl⟩ := hk
    exact ⟨n', hn, ha⟩

theorem method?_of_mem_methodsOf {p : Program} {id m : NodeId} {decl : MethodDecl}
    (h : (m, decl) ∈ p.methodsOf id) : p.method? m = some decl := by
  obtain ⟨n, hn, hk⟩ := mem_membersAs h
  simp [method?, hn, hk]

/-- Members that stand in the program one after the other. -/
theorem membersAs_eq_of_range {α : Type} (kind : Node → Option α) {p : Program} {id : NodeId}
    {c : ClassDecl} {start : Nat} {ns : List Node} (hc : p.class? id = some c)
    (hm : c.members = List.range' start ns.length)
    (hn : ∀ k, k < ns.length → p.node? (start + k) = ns[k]?) :
    membersAs kind p id = (ns.zipIdx start).filterMap fun n => (kind n.1).map (n.2, ·) := by
  rw [membersAs_eq kind hc, hm]
  clear hm
  induction ns generalizing start with
  | nil => rfl
  | cons n ns ih =>
    have hhead : p.node? start = some n := by simpa using hn 0 (by simp)
    have htail : ∀ k, k < ns.length → p.node? (start + 1 + k) = ns[k]? := by
      intro k hk
      have := hn (k + 1) (by simpa using hk)
      rwa [Nat.add_comm k 1, ← Nat.add_assoc, Nat.add_comm 1 k, List.getElem?_cons_succ] at this
    rw [List.length_cons, List.range'_succ, List.zipIdx_cons, List.filterMap_cons,
      List.filterMap_cons, ih htail]
    simp [hhead]

theorem membersAs_of_range {α : Type} (kind : Node → Option α) {p : Program} {id : NodeId}
    {c : ClassDecl} {start : Nat} {ns : List Node} (hc : p.class? id = some c)
    (hm : c.members = List.range' start ns.length)
    (hn : ∀ k, k < ns.length → p.node? (start + k) = ns[k]?) :
    (membersAs kind p id).map Prod.snd = ns.filterMap kind := by
  have hkind : ∀ n : Node × Nat, ((kind n.1).map (n.2, ·)).map Prod.snd = kind n.1 := by
    intro n
    cases kind n.1 <;> rfl
  calc (membersAs kind p id).map Prod.snd
      = (ns.zipIdx start).filterMap (kind ∘ Prod.fst) := by
        rw [membersAs_eq_of_range kind hc hm hn, List.map_filterMap]
        simp only [hkind]
        rfl
    _ = ns.filterMap kind := by rw [← List.filterMap_map, List.zipIdx_map_fst]

/-- Every member that is listed exists. -/
def Closed (p : Program) : Prop :=
  ∀ (id : NodeId) (c : ClassDecl), p.class? id = some c → ∀ m ∈ c.members, (m : Nat) < p.size

theorem closed_iff {p : Program} :
    p.Closed ↔ ∀ e ∈ p.nodes, ∀ c ∈ e.node.asClass?, ∀ m ∈ c.members, (m : Nat) < p.size := by
  constructor
  · intro closed e he c hc
    obtain ⟨id, hid⟩ := List.mem_iff_getElem?.mp he
    exact closed id c (by simp [class?, node?, hid, Option.mem_def.mp hc])
  · intro hall id c hc
    obtain ⟨e, he, hn⟩ := node?_eq_some_iff.mp (class?_eq_some_iff.mp hc)
    exact hall e (List.mem_of_getElem? he) c (by rw [hn]; rfl)

instance (p : Program) : Decidable p.Closed := decidable_of_iff _ closed_iff.symm

/-- Old members come first and are what they were. -/
theorem Extends.membersAs_append {α : Type} {kind : Node → Option α} (stable : Stable kind)
    {p q : Program} (h : p.Extends q) {id : NodeId} {c d : ClassDecl} (hc : p.class? id = some c)
    (live : ∀ m ∈ c.members, (m : Nat) < p.size) (hd : q.class? id = some d) {ids : List NodeId}
    (hm : d.members = c.members ++ ids) :
    membersAs kind q id =
      membersAs kind p id ++ ids.filterMap fun m => ((q.node? m).bind kind).map (m, ·) := by
  rw [membersAs_eq kind hd, membersAs_eq kind hc, hm, List.filterMap_append]
  congr 1
  apply List.filterMap_congr
  intro m hmem
  obtain ⟨n, hn⟩ := node?_of_lt (live m hmem)
  obtain ⟨n', hn', hx⟩ := h.node? hn
  simp [hn, hn', stable n n' hx]

theorem Extends.membersAs_prefix {α : Type} {kind : Node → Option α} (stable : Stable kind)
    {p q : Program} (h : p.Extends q) {id : NodeId} {c : ClassDecl} (hc : p.class? id = some c)
    (live : ∀ m ∈ c.members, (m : Nat) < p.size) :
    membersAs kind p id <+: membersAs kind q id := by
  obtain ⟨d, hd, hx⟩ := h.class? hc
  obtain ⟨ids, hm⟩ := hx.members
  exact ⟨_, (h.membersAs_append stable hc live hd hm.symm).symm⟩

/-! ### An accessor type -/

theorem attachMapper_eq (p : Program) (host : NodeId) (m : MapperSpec) :
    p.attachMapper host m =
      ((p.attach host (.cls m.classDecl)).1.attachAll p.size
        (m.methods.map fun s => .method s.toDecl), p.size) := by
  rw [attachMapper, attachAll, List.foldl_map]
  rfl

theorem extends_attachMapper (p : Program) (host : NodeId) (m : MapperSpec) :
    p.Extends (p.attachMapper host m).1 := by
  rw [attachMapper_eq]
  exact (p.extends_attach host _).trans (extends_attachAll _ _ _)

section AttachMapper
variable {p : Program} {host : Nat} {m : MapperSpec}

theorem node?_attachMapper_of_ne {id : Nat} (h : id ≠ host) (hid : id < p.size) :
    (p.attachMapper host m).1.node? id = p.node? id := by
  have hlt : id < (p.attach host (.cls m.classDecl)).1.size := by rw [size_attach]; omega
  rw [attachMapper_eq, node?_attachAll_of_ne _ _ (by omega) hlt, node?_attach_of_ne p _ h hid]

theorem class?_attachMapper_host {c : ClassDecl} (h : p.class? host = some c) :
    (p.attachMapper host m).1.class? host =
      some { c with members := c.members ++ [p.size] } := by
  have hlt := lt_size_of_class? h
  have hlt' : host < (p.attach host (.cls m.classDecl)).1.size := by rw [size_attach]; omega
  rw [attachMapper_eq, class?, node?_attachAll_of_ne _ _ (by omega) hlt']
  exact class?_attach_owner _ h

theorem class?_attachMapper_new (h : host < p.size) :
    (p.attachMapper host m).1.class? p.size =
      some { m.classDecl with members := List.range' (p.size + 1) m.methods.length } := by
  have hnew : (p.attach host (.cls m.classDecl)).1.class? p.size = some m.classDecl :=
    class?_eq_some_iff.mpr (node?_attach_last p _ h)
  rw [attachMapper_eq, class?_attachAll_owner _ hnew]
  simp [MapperSpec.classDecl]

variable (p host m) in
theorem size_attachMapper :
    (p.attachMapper host m).1.size = p.size + 1 + m.methods.length := by
  simp [attachMapper_eq]

theorem node?_attachMapper_method {k : Nat} (hk : k < m.methods.length) :
    (p.attachMapper host m).1.node? (p.size + 1 + k) =
      (m.methods[k]?).map fun s => .method s.toDecl := by
  have hlt : p.size < (p.attach host (.cls m.classDecl)).1.size := by rw [size_attach]; omega
  have hnew := node?_attachAll_new _ (m.methods.map fun s => Node.method s.toDecl) hlt k
    (by simpa using hk)
  rw [size_attach] at hnew
  rw [attachMapper_eq, hnew, List.getElem?_map]

/-- The methods of the new type are those it was made with, in order behind the type. -/
theorem methodsOf_attachMapper_eq (h : host < p.size) :
    (p.attachMapper host m).1.methodsOf p.size =
      (m.methods.zipIdx (p.size + 1)).map fun s => (s.2, s.1.toDecl) := by
  have hm : List.range' (p.size + 1) m.methods.length =
      List.range' (p.size + 1) (m.methods.map fun s => Node.method s.toDecl).length := by
    rw [List.length_map]
  rw [methodsOf_eq_membersAs, membersAs_eq_of_range Node.asMethod? (class?_attachMapper_new h) hm]
  · rw [List.zipIdx_map, List.filterMap_map]
    exact congrFun List.filterMap_eq_map _
  · intro k hk
    rw [List.length_map] at hk
    rw [node?_attachMapper_method hk, List.getElem?_map]

theorem methodsOf_attachMapper_new (h : host < p.size) :
    ((p.attachMapper host m).1.methodsOf p.size).map Prod.snd =
      m.methods.map MethodSpec.toDecl := by
  calc ((p.attachMapper host m).1.methodsOf p.size).map Prod.snd
      = ((m.methods.zipIdx (p.size + 1)).map Prod.fst).map MethodSpec.toDecl := by
        rw [methodsOf_attachMapper_eq h, List.map_map, List.map_map]
        rfl
    _ = m.methods.map MethodSpec.toDecl := by rw [List.zipIdx_map_fst]

end AttachMapper

end Program

end FieldAccess
