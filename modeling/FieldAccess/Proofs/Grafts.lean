import FieldAccess.Proofs.Batches

/-! Several accessor types attached to a program, one after the other. The new nodes stand behind
all others, one block per type, and each host lists its type as a last member. Nothing of the old
program can see them but the look-up of the reserved name: they are no fields, no methods of objects
and carry no marker. -/
namespace FieldAccess

/-- Lists more members, if the node is a class. -/
def Entry.addMembers (ids : List NodeId) (e : Entry) : Entry :=
  match e.node with
  | .cls c => { e with node := .cls { c with members := c.members ++ ids } }
  | _ => e

theorem Entry.addMembers_nil (e : Entry) : e.addMembers [] = e := by
  obtain ⟨parent, node⟩ := e
  cases node with
  | cls c => simp [addMembers]
  | field f => rfl
  | method m => rfl

theorem Entry.addMembers_append (e : Entry) (xs ys : List NodeId) :
    e.addMembers (xs ++ ys) = (e.addMembers xs).addMembers ys := by
  obtain ⟨parent, node⟩ := e
  cases node with
  | cls c => simp [addMembers]
  | field f => rfl
  | method m => rfl

/-- The methods of an accessor type as members. -/
def MapperSpec.nodes (m : MapperSpec) : List Node := m.methods.map fun s => .method s.toDecl

/-- An accessor type with its host and its place. -/
structure Graft where
  host : NodeId
  place : NodeId
  spec : MapperSpec

/-- The nodes of an accessor type: a class, then its methods. -/
def Graft.entries (g : Graft) : List Entry :=
  ⟨some g.host,
    .cls { g.spec.classDecl with members := List.range' (g.place + 1) g.spec.methods.length }⟩ ::
    g.spec.methods.map fun s => ⟨some g.place, .method s.toDecl⟩

/-- Types that are attached in turn, each behind the nodes of those before it. -/
def Graft.layout : (start : Nat) → List (NodeId × MapperSpec) → List Graft
  | _, [] => []
  | start, s :: rest => ⟨s.1, start, s.2⟩ :: layout (start + 1 + s.2.methods.length) rest

/-- Places of the types of one host. -/
def Graft.placesOf (host : NodeId) (gs : List Graft) : List NodeId :=
  (gs.filter fun g => g.host == host).map Graft.place

theorem Graft.placesOf_append_singleton (host : NodeId) (gs : List Graft) (g : Graft) :
    placesOf host (gs ++ [g]) = placesOf host gs ++ if g.host = host then [g.place] else [] := by
  by_cases h : g.host = host <;> simp [placesOf, h]

namespace Program

/-- The program with accessor types behind it, and nothing else changed. -/
def withGrafts (p : Program) (gs : List Graft) : Program :=
  { p with
    nodes := (p.nodes.mapIdx fun i e => e.addMembers (Graft.placesOf i gs)) ++
      gs.flatMap Graft.entries }

def graftAll (p : Program) (specs : List (NodeId × MapperSpec)) : Program :=
  specs.foldl (fun q s => (q.attachMapper s.1 s.2).1) p

theorem graftAll_append (p : Program) (specs later : List (NodeId × MapperSpec)) :
    p.graftAll (specs ++ later) = (p.graftAll specs).graftAll later :=
  List.foldl_append

theorem extends_graftAll (p : Program) (specs : List (NodeId × MapperSpec)) :
    p.Extends (p.graftAll specs) := by
  induction specs generalizing p with
  | nil => exact .refl p
  | cons s specs ih => exact (p.extends_attachMapper s.1 s.2).trans (ih _)

/-! ### The nodes after a run -/

theorem nodes_attach {p : Program} {owner : Nat} (h : owner < p.size) (n : Node) :
    (p.attach owner n).1.nodes =
      p.nodes.modify owner (Entry.addMembers [p.size]) ++ [⟨some owner, n⟩] := by
  have hmodify : (p.attach owner n).1.nodes =
      (p.nodes ++ [(⟨some owner, n⟩ : Entry)]).modify owner (Entry.addMembers [p.size]) := rfl
  rw [hmodify]
  apply List.ext_getElem?
  intro i
  rw [List.getElem?_modify]
  rcases Nat.lt_or_ge i p.nodes.length with hi | hi
  · rw [List.getElem?_append_left hi, List.getElem?_append_left (by simpa using hi),
      List.getElem?_modify]
  · have hne : owner ≠ i := by
      have : p.size = p.nodes.length := rfl
      omega
    rw [List.getElem?_append_right hi, List.getElem?_append_right (by simpa using hi)]
    simp [hne]

theorem roots_attach (p : Program) (owner : NodeId) (n : Node) :
    (p.attach owner n).1.roots = p.roots := rfl

/-- Members for a class that stands right before what has been added to it. -/
theorem nodes_attachAll {p : Program} {front tail : List Entry} {e : Entry}
    (hp : p.nodes = front ++ e :: tail) (ns : List Node) :
    (p.attachAll front.length ns).nodes =
      front ++ e.addMembers (List.range' p.size ns.length) ::
        (tail ++ ns.map fun n => ⟨some front.length, n⟩) := by
  induction ns generalizing p e tail with
  | nil => simp [attachAll, hp, Entry.addMembers_nil]
  | cons n ns ih =>
    have hlt : front.length < p.size := by simp [size, hp]
    have hnodes : (p.attach front.length n).1.nodes =
        front ++ e.addMembers [p.size] :: (tail ++ [⟨some front.length, n⟩]) := by
      rw [nodes_attach hlt, hp]
      simp [List.modify_eq_set_getElem?]
    have hmembers : e.addMembers (List.range' p.size (n :: ns).length) =
        (e.addMembers [p.size]).addMembers (List.range' (p.size + 1) ns.length) := by
      rw [← Entry.addMembers_append, List.length_cons, List.range'_succ]
      rfl
    rw [attachAll_cons, ih hnodes, size_attach, hmembers]
    simp

theorem nodes_attachMapper {p : Program} {host : Nat} (h : host < p.size) (m : MapperSpec) :
    (p.attachMapper host m).1.nodes =
      p.nodes.modify host (Entry.addMembers [p.size]) ++ (Graft.mk host p.size m).entries := by
  have hlength : (p.nodes.modify host (Entry.addMembers [p.size])).length = p.size := by
    simp [size]
  have hclass := nodes_attach h (.cls m.classDecl)
  have hall := nodes_attachAll hclass (m.methods.map fun s => Node.method s.toDecl)
  rw [hlength] at hall
  rw [attachMapper_eq, hall, size_attach]
  simp [Graft.entries, Entry.addMembers, MapperSpec.classDecl]

theorem roots_attachMapper (p : Program) (host : NodeId) (m : MapperSpec) :
    (p.attachMapper host m).1.roots = p.roots := by
  have hall : ∀ (ns : List Node) (owner : NodeId) (q : Program),
      (q.attachAll owner ns).roots = q.roots := by
    intro ns
    induction ns with
    | nil => intro owner q; rfl
    | cons n ns ih => intro owner q; exact (ih owner _).trans (q.roots_attach owner n)
  rw [attachMapper_eq]
  exact (hall _ _ _).trans (p.roots_attach host _)

theorem size_withGrafts (p : Program) (gs : List Graft) :
    (p.withGrafts gs).size = p.size + (gs.flatMap Graft.entries).length := by
  simp [withGrafts, size]

/-- One more type stands behind those that are there. -/
theorem withGrafts_attachMapper {p : Program} {host : Nat} (h : host < p.size) (gs : List Graft)
    (m : MapperSpec) :
    ((p.withGrafts gs).attachMapper host m).1 =
      p.withGrafts (gs ++ [⟨host, (p.withGrafts gs).size, m⟩]) := by
  have hlt : host < (p.withGrafts gs).size := by
    rw [size_withGrafts]
    omega
  generalize hplace : (p.withGrafts gs).size = place
  have hold : (p.withGrafts gs).nodes.modify host (Entry.addMembers [place]) =
      (p.nodes.mapIdx fun i e => e.addMembers (Graft.placesOf i (gs ++ [⟨host, place, m⟩]))) ++
        gs.flatMap Graft.entries := by
    apply List.ext_getElem?
    intro i
    rw [List.getElem?_modify, withGrafts]
    rcases Nat.lt_or_ge i p.nodes.length with hi | hi
    · rw [List.getElem?_append_left (by simpa using hi),
        List.getElem?_append_left (by simpa using hi), List.getElem?_mapIdx, List.getElem?_mapIdx,
        Option.map_eq_map, Option.map_map]
      congr 1
      funext e
      rw [Function.comp_apply, Graft.placesOf_append_singleton, Entry.addMembers_append]
      by_cases hhost : host = i
      · simp [hhost]
      · simp [hhost, Entry.addMembers_nil]
    · have hne : host ≠ i := by
        have : p.size = p.nodes.length := rfl
        omega
      rw [List.getElem?_append_right (by simpa using hi),
        List.getElem?_append_right (by simpa using hi)]
      simp [hne]
  have hnodes : ((p.withGrafts gs).attachMapper host m).1.nodes =
      (p.withGrafts (gs ++ [⟨host, place, m⟩])).nodes := by
    rw [nodes_attachMapper hlt, hplace, hold]
    simp [withGrafts]
  have hroots := (p.withGrafts gs).roots_attachMapper host m
  calc ((p.withGrafts gs).attachMapper host m).1
      = ⟨((p.withGrafts gs).attachMapper host m).1.nodes,
          ((p.withGrafts gs).attachMapper host m).1.roots⟩ := rfl
    _ = p.withGrafts (gs ++ [⟨host, place, m⟩]) := by rw [hnodes, hroots]; rfl

theorem layout_append_singleton (start : Nat) (specs : List (NodeId × MapperSpec))
    (s : NodeId × MapperSpec) :
    Graft.layout start (specs ++ [s]) = Graft.layout start specs ++
      [⟨s.1, start + ((Graft.layout start specs).flatMap Graft.entries).length, s.2⟩] := by
  induction specs generalizing start with
  | nil => rfl
  | cons t specs ih =>
    have hplace : start + 1 + t.2.methods.length +
          ((Graft.layout (start + 1 + t.2.methods.length) specs).flatMap Graft.entries).length =
        start + ((Graft.layout start (t :: specs)).flatMap Graft.entries).length := by
      simp only [Graft.layout, List.flatMap_cons, List.length_append, Graft.entries,
        List.length_cons, List.length_map]
      omega
    rw [List.cons_append, Graft.layout, ih, hplace]
    rfl

/-- Attaching types one after the other gives the blocks one after the other. -/
theorem graftAll_eq_withGrafts {p : Program} {specs : List (NodeId × MapperSpec)}
    (h : ∀ s ∈ specs, (s.1 : Nat) < p.size) :
    p.graftAll specs = p.withGrafts (Graft.layout p.size specs) := by
  induction specs using List.reverseRecOn with
  | nil =>
    have hnodes : p.nodes.mapIdx (fun _ e => e) = p.nodes := by
      apply List.ext_getElem?
      intro i
      simp
    simp [graftAll, withGrafts, Graft.layout, Graft.placesOf, Entry.addMembers_nil, hnodes]
  | append_singleton specs s ih =>
    have hs : (s.1 : Nat) < p.size := h s (List.mem_append_right _ (List.mem_singleton.mpr rfl))
    have hlast := withGrafts_attachMapper hs (Graft.layout p.size specs) s.2
    rw [size_withGrafts, ← layout_append_singleton] at hlast
    rw [graftAll_append, ih fun t ht => h t (List.mem_append_left _ ht)]
    exact hlast

/-! ### Where the types stand -/

theorem class?_withGrafts {p : Program} (gs : List Graft) {id : NodeId} {c : ClassDecl}
    (hc : p.class? id = some c) :
    (p.withGrafts gs).class? id = some { c with members := c.members ++ Graft.placesOf id gs } := by
  obtain ⟨e, he, hn⟩ := node?_eq_some_iff.mp (class?_eq_some_iff.mp hc)
  have hlt : (id : Nat) < p.nodes.length := (List.getElem?_eq_some_iff.mp he).1
  rw [class?_eq_some_iff, node?_eq_some_iff]
  refine ⟨e.addMembers (Graft.placesOf id gs), ?_, by simp [Entry.addMembers, hn]⟩
  rw [withGrafts, List.getElem?_append_left (by simpa using hlt), List.getElem?_mapIdx, he]
  rfl

end Program

namespace Graft

variable {start : Nat} {specs : List (NodeId × MapperSpec)} {g : Graft}

theorem mem_layout (h : g ∈ layout start specs) : (g.host, g.spec) ∈ specs := by
  induction specs generalizing start with
  | nil => cases h
  | cons s specs ih =>
    rcases List.mem_cons.mp h with rfl | h
    · exact List.mem_cons_self
    · exact List.mem_cons_of_mem _ (ih h)

theorem exists_mem_layout (start : Nat) {s : NodeId × MapperSpec} (h : s ∈ specs) :
    ∃ place, ⟨s.1, place, s.2⟩ ∈ layout start specs := by
  induction specs generalizing start with
  | nil => cases h
  | cons t specs ih =>
    rcases List.mem_cons.mp h with rfl | h
    · exact ⟨start, List.mem_cons_self⟩
    · obtain ⟨place, hplace⟩ := ih _ h
      exact ⟨place, List.mem_cons_of_mem _ hplace⟩

theorem start_le_place (h : g ∈ layout start specs) : start ≤ (g.place : Nat) := by
  induction specs generalizing start with
  | nil => cases h
  | cons s specs ih =>
    rcases List.mem_cons.mp h with rfl | h
    · exact Nat.le_refl _
    · have hrest := ih h
      omega

/-- The block of a type starts at its place. -/
theorem getElem?_entries (h : g ∈ layout start specs) {k : Nat} {e : Entry}
    (he : g.entries[k]? = some e) :
    ((layout start specs).flatMap entries)[g.place + k - start]? = some e := by
  induction specs generalizing start with
  | nil => cases h
  | cons s specs ih =>
    rw [layout, List.flatMap_cons]
    rcases List.mem_cons.mp h with rfl | h
    · have hk : k < (Graft.entries ⟨s.1, start, s.2⟩).length := (List.getElem?_eq_some_iff.mp he).1
      rw [Nat.add_sub_cancel_left, List.getElem?_append_left hk]
      exact he
    · have hle := start_le_place h
      have hlength : (Graft.entries ⟨s.1, start, s.2⟩).length = 1 + s.2.methods.length := by
        simp [entries, Nat.add_comm]
      have hfront : (Graft.entries ⟨s.1, start, s.2⟩).length ≤ g.place + k - start := by
        rw [hlength]
        exact Nat.le_sub_of_add_le (by omega)
      rw [List.getElem?_append_right hfront, hlength, Nat.sub_sub, ← Nat.add_assoc]
      exact ih h

theorem placesOf_of_not_mem {host : NodeId} (h : host ∉ specs.map Prod.fst) :
    placesOf host (layout start specs) = [] := by
  rw [placesOf, List.map_eq_nil_iff, List.filter_eq_nil_iff]
  intro g hg hhost
  rw [beq_iff_eq] at hhost
  exact h (hhost ▸ List.mem_map.mpr ⟨_, mem_layout hg, rfl⟩)

/-- A host with one type has one place. -/
theorem placesOf_layout (distinct : (specs.map Prod.fst).Nodup) (h : g ∈ layout start specs) :
    placesOf g.host (layout start specs) = [g.place] := by
  induction specs generalizing start with
  | nil => cases h
  | cons s specs ih =>
    obtain ⟨hnew, hrest⟩ := List.nodup_cons.mp distinct
    rcases List.mem_cons.mp h with rfl | h
    · have hnone : placesOf s.1 (layout (start + 1 + s.2.methods.length) specs) = [] :=
        placesOf_of_not_mem hnew
      simp only [placesOf, List.map_eq_nil_iff] at hnone
      simp [placesOf, layout, hnone]
    · have hne : s.1 ≠ g.host := by
        intro heq
        exact hnew (heq ▸ List.mem_map.mpr ⟨_, mem_layout h, rfl⟩)
      have hcons : placesOf g.host (layout start (s :: specs)) =
          placesOf g.host (layout (start + 1 + s.2.methods.length) specs) := by
        simp [placesOf, layout, hne]
      rw [hcons, ih hrest h]

end Graft

namespace Program

/-- A class stands at a place, its members right after it, and lists some more. -/
structure Laid (q : Program) (host : Nat) (d : ClassDecl) (ns : List Node) (last : List NodeId) :
    Prop where
  decl : q.class? host = some { d with members := List.range' (host + 1) ns.length ++ last }
  nodes : ∀ k, k < ns.length → q.node? (host + 1 + k) = ns[k]?

theorem node?_withGrafts_new {p : Program} {specs : List (NodeId × MapperSpec)} {g : Graft}
    (hg : g ∈ Graft.layout p.size specs) {k : Nat} {e : Entry} (he : g.entries[k]? = some e) :
    (p.withGrafts (Graft.layout p.size specs)).node? (g.place + k) = some e.node := by
  have hle := Graft.start_le_place hg
  have hsize : p.size = p.nodes.length := rfl
  rw [node?_eq_some_iff]
  refine ⟨e, ?_, rfl⟩
  rw [withGrafts, List.getElem?_append_right (by rw [List.length_mapIdx]; omega),
    List.length_mapIdx, ← hsize]
  exact Graft.getElem?_entries hg he

theorem laid_withGrafts {p : Program} {specs : List (NodeId × MapperSpec)} {g : Graft}
    (hg : g ∈ Graft.layout p.size specs) :
    (p.withGrafts (Graft.layout p.size specs)).Laid g.place g.spec.classDecl g.spec.nodes [] := by
  constructor
  · rw [class?_eq_some_iff, MapperSpec.nodes, List.length_map, List.append_nil]
    exact node?_withGrafts_new (k := 0) hg rfl
  · intro k hk
    have hlt : k < g.spec.methods.length := by simpa [MapperSpec.nodes] using hk
    have he : g.entries[k + 1]? = some ⟨some g.place, .method (g.spec.methods[k]).toDecl⟩ := by
      simp [Graft.entries, hlt]
    have hnode := node?_withGrafts_new hg he
    rw [Nat.add_assoc, Nat.add_comm 1 k, hnode]
    simp [MapperSpec.nodes, hlt]

end Program

/-! ### What the new nodes are -/

/-- What accessor types consist of: a class of the reserved name, and methods that belong to no
object. None carries an annotation. -/
inductive Node.Generated : Node → Prop where
  | cls {c : ClassDecl} (name : c.name = mapperName) (origin : c.origin = .synthesized)
      (unmarked : c.annotations = []) : Generated (.cls c)
  | method {m : MethodDecl} (static : m.isStatic = true) (unmarked : m.annotations = []) :
    Generated (.method m)

/-- An accessor type as synthesis makes it. -/
structure MapperSpec.Standard (m : MapperSpec) : Prop where
  name : m.name = mapperName
  static : ∀ s ∈ m.methods, s.isStatic = true

theorem Synthesis.standard_mapper (host : NodeId) (hostName : String) (fields : List FieldDesc) :
    (mapper host hostName fields).Standard := by
  refine ⟨rfl, ?_⟩
  intro s hs
  rcases Accessor.ServesOnly.mem_methods hs with rfl | rfl | ⟨f, _, rfl | rfl⟩ <;> rfl

theorem Graft.generated_of_mem_entries {g : Graft} (standard : g.spec.Standard) {e : Entry}
    (he : e ∈ g.entries) : e.node.Generated := by
  rcases List.mem_cons.mp he with rfl | he
  · exact .cls standard.name rfl rfl
  · obtain ⟨s, hs, rfl⟩ := List.mem_map.mp he
    exact .method (standard.static s hs) rfl

/-! ### What the old program shows -/

/-- Methods that belong to objects. -/
def Node.instanceMethod? (n : Node) : Option MethodDecl := n.asMethod?.filter fun m => !m.isStatic

theorem Program.stable_instanceMethod? : Stable Node.instanceMethod? := by
  intro n n' h
  cases h <;> rfl

theorem Catalog.instanceMethods_eq (p : Program) (owner : NodeId) (name : String) (arity : Nat) :
    instanceMethods p owner name arity =
      (Program.membersAs Node.instanceMethod? p owner).filter fun m =>
        m.2.name == name && m.2.params.length == arity := by
  have hmethods : Program.membersAs Node.instanceMethod? p owner =
      (p.methodsOf owner).filter fun m => !m.2.isStatic := by
    rw [Program.methodsOf, List.filter_filterMap, Program.membersAs]
    congr 1
    funext m
    cases h : m.2.asMethod? with
    | none => simp [Node.instanceMethod?, h]
    | some decl => cases hs : decl.isStatic <;> simp [Node.instanceMethod?, h, hs, Option.filter]
  rw [hmethods, List.filter_filter, instanceMethods]
  congr 1
  funext m
  cases m.2.isStatic <;> simp

namespace Program

/-- All nodes by their ids. -/
theorem filterMap_indexed {α : Type} (p : Program) (f : NodeId × Node → Option α) :
    p.indexed.filterMap f =
      (List.range p.size).filterMap fun id => (p.node? id).bind fun n => f (id, n) := by
  obtain ⟨nodes, roots⟩ := p
  induction nodes using List.reverseRecOn with
  | nil => rfl
  | append_singleton nodes e ih =>
    have hold : ∀ id ∈ List.range nodes.length,
        ((node? ⟨nodes ++ [e], roots⟩ id).bind fun n => f (id, n)) =
          (node? ⟨nodes, roots⟩ id).bind fun n => f (id, n) := by
      intro id hid
      simp [node?, List.getElem?_append_left (List.mem_range.mp hid)]
    have hlast : node? ⟨nodes ++ [e], roots⟩ nodes.length = some e.node := by simp [node?]
    have hsize : size ⟨nodes ++ [e], roots⟩ = nodes.length + 1 := by simp [size]
    have hindexed : indexed ⟨nodes ++ [e], roots⟩ =
        indexed ⟨nodes, roots⟩ ++ [(nodes.length, e.node)] := by
      simp [indexed, List.zipIdx_append]
    rw [hindexed, hsize, List.filterMap_append, ih, List.range_succ, List.filterMap_append,
      List.filterMap_congr hold]
    congr 1
    simp only [List.filterMap_cons, hlast, Option.bind_some]
    rfl

/-- `q` is `p` after the given hosts have got accessor types. Unlike `Served`, this says nothing
about the members that a class lists without their being there. -/
structure Hosting (p q : Program) (hosts : List NodeId) : Prop where
  grown : p.Extends q
  types : (Hierarchy.ofProgram q).Agrees (.ofProgram p)
  new : ∀ (id : Nat) (n : Node), p.size ≤ id → q.node? id = some n → n.Generated
  class_ : ∀ (id : NodeId) (c : ClassDecl), p.class? id = some c → ∃ ids : List NodeId,
    q.class? id = some { c with members := c.members ++ ids } ∧ (∀ i ∈ ids, p.size ≤ (i : Nat)) ∧
      (id ∉ hosts → ids = [])

namespace Hosting

theorem refl (p : Program) : p.Hosting p [] := by
  refine ⟨.refl p, .refl _, ?_, ?_⟩
  · intro id n hid hn
    have := lt_size_of_node? hn
    omega
  · intro id c hc
    exact ⟨[], by simpa using hc, by simp, fun _ => rfl⟩

variable {p q : Program} {hosts : List NodeId} (hosting : p.Hosting q hosts)
include hosting

theorem attachMapper {host : Nat} {c : ClassDecl} (hc : p.class? host = some c) {m : MapperSpec}
    (standard : m.Standard) : p.Hosting (q.attachMapper host m).1 (hosts ++ [host]) := by
  have hhost : host < p.size := lt_size_of_class? hc
  have hsize := hosting.grown.size_le
  refine ⟨hosting.grown.trans (q.extends_attachMapper host m),
    (types_attachMapper q host m).trans hosting.types, ?_, ?_⟩
  · intro id n hid hn
    obtain ⟨e, he, rfl⟩ := node?_eq_some_iff.mp hn
    rw [nodes_attachMapper (by omega)] at he
    rcases Nat.lt_or_ge id q.size with hlt | hge
    · have hold : q.node? id = some e.node := by
        rw [← hn, node?_attachMapper_of_ne (by omega) hlt]
      exact hosting.new id e.node hid hold
    · rw [List.getElem?_append_right (by simpa [size] using hge)] at he
      exact Graft.generated_of_mem_entries standard (List.mem_of_getElem? he)
  · intro id d hd
    obtain ⟨ids, hids, hnew, hempty⟩ := hosting.class_ id d hd
    by_cases hne : id = host
    · subst hne
      refine ⟨ids ++ [q.size], ?_, ?_, ?_⟩
      · rw [class?_attachMapper_host hids, List.append_assoc]
      · intro i hi
        rcases List.mem_append.mp hi with hi | hi
        · exact hnew i hi
        · rw [List.mem_singleton.mp hi]
          exact hsize
      · intro hnot
        exact absurd (List.mem_append_right _ (List.mem_singleton.mpr rfl)) hnot
    · refine ⟨ids, ?_, hnew, fun hnot => hempty fun hmem => hnot (List.mem_append_left _ hmem)⟩
      have hid := lt_size_of_class? hids
      rw [class?, node?_attachMapper_of_ne hne hid]
      exact hids

/-- A kind that no new node has is had by the same members as before. -/
theorem membersAs_eq {α : Type} {kind : Node → Option α} (stable : Stable kind)
    (invisible : ∀ n : Node, n.Generated → kind n = none) {id : NodeId} {c : ClassDecl}
    (hc : p.class? id = some c) : membersAs kind q id = membersAs kind p id := by
  obtain ⟨ids, hids, hnew, _⟩ := hosting.class_ id c hc
  have hnone : ∀ k : NodeId, p.size ≤ (k : Nat) → (q.node? k).bind kind = none := by
    intro k hk
    cases hn : q.node? k with
    | none => rfl
    | some n => exact invisible n (hosting.new k n hk hn)
  have hsame : ∀ k : NodeId, (q.node? k).bind kind = (p.node? k).bind kind := by
    intro k
    cases hn : p.node? k with
    | some n =>
      obtain ⟨n', hn', hx⟩ := hosting.grown.node? hn
      simp [hn', stable n n' hx]
    | none =>
      refine hnone k ?_
      rcases Nat.lt_or_ge k p.size with hlt | hge
      · obtain ⟨n, hn'⟩ := node?_of_lt hlt
        rw [hn] at hn'
        cases hn'
      · exact hge
  rw [Program.membersAs_eq kind hids, Program.membersAs_eq kind hc, List.filterMap_append]
  have htail : (ids.filterMap fun m => ((q.node? m).bind kind).map (m, ·)) = [] := by
    rw [List.filterMap_eq_nil_iff]
    intro k hk
    rw [hnone k (hnew k hk)]
    rfl
  rw [htail, List.append_nil]
  simp only [hsame]

theorem fieldsOf_eq {id : NodeId} {c : ClassDecl} (hc : p.class? id = some c) :
    q.fieldsOf id = p.fieldsOf id := by
  refine hosting.membersAs_eq stable_asField? ?_ hc
  intro n hn
  cases hn <;> rfl

/-- A catalog reads nothing that has changed. -/
theorem catalog_eq {id : NodeId} {c : ClassDecl} (hc : p.class? id = some c) {types : Hierarchy}
    (htypes : types.Agrees (.ofProgram p)) : catalog q types id = catalog p (.ofProgram p) id := by
  obtain ⟨ids, hids, _, _⟩ := hosting.class_ id c hc
  refine catalog_congr hc hids rfl (hosting.fieldsOf_eq hc) ?_ htypes
  intro name arity
  have hmethods := hosting.membersAs_eq stable_instanceMethod? ?_ hc
  · rw [Catalog.instanceMethods_eq, Catalog.instanceMethods_eq, hmethods]
  · intro n hn
    cases hn with
    | cls _ _ _ => rfl
    | method static _ => simp [Node.instanceMethod?, Node.asMethod?, static]

theorem synthesize_eq {id : NodeId} {c : ClassDecl} (hc : p.class? id = some c) {types : Hierarchy}
    (htypes : types.Agrees (.ofProgram p)) :
    synthesize q types id = synthesize p (.ofProgram p) id := by
  obtain ⟨ids, hids, _, _⟩ := hosting.class_ id c hc
  simp only [synthesize, hosting.catalog_eq hc htypes, expectClass_eq_ok_iff.mpr hc,
    expectClass_eq_ok_iff.mpr hids]

/-- Nodes are marked as before. -/
theorem node?_old {id : NodeId} {n : Node} (hn : p.node? id = some n) :
    ∃ n', q.node? id = some n' ∧ n'.annotations = n.annotations ∧ n'.isClass = n.isClass := by
  obtain ⟨n', hn', hx⟩ := hosting.grown.node? hn
  refine ⟨n', hn', ?_⟩
  cases hx with
  | field f => exact ⟨rfl, rfl⟩
  | method m => exact ⟨rfl, rfl⟩
  | @cls c d _ =>
    obtain ⟨ids, hids, _, _⟩ := hosting.class_ id c (class?_eq_some_iff.mpr hn)
    rw [class?_eq_some_iff.mpr hn', Option.some.injEq] at hids
    subst hids
    exact ⟨rfl, rfl⟩

/-- What is read off all nodes does not change if it passes over the new ones. -/
theorem filterMap_indexed_eq {α : Type} {f g : NodeId × Node → Option α}
    (hold : ∀ (id : NodeId) (n n' : Node), p.node? id = some n → q.node? id = some n' →
      n'.annotations = n.annotations → n'.isClass = n.isClass → g (id, n') = f (id, n))
    (hnew : ∀ (id : NodeId) (n : Node), n.Generated → g (id, n) = none) :
    q.indexed.filterMap g = p.indexed.filterMap f := by
  have hsize := hosting.grown.size_le
  have hrange : List.range q.size = List.range p.size ++ List.range' p.size (q.size - p.size) := by
    have happend : List.range' 0 p.size ++ List.range' (0 + p.size) (q.size - p.size) =
        List.range' 0 (p.size + (q.size - p.size)) := List.range'_append_1
    rw [Nat.zero_add, Nat.add_sub_cancel' hsize] at happend
    rw [List.range_eq_range', List.range_eq_range', happend]
  rw [filterMap_indexed, filterMap_indexed, hrange, List.filterMap_append]
  have htail : ((List.range' p.size (q.size - p.size)).filterMap fun id =>
      (q.node? id).bind fun n => g (id, n)) = [] := by
    rw [List.filterMap_eq_nil_iff]
    intro id hid
    have hge : p.size ≤ id := (List.mem_range'_1.mp hid).1
    cases hn : q.node? id with
    | none => rfl
    | some n => exact hnew id n (hosting.new id n hge hn)
  rw [htail, List.append_nil]
  apply List.filterMap_congr
  intro id hid
  obtain ⟨n, hn⟩ := node?_of_lt (List.mem_range.mp hid)
  obtain ⟨n', hn', hann, hkind⟩ := hosting.node?_old hn
  rw [hn, hn']
  exact hold id n n' hn hn' hann hkind

end Hosting

/-! ### The reserved name -/

theorem findReserved?_isSome_iff {p : Program} {id : NodeId} {c : ClassDecl}
    (hc : p.class? id = some c) :
    (p.findReserved? id).isSome = true ↔ ∃ k ∈ c.members, ∃ origin,
      (p.node? k).bind headerOf? = some (mapperName, origin) := by
  rw [findReserved?_eq, Option.isSome_map, List.find?_isSome, membersAs_eq headerOf? hc]
  constructor
  · rintro ⟨x, hx, hname⟩
    obtain ⟨k, hk, hkx⟩ := List.mem_filterMap.mp hx
    obtain ⟨⟨name, origin⟩, hheader, rfl⟩ := Option.map_eq_some_iff.mp hkx
    obtain rfl : name = mapperName := by simpa using hname
    exact ⟨k, hk, origin, hheader⟩
  · rintro ⟨k, hk, origin, hheader⟩
    refine ⟨(k, mapperName, origin), List.mem_filterMap.mpr ⟨k, hk, ?_⟩, by simp⟩
    rw [hheader]
    rfl

/-- A class with a type of the reserved name keeps one. -/
theorem Extends.findReserved?_isSome {p q : Program} (h : p.Extends q) {id : NodeId}
    (hp : (p.findReserved? id).isSome = true) : (q.findReserved? id).isSome = true := by
  cases hc : p.class? id with
  | none => simp [findReserved?, nestedOf, members, hc] at hp
  | some c =>
    obtain ⟨d, hd, hx⟩ := h.class? hc
    obtain ⟨k, hk, origin, hheader⟩ := (findReserved?_isSome_iff hc).mp hp
    refine (findReserved?_isSome_iff hd).mpr ⟨k, hx.members.subset hk, origin, ?_⟩
    obtain ⟨n, hn, hnh⟩ := Option.bind_eq_some_iff.mp hheader
    obtain ⟨n', hn', hx'⟩ := h.node? hn
    rw [hn', Option.bind_some, stable_headerOf? n n' hx', hnh]

/-- A class that got no type looks up what it looked up before, if the members it lists were
there. -/
theorem Hosting.findReserved?_eq {p q : Program} {hosts : List NodeId} (hosting : p.Hosting q hosts)
    {id : NodeId} {c : ClassDecl} (hc : p.class? id = some c)
    (live : ∀ m ∈ c.members, (m : Nat) < p.size) (hid : id ∉ hosts) :
    q.findReserved? id = p.findReserved? id := by
  obtain ⟨ids, hids, _, hempty⟩ := hosting.class_ id c hc
  have happend := hosting.grown.membersAs_append stable_headerOf? hc live hids rfl
  rw [hempty hid] at happend
  rw [Program.findReserved?_eq, Program.findReserved?_eq, happend]
  simp

end Program

end FieldAccess
