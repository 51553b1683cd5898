import FieldAccess.Proofs.Edits
import FieldAccess.Proofs.FailedWrites
import FieldAccess.Proofs.Renaming
import FieldAccess.Proofs.Verdicts
import Mathlib.Logic.Relation

/-! Accessor types that are made now and attached later. Between the two the program may be edited,
run and given other types, in any order. A class still gets one type at most, and the accessors that
a type calls are what they were when it was made. -/
namespace FieldAccess

/-! ### What can happen to a program -/

namespace Program

/-- A change to a program: a class at the top, a member that is no accessor type, longer lists of a
class, or an accessor type for a class that has none. -/
inductive Change (p : Program) : Program → Prop where
  | addClass (c : ClassDecl) : Change p (p.addClass c).1
  | attach {owner : NodeId} {c : ClassDecl} (hc : p.class? owner = some c) {n : Node}
      (user : ∀ d, n = .cls d → d.origin = .user) : Change p (p.attach owner n).1
  | modify (id : NodeId) {f : ClassDecl → ClassDecl} (hf : ∀ c : ClassDecl, c.Extends (f c)) :
      Change p (p.modifyClass id f)
  | mapper {host : NodeId} {c : ClassDecl} (hc : p.class? host = some c)
      (free : p.findReserved? host = none) {m : MapperSpec} (name : m.name = mapperName) :
      Change p (p.attachMapper host m).1

/-- Any number of changes. -/
abbrev Changes : Program → Program → Prop := Relation.ReflTransGen Change

theorem extends_addClass (p : Program) (c : ClassDecl) : p.Extends (p.addClass c).1 := by
  intro id e he
  refine ⟨e, ?_, rfl, .refl e.node⟩
  rw [Program.addClass, List.getElem?_append_left (List.getElem?_eq_some_iff.mp he).1]
  exact he

theorem Change.extends {p q : Program} (change : p.Change q) : p.Extends q := by
  cases change with
  | addClass c => exact p.extends_addClass c
  | attach _ _ => exact p.extends_attach _ _
  | modify id hf => exact p.extends_modifyClass id hf
  | mapper _ _ _ => exact p.extends_attachMapper _ _

theorem Changes.extends {p q : Program} (changes : p.Changes q) : p.Extends q := by
  induction changes with
  | refl => exact .refl p
  | tail _ change ih => exact ih.trans change.extends

/-- Members that are no classes. -/
theorem Changes.attachAll {p q : Program} (changes : p.Changes q) {owner : NodeId} {c : ClassDecl}
    (hc : q.class? owner = some c) {ns : List Node} (plain : ∀ n ∈ ns, n.asClass? = none) :
    p.Changes (q.attachAll owner ns) := by
  induction ns generalizing q c with
  | nil => exact changes
  | cons n ns ih =>
    have user : ∀ d, n = .cls d → d.origin = .user := by
      rintro d rfl
      exact absurd (plain _ List.mem_cons_self) nofun
    exact ih (changes.tail (.attach hc user)) (class?_attach_owner n hc)
      fun m hm => plain m (List.mem_cons_of_mem _ hm)

theorem Changes.populateAll {p q : Program} (changes : p.Changes q) (cs : List ClassDef) :
    p.Changes (q.populateAll cs).1 := by
  induction cs generalizing q with
  | nil => exact changes
  | cons c cs ih =>
    apply ih
    exact Changes.attachAll (changes.tail (.addClass c.decl)) (class?_addClass_last q c.decl)
      fun _ => asClass?_of_mem_nodes

theorem changes_run (p : Program) (inline : Bool) : p.Changes (Batch.run inline p).program := by
  have hfold : ∀ (ids : List NodeId) (b : Batch), p.Changes b.program →
      p.Changes (ids.foldl (Batch.step (.ofProgram p)) b).program := by
    intro ids
    induction ids with
    | nil => exact fun b changes => changes
    | cons id ids ih =>
      intro b changes
      apply ih
      rcases Batch.step_program (.ofProgram p) b id with heq | ⟨m, hm, free, heq⟩
      · rw [heq]
        exact changes
      · obtain ⟨_, c, _, hc, rfl⟩ := synthesize_ok hm
        rw [heq]
        exact changes.tail (.mapper hc free rfl)
  cases inline with
  | false => exact .refl
  | true => exact hfold (Batch.candidates p) _ .refl

theorem changes_of_inject {p q : Program} {host : NodeId} {m : MapperSpec}
    (name : m.name = mapperName) {outcome : InjectOutcome}
    (injected : p.inject host m = .ok (q, outcome)) : p.Changes q := by
  cases outcome with
  | injected nested =>
    obtain ⟨⟨c, hc⟩, free, rfl, _⟩ := inject_injected injected
    exact .single (.mapper hc free name)
  | alreadyPresent existing origin =>
    rw [inject_alreadyPresent injected]

/-! ### One type for each owner -/

/-- A class made by synthesis, with the class that owns it. -/
def OwnsType (p : Program) (host id : NodeId) : Prop :=
  p.parent? id = some host ∧ ∃ c, p.class? id = some c ∧ c.origin = .synthesized

/-- A class owns one accessor type at most, and is found to have one if it does. -/
structure OwnOnce (p : Program) : Prop where
  found : ∀ host id : NodeId, p.OwnsType host id → (p.findReserved? host).isSome = true
  unique : ∀ host a b : NodeId, p.OwnsType host a → p.OwnsType host b → a = b

theorem ownOnce_empty : Program.empty.OwnOnce := by
  constructor <;> simp [OwnsType, parent?, empty]

/-- A type that was there before a change was owned by the same class. -/
theorem Extends.ownsType {p q : Program} (h : p.Extends q) {host id : Nat} (hid : id < p.size)
    (owns : q.OwnsType host id) : p.OwnsType host id := by
  obtain ⟨hparent, d, hd, horigin⟩ := owns
  have he : p.nodes[id]? = some (p.nodes.get ⟨id, hid⟩) := List.getElem?_eq_getElem hid
  obtain ⟨e', he', hp, hx⟩ := h id _ he
  obtain ⟨n', hn', hn⟩ := node?_eq_some_iff.mp (class?_eq_some_iff.mp hd)
  obtain rfl : e' = n' := Option.some.inj (he'.symm.trans hn')
  refine ⟨?_, ?_⟩
  · rw [parent?, he]
    rw [parent?, he'] at hparent
    exact hp.symm.trans hparent
  · rw [hn] at hx
    cases hnode : (p.nodes.get ⟨id, hid⟩).node with
    | cls c =>
      rw [hnode] at hx
      cases hx with
      | cls hcd =>
        exact ⟨c, class?_eq_some_iff.mpr (node?_eq_some_iff.mpr ⟨_, he, hnode⟩),
          hcd.origin.symm.trans horigin⟩
    | field f => rw [hnode] at hx; cases hx
    | method m => rw [hnode] at hx; cases hx

/-- A change that brings no new type. -/
theorem OwnOnce.grow {p q : Program} (once : p.OwnOnce) (h : p.Extends q)
    (old : ∀ host id : NodeId, q.OwnsType host id → (id : Nat) < p.size) : q.OwnOnce := by
  constructor
  · intro host id owns
    exact h.findReserved?_isSome (once.found host id (h.ownsType (old host id owns) owns))
  · intro host a b ha hb
    exact once.unique host a b (h.ownsType (old host a ha) ha) (h.ownsType (old host b hb) hb)

theorem parent?_attachMapper_new {p : Program} {host : Nat} {m : MapperSpec} (hlt : host < p.size) :
    (p.attachMapper host m).1.parent? p.size = some host := by
  rw [parent?, nodes_attachMapper hlt, List.getElem?_append_right (by simp [size])]
  simp [Graft.entries, size]

/-- The types after one more was attached. -/
theorem ownsType_attachMapper {p : Program} {host : Nat} {m : MapperSpec} {owner id : NodeId}
    (hlt : host < p.size) (owns : (p.attachMapper host m).1.OwnsType owner id) :
    p.OwnsType owner id ∨ (owner = host ∧ id = p.size) := by
  rcases Nat.lt_trichotomy id p.size with hid | hid | hid
  · exact Or.inl ((p.extends_attachMapper host m).ownsType hid owns)
  · obtain ⟨hparent, _⟩ := owns
    rw [hid, parent?_attachMapper_new hlt] at hparent
    exact Or.inr ⟨(Option.some.inj hparent).symm, hid⟩
  · obtain ⟨_, c, hc, _⟩ := owns
    rw [class?_attachMapper_beyond hid] at hc
    cases hc

theorem OwnOnce.change {p q : Program} (once : p.OwnOnce) (change : p.Change q) : q.OwnOnce := by
  have h := change.extends
  cases change with
  | addClass c =>
    refine once.grow h ?_
    rintro host id ⟨hparent, d, hd, _⟩
    rcases class?_addClass_cases hd with ⟨hid, _⟩ | ⟨rfl, _⟩
    · exact hid
    · rw [parent?_of_outline (p.outline_addClass c), if_pos rfl] at hparent
      cases hparent
  | attach hc user =>
    refine once.grow h ?_
    rintro host id ⟨_, d, hd, horigin⟩
    rcases class?_attach_cases hc hd with ⟨rfl, _⟩ | ⟨_, hid, _⟩ | ⟨_, hn⟩
    · exact lt_size_of_class? hc
    · exact hid
    · rw [user d hn] at horigin
      cases horigin
  | modify k hf =>
    refine once.grow h ?_
    rintro host id ⟨_, d, hd, _⟩
    have hlt := lt_size_of_class? hd
    simpa [modifyClass, size] using hlt
  | @mapper host c hc free m name =>
    have hlt := lt_size_of_class? hc
    have hfound := findReserved?_attachMapper hc name free
    -- an owner of a type is found to have one, which the host is not
    have hnone : ∀ id, ¬ p.OwnsType host id := by
      intro id owns
      have hsome := once.found host id owns
      rw [free] at hsome
      cases hsome
    constructor
    · intro owner id owns
      rcases ownsType_attachMapper hlt owns with hold | ⟨rfl, _⟩
      · exact h.findReserved?_isSome (once.found owner id hold)
      · rw [hfound]
        rfl
    · intro owner a b ha hb
      rcases ownsType_attachMapper hlt ha with ha | ⟨hhost, ha⟩ <;>
        rcases ownsType_attachMapper hlt hb with hb | ⟨hhost', hb⟩
      · exact once.unique owner a b ha hb
      · exact absurd (hhost' ▸ ha) (hnone a)
      · exact absurd (hhost ▸ hb) (hnone b)
      · rw [ha, hb]

theorem OwnOnce.changes {p q : Program} (once : p.OwnOnce) (changes : p.Changes q) : q.OwnOnce := by
  induction changes with
  | refl => exact once
  | tail _ change ih => exact ih.change change

/-- Where members are owned by the class that lists them, owning once is listing once. -/
theorem WellFormed.nested_once {p : Program} (wf : p.WellFormed) (once : p.OwnOnce)
    (host : NodeId) : ((p.nestedOf host).filter fun n => n.2.origin = .synthesized).length ≤ 1 := by
  cases hc : p.class? host with
  | none => simp [nestedOf, members, hc]
  | some c =>
    have hnested : p.nestedOf host =
        c.members.filterMap fun m => ((p.node? m).bind Node.asClass?).map (m, ·) :=
      membersAs_eq Node.asClass? hc
    have hincreasing : (p.nestedOf host).Pairwise fun a b => (a.1 : Nat) < b.1 := by
      rw [hnested]
      refine List.Pairwise.filterMap _ ?_ (wf.members_increasing host c hc)
      intro a b hab x hx y hy
      obtain ⟨_, _, rfl⟩ := Option.map_eq_some_iff.mp hx
      obtain ⟨_, _, rfl⟩ := Option.map_eq_some_iff.mp hy
      exact hab
    have howns : ∀ n ∈ (p.nestedOf host).filter (fun n => n.2.origin = .synthesized),
        p.OwnsType host n.1 := by
      intro n hn
      obtain ⟨hmem, horigin⟩ := List.mem_filter.mp hn
      rw [hnested] at hmem
      obtain ⟨m, hm, hmn⟩ := List.mem_filterMap.mp hmem
      obtain ⟨d, hd, rfl⟩ := Option.map_eq_some_iff.mp hmn
      exact ⟨wf.members_owned host c hc m hm, d, hd, by simpa using horigin⟩
    have hordered :=
      hincreasing.sublist (List.filter_sublist (p := fun n => n.2.origin = .synthesized))
    generalize (p.nestedOf host).filter (fun n => n.2.origin = .synthesized) = types
      at howns hordered
    rcases types with _ | ⟨a, _ | ⟨b, _⟩⟩
    · exact Nat.zero_le 1
    · exact Nat.le_refl 1
    · have heq := once.unique host a.1 b.1 (howns a (by simp)) (howns b (by simp))
      have hlt := (List.pairwise_cons.mp hordered).1 b (by simp)
      rw [heq] at hlt
      exact absurd hlt (Nat.lt_irrefl _)

end Program

/-! ### A program and the types made from it -/

/-- An accessor type with what it was made from. -/
structure Kept where
  source : Program
  types : Hierarchy
  host : NodeId
  spec : MapperSpec
  made : synthesize source types host = .ok spec

/-- A program that is worked on, with the types that were made and kept. -/
structure Workbench where
  program : Program := .empty
  kept : List Kept := []

inductive Move where
  | edit (e : Edit)
  /-- Makes the accessor type of a class and keeps it. -/
  | keep (types : Hierarchy) (id : NodeId)
  /-- Attaches a type that was kept, by its place, to a class. -/
  | inject (id : NodeId) (slot : Nat)

namespace Move

/-- The workbench after a move. One that fails changes nothing. -/
def apply (w : Workbench) : Move → Workbench
  | edit e =>
    match e.apply w.program with
    | .ok q => { w with program := q }
    | .error _ => w
  | keep types id =>
    match h : synthesize w.program types id with
    | .ok spec => { w with kept := w.kept ++ [⟨w.program, types, id, spec, h⟩] }
    | .error _ => w
  | inject id slot =>
    match w.kept[slot]? with
    | none => w
    | some k =>
      match w.program.inject id k.spec with
      | .ok (q, _) => { w with program := q }
      | .error _ => w

/-- Classes are declared as `decls` says, nested ones as the user's own; a chain is one of a class;
and only types that were kept are attached. -/
def Allowed (decls : ClassDecl → Prop) (p : Program) : Move → Prop
  | edit (.addClass decl) => decls decl
  | edit (.addNestedClass _ decl) => decls decl ∧ decl.origin = .user
  | edit (.link id _) => ∃ c, p.class? id = some c
  | edit (.inject _ _) => False
  | _ => True

end Move

/-- Moves one after the other. -/
inductive Workbench.Leads (decls : ClassDecl → Prop) (w : Workbench) : Workbench → Prop where
  | refl : Leads decls w w
  | move {v : Workbench} (led : Leads decls w v) {m : Move} (allowed : m.Allowed decls v.program) :
      Leads decls w (m.apply v)

theorem Kept.standard (k : Kept) : k.spec.host = k.host ∧ k.spec.name = mapperName := by
  obtain ⟨_, _, _, _, hspec⟩ := synthesize_ok k.made
  rw [hspec]
  exact ⟨rfl, rfl⟩

/-- An edit other than an injection, in the steps that a program can take. -/
theorem Program.changes_of_edit {decls : ClassDecl → Prop} {p q : Program} {e : Edit}
    (allowed : (Move.edit e).Allowed decls p) (applied : e.apply p = .ok q) : p.Changes q := by
  have hmember : ∀ {owner : NodeId} {n : Node}, (∀ d, n = .cls d → d.origin = .user) →
      ((p.addMember owner n).map Prod.fst).mapError InjectError.node = .ok q → p.Changes q := by
    intro owner n user happlied
    rcases p.addMember_cases owner n with ⟨c, hc, _, heq⟩ | ⟨err, _, heq⟩
    · rw [heq] at happlied
      obtain rfl : (p.attach owner n).1 = q := Except.ok.inj happlied
      exact .single (.attach hc user)
    · rw [heq] at happlied
      cases happlied
  cases e with
  | addClass decl =>
    obtain rfl := Except.ok.inj applied
    exact .single (.addClass decl)
  | addNestedClass owner decl =>
    refine hmember ?_ applied
    rintro d ⟨⟩
    exact allowed.2
  | addField owner decl =>
    refine hmember ?_ applied
    rintro d ⟨⟩
  | addMethod owner decl =>
    refine hmember ?_ applied
    rintro d ⟨⟩
  | link id step =>
    obtain ⟨c, hc⟩ := allowed
    obtain rfl := Except.ok.inj applied
    have hattached : ∀ {ns : List Node}, (∀ n ∈ ns, n.asClass? = none) →
        p.Changes (p.attachAll id ns) :=
      fun plain => Changes.attachAll .refl hc plain
    cases step with
    | annotate mark =>
      refine .single (.modify id ?_)
      intro c
      exact ⟨rfl, rfl, rfl, List.prefix_append _ _, List.prefix_rfl, List.prefix_rfl⟩
    | extend supertype =>
      refine .single (.modify id ?_)
      intro c
      exact ⟨rfl, rfl, rfl, List.prefix_rfl, List.prefix_append _ _, List.prefix_rfl⟩
    | field decl => exact hattached (by simp [Node.asClass?])
    | getter name type => exact hattached (by simp [Node.asClass?])
    | setter name type => exact hattached (by simp [Node.asClass?])
    | property name type => exact hattached (by simp [Node.asClass?])
    | method decl => exact hattached (by simp [Node.asClass?])
  | populate classes =>
    obtain rfl := Except.ok.inj applied
    exact Changes.populateAll .refl classes
  | inject host spec => exact allowed.elim
  | run inline =>
    obtain rfl := Except.ok.inj applied
    exact p.changes_run inline

namespace Workbench

variable {decls : ClassDecl → Prop} {w v : Workbench}

/-- What a move does: it changes the program, or it keeps one more type. -/
theorem apply_cases {m : Move} (allowed : m.Allowed decls w.program) :
    (w.program.Changes (m.apply w).program ∧ (m.apply w).kept = w.kept) ∨
      ∃ k : Kept, k.source = w.program ∧ m.apply w = { w with kept := w.kept ++ [k] } := by
  cases m with
  | edit e =>
    left
    cases happlied : e.apply w.program with
    | ok q =>
      simp only [Move.apply, happlied]
      exact ⟨Program.changes_of_edit allowed happlied, trivial⟩
    | error err =>
      simp only [Move.apply, happlied]
      exact ⟨.refl, trivial⟩
  | keep types id =>
    simp only [Move.apply]
    split
    · next spec hspec => exact Or.inr ⟨⟨w.program, types, id, spec, hspec⟩, rfl, rfl⟩
    · exact Or.inl ⟨.refl, rfl⟩
  | inject id slot =>
    left
    cases hslot : w.kept[slot]? with
    | none =>
      simp only [Move.apply, hslot]
      exact ⟨.refl, trivial⟩
    | some k =>
      cases hinject : w.program.inject id k.spec with
      | error err =>
        simp only [Move.apply, hslot, hinject]
        exact ⟨.refl, trivial⟩
      | ok result =>
        simp only [Move.apply, hslot, hinject]
        exact ⟨Program.changes_of_inject k.standard.2 hinject, trivial⟩

theorem Leads.changes (led : w.Leads decls v) : w.program.Changes v.program := by
  induction led with
  | refl => exact .refl
  | move _ allowed ih =>
    rcases apply_cases allowed with ⟨changes, _⟩ | ⟨k, _, heq⟩
    · exact ih.trans changes
    · rw [heq]
      exact ih

/-- The program has grown since a type was made from it. -/
theorem Leads.grown (led : w.Leads decls v) (old : ∀ k ∈ w.kept, k.source.Extends w.program) :
    ∀ k ∈ v.kept, k.source.Extends v.program := by
  induction led with
  | refl => exact old
  | move _ allowed ih =>
    rcases apply_cases allowed with ⟨changes, heq⟩ | ⟨k, hsource, heq⟩
    · rw [heq]
      exact fun j hj => (ih j hj).trans changes.extends
    · rw [heq]
      intro j hj
      rcases List.mem_append.mp hj with hj | hj
      · exact ih j hj
      · rw [List.mem_singleton.mp hj, hsource]
        exact .refl _

/-- Where classes are declared without members, the program is one that edits lead to. -/
theorem Leads.reached (led : Leads decls {} v) (bare : ∀ c, decls c → c.members = []) :
    v.program.Reached := by
  induction led with
  | refl => exact .empty
  | @move v led m allowed ih =>
    cases m with
    | edit e =>
      have hallowed : e.Allowed v.program := by
        cases e with
        | addClass decl => exact bare decl allowed
        | addNestedClass owner decl => exact bare decl allowed.1
        | link id step => exact allowed
        | addField owner decl => trivial
        | addMethod owner decl => trivial
        | populate classes => trivial
        | inject host spec => trivial
        | run inline => trivial
      cases happlied : e.apply v.program with
      | ok q =>
        simp only [Move.apply, happlied]
        exact ih.edit hallowed happlied
      | error err =>
        simp only [Move.apply, happlied]
        exact ih
    | keep types id =>
      simp only [Move.apply]
      split <;> exact ih
    | inject id slot =>
      cases hslot : v.kept[slot]? with
      | none =>
        simp only [Move.apply, hslot]
        exact ih
      | some k =>
        cases hinject : v.program.inject id k.spec with
        | error err =>
          simp only [Move.apply, hslot, hinject]
          exact ih
        | ok result =>
          simp only [Move.apply, hslot, hinject]
          refine ih.edit (e := .inject id k.spec) trivial ?_
          simp [Edit.apply, hinject, Except.map]

end Workbench

/-- The target of a call, if it is a member, is a method of objects that both programs have
alike. -/
def CallTarget.Lasts (p q : Program) (target : CallTarget) : Prop :=
  ∀ id, target = .member id →
    ∃ m : MethodDecl, p.method? id = some m ∧ m.isStatic = false ∧ q.method? id = some m

/-- A type calls methods of objects that its program had, and that every later one has. -/
theorem Kept.targets_last (k : Kept) {q : Program} (grown : k.source.Extends q) :
    ∀ s ∈ k.spec.methods, Block.EveryCall (fun target _ => target.Lasts k.source q) s.body := by
  intro s hs
  refine Synthesis.everyCall_of_synthesize (fun _ => nofun) (fun _ => nofun)
    k.made (fun _ hpick => ?_) hs
  rintro _ ⟨⟩
  obtain ⟨m, hm, hstatic, _⟩ := Catalog.method?_of_pick hpick
  exact ⟨m, hm, hstatic, grown.method? hm⟩

/-- A class that has a type of the reserved name keeps it from others. -/
theorem Program.inject_of_found {p : Program} {host : NodeId} {m : MapperSpec} (hm : m.host = host)
    (hfound : (p.findReserved? host).isSome = true) :
    ∃ existing origin, p.inject host m = .ok (p, .alreadyPresent existing origin) := by
  obtain ⟨⟨existing, origin⟩, hr⟩ := Option.isSome_iff_exists.mp hfound
  cases hc : p.class? host with
  | none => simp [findReserved?, nestedOf, members, hc] at hr
  | some c =>
    refine ⟨existing, origin, ?_⟩
    rw [Batch.inject_of_class hc hm, hr]

/-- A kept type has been attached to a class. -/
structure Workbench.Attached (decls : ClassDecl → Prop) (w : Workbench) (k : Kept)
    (id nested : NodeId) (q : Program) : Prop where
  owned : q.OwnsType id nested
  methods : (q.methodsOf nested).map Prod.snd = k.spec.methods.map MethodSpec.toDecl
  targets : ∀ s ∈ k.spec.methods, Block.EveryCall (fun target _ => target.Lasts k.source q) s.body
  /-- Whatever happens then, no type made for the class is attached to it again. -/
  final : ∀ v : Workbench, Leads decls { w with program := q } v → ∀ j ∈ v.kept, j.host = id →
    ∃ existing origin, v.program.inject id j.spec = .ok (v.program, .alreadyPresent existing origin)

theorem Workbench.attached_of_inject {decls : ClassDecl → Prop} {w : Workbench} {k : Kept}
    (grown : k.source.Extends w.program) {id nested : NodeId} {q : Program}
    (injected : w.program.inject id k.spec = .ok (q, .injected nested)) :
    w.Attached decls k id nested q := by
  obtain ⟨⟨c, hc⟩, free, rfl, rfl⟩ := Program.inject_injected injected
  have hlt := Program.lt_size_of_class? hc
  have hx := w.program.extends_attachMapper id k.spec
  constructor
  · exact ⟨Program.parent?_attachMapper_new hlt, _, Program.class?_attachMapper_new hlt, rfl⟩
  · exact Program.methodsOf_attachMapper_new hlt
  · exact k.targets_last (grown.trans hx)
  · intro v led j _ hj
    have hfound := Program.findReserved?_attachMapper hc k.standard.2 free
    have hsome : ((w.program.attachMapper id k.spec).1.findReserved? id).isSome = true := by
      rw [hfound]
      rfl
    exact Program.inject_of_found (j.standard.1.trans hj)
      (led.changes.extends.findReserved?_isSome hsome)

/-- Whatever moves were made, a class owns one accessor type at most, and lists one at most if
classes are declared without members. Attaching a kept type, written node by node, leaves the
program as it is where it fails or finds a type; where it succeeds, the class has the methods of the
type, which call what they were made to call, and gets no other. -/
theorem kept_types_are_attached_once {decls : ClassDecl → Prop} {w : Workbench}
    (led : Workbench.Leads decls {} w) :
    (∀ host a b : NodeId, w.program.OwnsType host a → w.program.OwnsType host b → a = b) ∧
    ((∀ c, decls c → c.members = []) → ∀ host : NodeId,
      ((w.program.nestedOf host).filter fun n => n.2.origin = .synthesized).length ≤ 1) ∧
    ∀ k ∈ w.kept, ∀ (id : NodeId) (q : Program),
      (∀ e, (Editing.inject id k.spec).run w.program = .error e q → q = w.program) ∧
      (∀ existing origin, (Editing.inject id k.spec).run w.program =
        .ok (.alreadyPresent existing origin) q → q = w.program) ∧
      ∀ nested, (Editing.inject id k.spec).run w.program = .ok (.injected nested) q →
        w.Attached decls k id nested q := by
  have once := Program.ownOnce_empty.changes led.changes
  refine ⟨once.unique, ?_, ?_⟩
  · intro bare host
    exact (led.reached bare).wellFormed.nested_once once host
  · intro k hk id q
    have grown := led.grown (by simp) k hk
    rw [Editing.inject_run]
    cases hinject : w.program.inject id k.spec with
    | error err =>
      refine ⟨?_, nofun, nofun⟩
      rintro e ⟨⟩
      rfl
    | ok result =>
      obtain ⟨r, outcome⟩ := result
      refine ⟨nofun, ?_, ?_⟩
      · rintro existing origin ⟨⟩
        exact Program.inject_alreadyPresent hinject
      · rintro nested ⟨⟩
        exact Workbench.attached_of_inject grown hinject

/-- A class with one property. -/
def hostProgram : Program :=
  (Program.empty.addClass { name := "Host" }).1.addProperty 0 "x" (.primitive .bool)

/-- The type of that class. -/
def hostType : Kept :=
  ⟨hostProgram, .builtin, 0,
    Synthesis.mapper 0 "Host" [⟨"x", "X", .scalar (.primitive .bool), 1, 2, 3⟩], rfl⟩

/-- The class got a second property after its type was made. -/
def staleBench : Workbench := ⟨hostProgram.addProperty 0 "y" .string, [hostType]⟩

/-- The type is attached as it was made, with methods for the first property only. -/
theorem stale_type_attached :
    Workbench.Leads (fun c => c.members = []) {} staleBench ∧ hostType ∈ staleBench.kept ∧
      ∃ q, (Editing.inject 0 hostType.spec).run staleBench.program = .ok (.injected 7) q ∧
        staleBench.Attached (fun c => c.members = []) hostType 0 7 q ∧
        (q.methodsOf 7).map (fun m => m.2.name) = ["set", "get", "setX", "getX"] := by
  have start : Workbench.Leads (fun c => c.members = []) {} {} := .refl
  have led : Workbench.Leads (fun c => c.members = []) {} staleBench := start
    |>.move (m := .edit (.addClass { name := "Host" })) rfl
    |>.move (m := .edit (.link 0 (.property "x" (.primitive .bool)))) ⟨_, rfl⟩
    |>.move (m := .keep .builtin 0) trivial
    |>.move (m := .edit (.link 0 (.property "y" .string))) ⟨_, rfl⟩
  have hkept : hostType ∈ staleBench.kept := List.mem_singleton.mpr rfl
  obtain ⟨_, _, attached⟩ := (kept_types_are_attached_once led).2.2 hostType hkept 0 _
  exact ⟨led, hkept, _, rfl, attached 7 rfl, rfl⟩

/-- Two marked classes. -/
def twinFile : ClassFile :=
  ⟨[{ name := "First", annotations := ["Entity"]
      fields := [{ name := "x", type := .primitive .bool }] },
    { name := "Second", annotations := ["Entity"], fields := [{ name := "y", type := .string }] }]⟩

/-- Both have got their types, and a third class is declared with these as its members. -/
def gatheredProgram : Program :=
  ((Batch.run true twinFile.toProgram).program.addClass { name := "Both", members := [8, 13] }).1

/-- A declaration that lists members can list types of other classes. -/
theorem gathered_types_listed :
    Workbench.Leads (fun _ => True) {} ⟨gatheredProgram, []⟩ ∧
      ((gatheredProgram.nestedOf 18).filter fun n => n.2.origin = .synthesized).length = 2 := by
  have start : Workbench.Leads (fun _ => True) {} {} := .refl
  refine ⟨?_, rfl⟩
  exact start
    |>.move (m := .edit (.populate twinFile.classes)) trivial
    |>.move (m := .edit (.run true)) trivial
    |>.move (m := .edit (.addClass { name := "Both", members := [8, 13] })) trivial

end FieldAccess
