import FieldAccess.Proofs.WellFormed

/-! Programs under edits: classes and members that are added, chains that build a class, class
files, accessor types and whole runs. Every program that edits can make is well-formed, an edit
leaves all that was there as it was but for longer lists, and one that is refused has changed
nothing, although an accessor type is written node by node. -/
namespace FieldAccess

/-- One link of a chain that builds a class. -/
inductive Link where
  | annotate (mark : String)
  | extend (supertype : TypeDesc)
  | field (decl : FieldDecl)
  | getter (name : String) (type : TypeDesc)
  | setter (name : String) (type : TypeDesc)
  | property (name : String) (type : TypeDesc)
  | method (decl : MethodDecl)

def Link.apply (p : Program) (id : NodeId) : Link → Program
  | annotate mark => p.annotate id mark
  | extend supertype => p.extend id supertype
  | field decl => p.attachAll id [.field decl]
  | getter name type => p.attachAll id [.method (.getterOf name type)]
  | setter name type => p.attachAll id [.method (.setterOf name type)]
  | property name type => p.addProperty id name type
  | method decl => p.attachAll id [.method decl]

inductive Edit where
  | addClass (decl : ClassDecl)
  | addNestedClass (owner : NodeId) (decl : ClassDecl)
  | addField (owner : NodeId) (decl : FieldDecl)
  | addMethod (owner : NodeId) (decl : MethodDecl)
  /-- The next link of the chain that builds a class. -/
  | link (id : NodeId) (step : Link)
  | populate (classes : List ClassDef)
  | inject (host : NodeId) (spec : MapperSpec)
  | run (inline : Bool)

namespace Edit

/-- The program after an edit, or why it is refused. -/
def apply (p : Program) : Edit → Except InjectError Program
  | addClass decl => .ok (p.addClass decl).1
  | addNestedClass owner decl => ((p.addNestedClass owner decl).map Prod.fst).mapError .node
  | addField owner decl => ((p.addField owner decl).map Prod.fst).mapError .node
  | addMethod owner decl => ((p.addMethod owner decl).map Prod.fst).mapError .node
  | link id step => .ok (step.apply p id)
  | populate classes => .ok (p.populateAll classes).1
  | inject host spec => (p.inject host spec).map Prod.fst
  | run inline => .ok (Batch.run inline p).program

/-- Classes are declared without members, and a chain is one of a class. -/
def Allowed (p : Program) : Edit → Prop
  | addClass decl | addNestedClass _ decl => decl.members = []
  | link id _ => ∃ c, p.class? id = some c
  | _ => True

end Edit

/-- Programs that edits lead to. -/
inductive Program.Reached : Program → Prop where
  | empty : Reached .empty
  | edit {p q : Program} (reached : Reached p) {e : Edit} (allowed : e.Allowed p)
      (applied : e.apply p = .ok q) : Reached q

/-! ### What edits do -/

namespace Program

theorem addMember_cases (p : Program) (owner : NodeId) (n : Node) :
    (∃ c, p.class? owner = some c ∧ p.expectClass owner = .ok c ∧
      p.addMember owner n = .ok (p.attach owner n)) ∨
    ∃ e, p.expectClass owner = .error e ∧ p.addMember owner n = .error e := by
  cases hc : p.expectClass owner with
  | ok c =>
    have hclass := expectClass_eq_ok_iff.mp hc
    exact Or.inl ⟨c, hclass, rfl, addMember_of_class hclass n⟩
  | error e => exact Or.inr ⟨e, rfl, by simp [addMember, hc, bind, Except.bind]⟩

theorem additions_of_addMember {p q : Program} {owner id : NodeId} {n : Node} (bare : n.Bare)
    (added : p.addMember owner n = .ok (q, id)) : p.Additions q := by
  rcases p.addMember_cases owner n with ⟨c, hc, _, heq⟩ | ⟨e, _, heq⟩
  · rw [heq, Except.ok.injEq] at added
    have hq : (p.attach owner n).1 = q := congrArg Prod.fst added
    rw [← hq]
    exact Additions.refl.attach hc bare
  · rw [heq] at added
    cases added

theorem additions_of_inject {p q : Program} {host : NodeId} {m : MapperSpec}
    {outcome : InjectOutcome} (injected : p.inject host m = .ok (q, outcome)) : p.Additions q := by
  cases outcome with
  | injected nested =>
    obtain ⟨⟨c, hc⟩, _, rfl, _⟩ := inject_injected injected
    exact Additions.refl.attachMapper hc m
  | alreadyPresent existing origin =>
    rw [inject_alreadyPresent injected]
    exact .refl

end Program

/-- An edit adds bare declarations, or lengthens one list of one class. -/
theorem Edit.apply_cases {p q : Program} {e : Edit} (allowed : e.Allowed p)
    (applied : e.apply p = .ok q) :
    p.Additions q ∨ (∃ id mark, e = .link id (.annotate mark) ∧ q = p.annotate id mark) ∨
      ∃ id supertype, e = .link id (.extend supertype) ∧ q = p.extend id supertype := by
  have hmember : ∀ {owner : NodeId} {n : Node}, n.Bare →
      ((p.addMember owner n).map Prod.fst).mapError InjectError.node = .ok q → p.Additions q := by
    intro owner n bare happlied
    cases hadded : p.addMember owner n with
    | error err => rw [hadded] at happlied; cases happlied
    | ok result =>
      rw [hadded] at happlied
      obtain rfl : result.1 = q := Except.ok.inj happlied
      exact Program.additions_of_addMember bare hadded
  cases e with
  | addClass decl =>
    obtain rfl := Except.ok.inj applied
    exact Or.inl (Program.Additions.refl.addClass allowed)
  | addNestedClass owner decl => exact Or.inl (hmember (n := .cls decl) allowed applied)
  | addField owner decl => exact Or.inl (hmember (n := .field decl) trivial applied)
  | addMethod owner decl => exact Or.inl (hmember (n := .method decl) trivial applied)
  | link id step =>
    obtain ⟨c, hc⟩ := allowed
    obtain rfl := Except.ok.inj applied
    have hattached : ∀ {ns : List Node}, (∀ n ∈ ns, n.Bare) → p.Additions (p.attachAll id ns) :=
      fun bare => Program.Additions.refl.attachAll hc bare
    cases step with
    | annotate mark => exact Or.inr (Or.inl ⟨id, mark, rfl, rfl⟩)
    | extend supertype => exact Or.inr (Or.inr ⟨id, supertype, rfl, rfl⟩)
    | field decl => exact Or.inl (hattached (by simp [Node.Bare]))
    | getter name type => exact Or.inl (hattached (by simp [Node.Bare]))
    | setter name type => exact Or.inl (hattached (by simp [Node.Bare]))
    | property name type => exact Or.inl (hattached (by simp [Node.Bare]))
    | method decl => exact Or.inl (hattached (by simp [Node.Bare]))
  | populate classes =>
    obtain rfl := Except.ok.inj applied
    exact Or.inl (Program.Additions.refl.populateAll classes)
  | inject host spec =>
    cases hinject : p.inject host spec with
    | error err => simp [apply, hinject, Except.map] at applied
    | ok result =>
      obtain ⟨r, outcome⟩ := result
      obtain rfl : r = q := by simpa [apply, hinject, Except.map] using applied
      exact Or.inl (Program.additions_of_inject hinject)
  | run inline =>
    obtain rfl := Except.ok.inj applied
    exact Or.inl (.run p inline)

theorem Program.Reached.wellFormed {p : Program} (reached : p.Reached) : p.WellFormed := by
  induction reached with
  | empty => exact wellFormed_empty
  | edit _ allowed applied ih =>
    rcases Edit.apply_cases allowed applied
      with added | ⟨id, mark, _, rfl⟩ | ⟨id, supertype, _, rfl⟩
    · exact added.wellFormed ih
    · exact ih.modifyClass id fun _ => rfl
    · exact ih.modifyClass id fun _ => rfl

/-! ### What edits leave alone -/

/-- Every node has its place, its parent and its declaration, a class with more at the ends of its
lists. Only the two links for them lengthen annotations and supertypes, and only those of their
class. -/
structure Edit.Keeps (e : Edit) (p q : Program) : Prop where
  roots : p.roots <+: q.roots
  entries : p.Extends q
  annotations : ∀ id c d, p.class? id = some c → q.class? id = some d →
    (∀ mark, e ≠ .link id (.annotate mark)) → d.annotations = c.annotations
  supertypes : ∀ id c d, p.class? id = some c → q.class? id = some d →
    (∀ supertype, e ≠ .link id (.extend supertype)) → d.supertypes = c.supertypes

namespace Program

theorem Additions.extends {p q : Program} (added : p.Additions q) : p.Extends q := by
  intro id e he
  obtain ⟨ids, hids⟩ := added.entry he
  obtain ⟨parent, node⟩ := e
  refine ⟨_, hids, ?_⟩
  cases node with
  | cls c => exact ⟨rfl, .cls (c.extends_append_members ids)⟩
  | field f => exact ⟨rfl, .field f⟩
  | method m => exact ⟨rfl, .method m⟩

theorem Additions.class_eq {p q : Program} (added : p.Additions q) {id : NodeId} {c d : ClassDecl}
    (hc : p.class? id = some c) (hd : q.class? id = some d) :
    ∃ ids, d = { c with members := c.members ++ ids } := by
  obtain ⟨⟨parent, node⟩, he, rfl⟩ := node?_eq_some_iff.mp (class?_eq_some_iff.mp hc)
  obtain ⟨ids, hids⟩ := added.entry he
  refine ⟨ids, ?_⟩
  have hclass : q.class? id = some { c with members := c.members ++ ids } :=
    class?_eq_some_iff.mpr (node?_eq_some_iff.mpr ⟨_, hids, rfl⟩)
  rw [hclass] at hd
  exact (Option.some.inj hd).symm

theorem extends_modifyClass (p : Program) (id : NodeId) {f : ClassDecl → ClassDecl}
    (hf : ∀ c : ClassDecl, c.Extends (f c)) : p.Extends (p.modifyClass id f) := by
  intro k e he
  simp only [modifyClass, List.getElem?_modify, he]
  by_cases hk : id = k
  · refine ⟨_, rfl, ?_⟩
    obtain ⟨parent, node⟩ := e
    cases node with
    | cls c => simpa [hk] using Node.Extends.cls (hf c)
    | field decl => simpa [hk] using Node.Extends.field decl
    | method decl => simpa [hk] using Node.Extends.method decl
  · exact ⟨e, by simp [hk], rfl, .refl e.node⟩

end Program

namespace Edit

variable {p q : Program} {e : Edit}

theorem keeps_of_additions (added : p.Additions q) : e.Keeps p q := by
  refine ⟨added.roots_prefix, added.extends, ?_, ?_⟩
  · intro id c d hc hd _
    obtain ⟨ids, rfl⟩ := added.class_eq hc hd
    rfl
  · intro id c d hc hd _
    obtain ⟨ids, rfl⟩ := added.class_eq hc hd
    rfl

theorem keeps_annotate (p : Program) (id : NodeId) (mark : String) :
    Keeps (.link id (.annotate mark)) p (p.annotate id mark) := by
  refine ⟨List.prefix_rfl, ?_, ?_, ?_⟩
  · apply p.extends_modifyClass id
    intro c
    exact ⟨rfl, rfl, rfl, List.prefix_append _ _, List.prefix_rfl, List.prefix_rfl⟩
  · intro k c d hc hd other
    have hk : k ≠ id := by
      rintro rfl
      exact other mark rfl
    rw [Program.annotate, Program.class?_modifyClass, if_neg hk, hc] at hd
    rw [Option.some.inj hd]
  · intro k c d hc hd _
    rw [Program.annotate, Program.class?_modifyClass, hc] at hd
    split at hd <;> rw [← Option.some.inj hd]

theorem keeps_extend (p : Program) (id : NodeId) (supertype : TypeDesc) :
    Keeps (.link id (.extend supertype)) p (p.extend id supertype) := by
  refine ⟨List.prefix_rfl, ?_, ?_, ?_⟩
  · apply p.extends_modifyClass id
    intro c
    exact ⟨rfl, rfl, rfl, List.prefix_rfl, List.prefix_append _ _, List.prefix_rfl⟩
  · intro k c d hc hd _
    rw [Program.extend, Program.class?_modifyClass, hc] at hd
    split at hd <;> rw [← Option.some.inj hd]
  · intro k c d hc hd other
    have hk : k ≠ id := by
      rintro rfl
      exact other supertype rfl
    rw [Program.extend, Program.class?_modifyClass, if_neg hk, hc] at hd
    rw [Option.some.inj hd]

theorem keeps_of_applied (allowed : e.Allowed p) (applied : e.apply p = .ok q) : e.Keeps p q := by
  rcases apply_cases allowed applied with added | ⟨id, mark, rfl, rfl⟩ | ⟨id, supertype, rfl, rfl⟩
  · exact keeps_of_additions added
  · exact keeps_annotate p id mark
  · exact keeps_extend p id supertype

end Edit

/-! ### Edits written step by step -/

/-- Steps that change a program and may be refused; what was written before a refusal stays. -/
abbrev Editing := EStateM InjectError Program

namespace Editing

def add (owner : NodeId) (n : Node) : Editing NodeId := do
  let p ← get
  match p.expectClass owner with
  | .error e => throw (.node e)
  | .ok _ =>
    set (p.attach owner n).1
    return (p.attach owner n).2

def addMethods (nested : NodeId) : List MethodSpec → Editing Unit
  | [] => return ()
  | s :: rest => do
    let _ ← add nested (.method s.toDecl)
    addMethods nested rest

/-- The accessor type is written first, then one method after the other. -/
def addMapper (host : NodeId) (m : MapperSpec) : Editing NodeId := do
  let nested ← add host (.cls m.classDecl)
  addMethods nested m.methods
  return nested

def inject (host : NodeId) (m : MapperSpec) : Editing InjectOutcome := do
  let p ← get
  match p.expectClass host with
  | .error e => throw (.node e)
  | .ok _ =>
    if m.host ≠ host then throw (.hostMismatch m.host host)
    match p.findReserved? host with
    | some (existing, origin) => return .alreadyPresent existing origin
    | none =>
      let nested ← addMapper host m
      return .injected nested

theorem run_throw {α : Type} (e : InjectError) (p : Program) :
    (throw e : Editing α).run p = .error e p := rfl

theorem add_run (owner : NodeId) (n : Node) (p : Program) :
    (add owner n).run p = match p.addMember owner n with
      | .ok (q, id) => .ok id q
      | .error e => .error (.node e) p := by
  rcases p.addMember_cases owner n with ⟨c, _, hc, heq⟩ | ⟨e, hc, heq⟩
  · simp only [add, EStateM.run_bind, EStateM.run_get, hc, heq]
    rfl
  · simp only [add, EStateM.run_bind, EStateM.run_get, hc, heq, run_throw]

theorem add_of_class {p : Program} {owner : NodeId} {c : ClassDecl} (hc : p.class? owner = some c)
    (n : Node) : (add owner n).run p = .ok p.size (p.attach owner n).1 := by
  rw [add_run, Program.addMember_of_class hc]
  rfl

/-- All methods find the class that was written for them. -/
theorem addMethods_run {p : Program} {nested : NodeId} {c : ClassDecl}
    (hc : p.class? nested = some c) (ms : List MethodSpec) :
    (addMethods nested ms).run p =
      .ok () (p.attachAll nested (ms.map fun s => .method s.toDecl)) := by
  induction ms generalizing p c with
  | nil => rfl
  | cons s ms ih =>
    rw [addMethods, EStateM.run_bind, add_of_class hc]
    exact ih (Program.class?_attach_owner _ hc)

theorem addMapper_run {p : Program} {host : NodeId} {c : ClassDecl} (hc : p.class? host = some c)
    (m : MapperSpec) : (addMapper host m).run p = .ok p.size (p.attachMapper host m).1 := by
  have hnew : (p.attach host (.cls m.classDecl)).1.class? p.size = some m.classDecl :=
    Program.class?_eq_some_iff.mpr (Program.node?_attach_last p _ (Program.lt_size_of_class? hc))
  simp only [addMapper, EStateM.run_bind, add_of_class hc, addMethods_run hnew, EStateM.run_pure,
    Program.attachMapper_eq]

theorem inject_run (host : NodeId) (m : MapperSpec) (p : Program) :
    (inject host m).run p = match p.inject host m with
      | .ok (q, outcome) => .ok outcome q
      | .error e => .error e p := by
  unfold inject Program.inject
  cases hc : p.expectClass host with
  | error e => simp [hc, run_throw]
  | ok c =>
    by_cases hm : m.host = host
    · cases hr : p.findReserved? host with
      | some found => simp [hc, hm, hr]
      | none =>
        have hwritten : (addMapper host m >>= fun nested => pure (.injected nested) :
            Editing InjectOutcome).run p =
              .ok (.injected (p.attachMapper host m).2) (p.attachMapper host m).1 := by
          rw [EStateM.run_bind, addMapper_run (Program.expectClass_eq_ok_iff.mp hc),
            Program.attachMapper_eq]
          rfl
        simpa [hc, hm, hr] using hwritten
    · simp [hc, hm]

end Editing

/-- An edit, written step by step. -/
def Edit.perform : Edit → Editing Unit
  | addClass decl => modify fun p => (p.addClass decl).1
  | addNestedClass owner decl => do let _ ← Editing.add owner (.cls decl)
  | addField owner decl => do let _ ← Editing.add owner (.field decl)
  | addMethod owner decl => do let _ ← Editing.add owner (.method decl)
  | link id step => modify fun p => step.apply p id
  | populate classes => modify fun p => (p.populateAll classes).1
  | inject host spec => do let _ ← Editing.inject host spec
  | run inline => modify fun p => (Batch.run inline p).program

/-- Step by step, an edit writes all or nothing. -/
theorem Edit.perform_run (e : Edit) (p : Program) :
    e.perform.run p = match e.apply p with
      | .ok q => .ok () q
      | .error err => .error err p := by
  have hadd : ∀ (owner : NodeId) (n : Node), (do let _ ← Editing.add owner n : Editing Unit).run p =
      match ((p.addMember owner n).map Prod.fst).mapError InjectError.node with
        | .ok q => .ok () q
        | .error err => .error err p := by
    intro owner n
    rw [EStateM.run_bind, Editing.add_run]
    cases p.addMember owner n <;> rfl
  cases e with
  | addClass decl => rfl
  | addNestedClass owner decl => exact hadd owner (.cls decl)
  | addField owner decl => exact hadd owner (.field decl)
  | addMethod owner decl => exact hadd owner (.method decl)
  | link id step => rfl
  | populate classes => rfl
  | inject host spec =>
    rw [perform, apply, EStateM.run_bind, Editing.inject_run]
    cases p.inject host spec <;> rfl
  | run inline => rfl

/-- Every program that edits lead to is a tree, in which the nearest class around a node is the node
itself or its owner and is found in two steps. An edit of it keeps what was there. Where it is
refused, nothing has been written. -/
theorem edits_keep_programs_well_formed {p : Program} (reached : p.Reached) :
    p.WellFormed ∧
    (∀ (id : NodeId) (n : Node), p.node? id = some n → ∃ owner : NodeId,
      (if n.isClass then owner = id else p.parent? id = some owner) ∧
      p.enclosingClass? id = some owner ∧
      ∀ steps, 2 ≤ steps → p.enclosingWithin steps id = some owner) ∧
    ∀ e : Edit, e.Allowed p →
      (∃ q, e.apply p = .ok q ∧ e.perform.run p = .ok () q ∧ q.Reached ∧ e.Keeps p q) ∨
        ∃ err, e.apply p = .error err ∧ e.perform.run p = .error err p := by
  have wf := reached.wellFormed
  refine ⟨wf, ?_, ?_⟩
  · intro id n hn
    obtain ⟨owner, howner, hfound⟩ := wf.enclosing hn
    have hsize := Program.lt_size_of_node? hn
    exact ⟨owner, howner, hfound _ (by omega), hfound⟩
  · intro e allowed
    have hrun := e.perform_run p
    cases happly : e.apply p with
    | ok q =>
      rw [happly] at hrun
      exact Or.inl ⟨q, rfl, hrun, reached.edit allowed happly, Edit.keeps_of_applied allowed happly⟩
    | error err =>
      rw [happly] at hrun
      exact Or.inr ⟨err, rfl, hrun⟩

/-- A class with a property, after a run. -/
def servedProgram : Program :=
  (Batch.run true
    ((Program.empty.addClass { name := "Host", annotations := ["Entity"] }).1.addProperty 0 "x"
      (.primitive .bool))).program

/-- The type of one class is refused by another, and a field by a method. -/
theorem served_edits_refused :
    servedProgram.Reached ∧ servedProgram.WellFormed ∧
      (Edit.inject 4 (Synthesis.mapper 0 "Host" [])).perform.run servedProgram =
        .error (.hostMismatch 0 4) servedProgram ∧
      (Edit.addField 5 { name := "y", type := .any }).perform.run servedProgram =
        .error (.node (.notAClass 5)) servedProgram := by
  have declared :
      ((Program.empty.addClass { name := "Host", annotations := ["Entity"] }).1).Reached :=
    .edit .empty (e := .addClass { name := "Host", annotations := ["Entity"] }) rfl rfl
  have built := Program.Reached.edit declared (e := .link 0 (.property "x" (.primitive .bool)))
    ⟨_, rfl⟩ rfl
  have reached : servedProgram.Reached := built.edit (e := .run true) trivial rfl
  obtain ⟨wf, _, edits⟩ := edits_keep_programs_well_formed reached
  refine ⟨reached, wf, ?_, ?_⟩
  · rcases edits (.inject 4 (Synthesis.mapper 0 "Host" [])) trivial
      with ⟨q, hq, _⟩ | ⟨err, herr, hrun⟩
    · cases hq
    · cases herr
      exact hrun
  · rcases edits (.addField 5 { name := "y", type := .any }) trivial
      with ⟨q, hq, _⟩ | ⟨err, herr, hrun⟩
    · cases hq
    · cases herr
      exact hrun

end FieldAccess
