import FieldAccess.Proofs.CallTargets
import FieldAccess.Proofs.Edits
import FieldAccess.Proofs.FailedWrites
import FieldAccess.Proofs.Isolation
import Mathlib.Data.List.Perm.Subperm
import Mathlib.Logic.Relation

/-! Which classes can be written. A class has a source exactly if no class below it is nested in
itself and every call in it and below it has a target. Edits nest no class in itself unless a
declaration lists its members. A run adds calls of methods that are there and of operations with the
right number of arguments, and the members of a class file call nothing, so after a run every class
of a file has a source. -/
namespace FieldAccess

open Relation (ReflTransGen TransGen)

/-! ### Nested classes -/

namespace Program

variable {p : Program}

theorem mem_members_iff {id : NodeId} {x : NodeId × Node} :
    x ∈ p.members id ↔ ∃ c, p.class? id = some c ∧ x.1 ∈ c.members ∧ p.node? x.1 = some x.2 := by
  unfold members
  cases p.class? id with
  | none => simp
  | some c =>
    simp only [List.mem_filterMap, Option.map_eq_some_iff, Option.some.injEq, exists_eq_left']
    constructor
    · rintro ⟨m, hm, n, hn, rfl⟩
      exact ⟨hm, hn⟩
    · rintro ⟨hm, hn⟩
      exact ⟨x.1, hm, x.2, hn, rfl⟩

theorem node?_of_mem_members {id : NodeId} {x : NodeId × Node} (h : x ∈ p.members id) :
    p.node? x.1 = some x.2 := by
  obtain ⟨_, _, _, hx⟩ := mem_members_iff.mp h
  exact hx

/-- A class has another one among its members. -/
def Nests (p : Program) (outer inner : NodeId) : Prop := ∃ c, (inner, .cls c) ∈ p.members outer

theorem Nests.class? {outer inner : NodeId} (h : p.Nests outer inner) :
    ∃ c, p.class? inner = some c := by
  obtain ⟨c, hmem⟩ := h
  exact ⟨c, class?_eq_some_iff.mpr (node?_of_mem_members hmem)⟩

/-- A call in a method of the class, or of one nested in it at any depth. -/
def CallsBelow (p : Program) (id : NodeId) (call : Call) : Prop :=
  ∃ d k m, ReflTransGen p.Nests id d ∧ (k, .method m) ∈ p.members d ∧ call ∈ m.calls

/-- No class nested in this one, at any depth, is nested in itself. -/
def FinitelyNested (p : Program) (id : NodeId) : Prop :=
  ∀ d, ReflTransGen p.Nests id d → ¬ TransGen p.Nests d d

theorem FinitelyNested.inner {outer inner : NodeId} (finite : p.FinitelyNested outer)
    (h : p.Nests outer inner) : p.FinitelyNested inner :=
  fun d hd => finite d (.head h hd)

/-- In a well-formed program members come behind their class. -/
theorem WellFormed.lt_of_nests (wf : p.WellFormed) {outer inner : NodeId}
    (h : p.Nests outer inner) : (outer : Nat) < inner := by
  obtain ⟨c, hmem⟩ := h
  obtain ⟨d, hd, hinner, _⟩ := mem_members_iff.mp hmem
  exact (wf.owners inner outer (wf.members_owned outer d hd inner hinner)).1

theorem WellFormed.finitelyNested (wf : p.WellFormed) (id : NodeId) : p.FinitelyNested id := by
  intro d _ hloop
  have hlt : ∀ b, TransGen p.Nests d b → (d : Nat) < b := by
    intro b hb
    induction hb with
    | single h => exact wf.lt_of_nests h
    | tail _ h ih => exact Nat.lt_trans ih (wf.lt_of_nests h)
  exact Nat.lt_irrefl _ (hlt d hloop)

end Program

namespace Java

variable {p : Program}

/-! ### Levels -/

theorem NestedWithin.inner {levels : Nat} {outer inner : NodeId}
    (h : NestedWithin p (levels + 1) outer)
    (hn : p.Nests outer inner) : NestedWithin p levels inner := by
  obtain ⟨c, hmem⟩ := hn
  exact h _ hmem rfl

theorem NestedWithin.not_loop {levels : Nat} {id : NodeId} (h : NestedWithin p levels id) :
    ¬ TransGen p.Nests id id := by
  induction levels generalizing id with
  | zero => exact h.elim
  | succ levels ih =>
    intro hloop
    -- a loop through the class is one through the first class on it
    obtain ⟨inner, hinner, back⟩ := TransGen.head'_iff.mp hloop
    exact ih (h.inner hinner) (.tail' back hinner)

theorem NestedWithin.finitelyNested {levels : Nat} {id : NodeId} (h : NestedWithin p levels id) :
    p.FinitelyNested id := by
  intro d hd
  have hlevels : ∃ k, NestedWithin p k d := by
    induction hd with
    | refl => exact ⟨levels, h⟩
    | tail _ hn ih =>
      obtain ⟨k, hk⟩ := ih
      cases k with
      | zero => exact hk.elim
      | succ k => exact ⟨k, hk.inner hn⟩
  obtain ⟨k, hk⟩ := hlevels
  exact hk.not_loop

/-- Classes that stand in each other, the innermost first. -/
structure Chain (p : Program) (id : NodeId) (outer : List NodeId) : Prop where
  finite : p.FinitelyNested id
  around : ∀ a ∈ outer, TransGen p.Nests a id
  nodup : (id :: outer).Nodup
  bound : ∀ a ∈ id :: outer, (a : Nat) < p.size

namespace Chain

variable {id inner : NodeId} {outer : List NodeId}

theorem single {c : ClassDecl} (hc : p.class? id = some c) (finite : p.FinitelyNested id) :
    Chain p id [] where
  finite := finite
  around _ h := absurd h List.not_mem_nil
  nodup := List.nodup_singleton id
  bound _ ha := List.mem_singleton.mp ha ▸ Program.lt_size_of_class? hc

theorem cons (chain : Chain p id outer) (h : p.Nests id inner) : Chain p inner (id :: outer) := by
  have hinner := chain.finite.inner h
  have haround : ∀ a ∈ id :: outer, TransGen p.Nests a inner :=
    List.forall_mem_cons.mpr ⟨.single h, fun a ha => (chain.around a ha).tail h⟩
  obtain ⟨c, hc⟩ := h.class?
  exact {
    finite := hinner
    around := haround
    nodup := List.nodup_cons.mpr ⟨fun hmem => hinner inner .refl (haround inner hmem), chain.nodup⟩
    bound := List.forall_mem_cons.mpr ⟨Program.lt_size_of_class? hc, chain.bound⟩ }

theorem length_lt (chain : Chain p id outer) : outer.length < p.size := by
  have hsubset : id :: outer ⊆ List.range p.size :=
    fun a ha => List.mem_range.mpr (chain.bound a ha)
  have hle := (chain.nodup.subperm hsubset).length_le
  rwa [List.length_range, List.length_cons] at hle

/-- A chain is not longer than the program, so the levels do not run out. -/
theorem nestedWithin {levels : Nat} (chain : Chain p id outer)
    (room : p.size ≤ levels + outer.length) : NestedWithin p levels id := by
  induction levels generalizing id outer with
  | zero => exact absurd chain.length_lt (by omega)
  | succ levels ih =>
    rintro ⟨inner, n⟩ hmem hclass
    cases n with
    | field f => cases hclass
    | method m => cases hclass
    | cls d => exact ih (chain.cons ⟨d, hmem⟩) (by rw [List.length_cons]; omega)

end Chain

theorem nestedWithin_iff {id : NodeId} {c : ClassDecl} (hc : p.class? id = some c) :
    NestedWithin p (p.size + 1) id ↔ p.FinitelyNested id :=
  ⟨NestedWithin.finitelyNested, fun finite => (Chain.single hc finite).nestedWithin (by simp)⟩

/-! ### What decides whether a class can be written -/

/-- Calls in a member. -/
def MemberCalls (p : Program) (x : NodeId × Node) (call : Call) : Prop :=
  match x.2 with
  | .field _ => False
  | .method m => call ∈ m.calls
  | .cls _ => p.CallsBelow x.1 call

theorem callsBelow_iff {id : NodeId} {call : Call} :
    p.CallsBelow id call ↔ ∃ x ∈ p.members id, MemberCalls p x call := by
  constructor
  · rintro ⟨d, k, m, hd, hm, hcall⟩
    rcases hd.cases_head with rfl | ⟨inner, ⟨c, hc⟩, hd⟩
    · exact ⟨(k, .method m), hm, hcall⟩
    · exact ⟨(inner, .cls c), hc, d, k, m, hd, hm, hcall⟩
  · rintro ⟨⟨k, n⟩, hmem, hcall⟩
    cases n with
    | field f => exact hcall.elim
    | method m => exact ⟨id, k, m, .refl, hmem, hcall⟩
    | cls c =>
      obtain ⟨d, k', m, hd, hm, hcall⟩ := hcall
      exact ⟨d, k', m, .head ⟨c, hmem⟩ hd, hm, hcall⟩

namespace Layout

variable {D : Type} (L : Layout D)

theorem decidedBy_cls {levels : Nat} {id : NodeId} {c : ClassDecl} (hc : p.class? id = some c)
    (depth : NestedWithin p levels id) (nested : Bool) :
    DecidedBy p (p.CallsBelow id) (L.cls p levels id nested) := by
  induction levels generalizing id c nested with
  | zero => exact depth.elim
  | succ levels ih =>
    have hmembers : ∀ x ∈ p.members id, DecidedBy p (MemberCalls p x) (L.member p levels x) := by
      rintro ⟨k, n⟩ hmem
      cases n with
      | field f => exact fun _ hcall => hcall.elim
      | method m => exact (L.decidedBy_method m).map _
      | cls d =>
        have hd := Program.class?_eq_some_iff.mpr (Program.node?_of_mem_members hmem)
        exact (ih hd (depth _ hmem rfl) true).map _
    rw [L.cls_of_class hc]
    exact ((DecidedBy.mapM hmembers).map _).congr fun _ => callsBelow_iff.symm

/-- More fuel than there are levels changes nothing. -/
theorem cls_eq_of_nestedWithin {levels : Nat} {id : NodeId} (depth : NestedWithin p levels id)
    {fuel fuel' : Nat} (hfuel : levels ≤ fuel) (hfuel' : levels ≤ fuel') (nested : Bool) :
    L.cls p fuel id nested = L.cls p fuel' id nested := by
  induction levels generalizing id fuel fuel' nested with
  | zero => exact depth.elim
  | succ levels ih =>
    obtain ⟨fuel, rfl⟩ := Nat.exists_eq_add_of_le' (show 1 ≤ fuel by omega)
    obtain ⟨fuel', rfl⟩ := Nat.exists_eq_add_of_le' (show 1 ≤ fuel' by omega)
    cases hc : p.expectClass id with
    | error e => rw [cls, cls, hc]
    | ok c =>
      have hclass := Program.expectClass_eq_ok_iff.mp hc
      have hmembers : ∀ x ∈ p.members id, L.member p fuel x = L.member p fuel' x := by
        rintro ⟨k, n⟩ hx
        -- only a nested class takes fuel
        cases n with
        | field f => rfl
        | method m => rfl
        | cls d =>
          have hinner :=
            ih (depth _ hx rfl) (show levels ≤ fuel by omega) (show levels ≤ fuel' by omega) true
          simp only [member, hinner]
      rw [L.cls_of_class hclass, L.cls_of_class hclass, mapM_congr hmembers]

variable {L}

theorem class?_of_cls {fuel : Nat} {id : NodeId} {nested : Bool} {d : D}
    (h : L.cls p fuel id nested = .ok d) : ∃ c, p.class? id = some c := by
  cases fuel with
  | zero => cases h
  | succ fuel =>
    rw [cls] at h
    cases hc : p.expectClass id with
    | error e =>
      rw [hc] at h
      cases h
    | ok c => exact ⟨c, Program.expectClass_eq_ok_iff.mp hc⟩

/-- What has been written did not come back to itself. -/
theorem nestedWithin_of_cls {levels : Nat} {id : NodeId} {nested : Bool} {d : D}
    (h : L.cls p levels id nested = .ok d) : NestedWithin p levels id := by
  induction levels generalizing id nested d with
  | zero => cases h
  | succ levels ih =>
    obtain ⟨c, hc⟩ := class?_of_cls h
    rw [L.cls_of_class hc] at h
    obtain ⟨members, hmembers, _⟩ := exists_of_map_eq_ok h
    rintro ⟨inner, n⟩ hx hclass
    obtain ⟨written, _, hwritten⟩ := exists_of_mapM_eq_ok hmembers hx
    cases n with
    | field f => cases hclass
    | method m => cases hclass
    | cls d =>
      obtain ⟨inner, hinner, _⟩ := exists_of_bind_eq_ok hwritten
      exact ih hinner

end Layout

theorem decidedBy_emitClass {id : NodeId} {c : ClassDecl} (hc : p.class? id = some c)
    (finite : p.FinitelyNested id) (options : Options) :
    DecidedBy p (p.CallsBelow id) (emitClass p options id) :=
  (Layout.writer.decidedBy_cls hc ((nestedWithin_iff hc).mpr finite) false).map _

theorem succeeds_emitClass_iff {id : NodeId} {c : ClassDecl} (hc : p.class? id = some c)
    (options : Options) : Succeeds (emitClass p options id) ↔
      p.FinitelyNested id ∧ ∀ call, p.CallsBelow id call → call.Resolved p := by
  constructor
  · rintro ⟨text, htext⟩
    obtain ⟨written, hwritten, _⟩ := exists_of_bind_eq_ok htext
    have finite := (Layout.nestedWithin_of_cls hwritten).finitelyNested
    exact ⟨finite, (decidedBy_emitClass hc finite options).succeeds_iff.mp ⟨text, htext⟩⟩
  · rintro ⟨finite, resolved⟩
    exact (decidedBy_emitClass hc finite options).succeeds_iff.mpr resolved

end Java

/-! ### Programs without open calls -/

theorem Call.Resolved.mono {p q : Program} (grown : p.Extends q) {call : Call}
    (h : call.Resolved p) : call.Resolved q := by
  obtain ⟨target, found⟩ := call
  cases target with
  | member id =>
    obtain ⟨m, hm⟩ := h
    exact ⟨m, grown.method? hm⟩
  | sequence op => exact Call.resolved_sequence.mpr (Call.resolved_sequence.mp h)

namespace Program

variable {p : Program}

/-- Every call of every method has a target. -/
def Linked (p : Program) : Prop :=
  ∀ id m, p.method? id = some m → ∀ call ∈ m.calls, call.Resolved p

theorem Linked.resolved (linked : p.Linked) {id : NodeId} {call : Call} (h : p.CallsBelow id call) :
    call.Resolved p := by
  obtain ⟨d, k, m, _, hm, hcall⟩ := h
  exact linked k m (method?_eq_some_iff.mpr (node?_of_mem_members hm)) call hcall

theorem Linked.succeeds (linked : p.Linked) (wf : p.WellFormed) {id : NodeId} {c : ClassDecl}
    (hc : p.class? id = some c) (options : Java.Options) : Succeeds (Java.emitClass p options id) :=
  (Java.succeeds_emitClass_iff hc options).mpr ⟨wf.finitelyNested id, fun _ => linked.resolved⟩

/-- A method of a program with accessor types was there, or is one of theirs. -/
theorem method?_withGrafts {gs : List Graft} {id : NodeId} {m : MethodDecl}
    (h : (p.withGrafts gs).method? id = some m) :
    (∃ k, p.method? k = some m) ∨ ∃ g ∈ gs, ∃ s ∈ g.spec.methods, s.toDecl = m := by
  obtain ⟨e, he, hm⟩ := node?_eq_some_iff.mp (method?_eq_some_iff.mp h)
  rcases List.mem_append.mp (List.mem_of_getElem? he) with hold | hnew
  · obtain ⟨k, hk, rfl⟩ := List.mem_mapIdx.mp hold
    have hkept : p.nodes[k].node = .method m := by
      unfold Entry.addMembers at hm
      split at hm
      · cases hm
      · exact hm
    exact Or.inl ⟨k,
      method?_eq_some_iff.mpr (node?_eq_some_iff.mpr ⟨_, List.getElem?_eq_getElem hk, hkept⟩)⟩
  · obtain ⟨g, hg, he⟩ := List.mem_flatMap.mp hnew
    rcases List.mem_cons.mp he with rfl | he
    · cases hm
    · obtain ⟨s, hs, rfl⟩ := List.mem_map.mp he
      exact Or.inr ⟨g, hg, s, hs, Node.method.inj hm⟩

/-- What synthesis calls is there. -/
theorem resolved_of_synthesize {types : Hierarchy} {host : NodeId} {m : MapperSpec}
    (hm : synthesize p types host = .ok m) {s : MethodSpec} (hs : s ∈ m.methods) :
    ∀ call ∈ s.toDecl.calls, call.Resolved p := by
  have hcalls : Block.EveryCall (fun target found => Call.Resolved p ⟨target, found⟩) s.body := by
    refine Synthesis.everyCall_of_synthesize rfl rfl hm (fun _ hpick => ?_) hs
    obtain ⟨d, hd, _⟩ := Catalog.method?_of_pick hpick
    exact ⟨d, hd⟩
  exact (Block.everyCall_iff s.body).mp hcalls

/-- A run adds no open calls. -/
theorem Linked.run (linked : p.Linked) (inline : Bool) : (Batch.run inline p).program.Linked := by
  have grown := (Additions.run p inline).extends
  cases inline with
  | false => exact linked
  | true =>
    obtain ⟨specs, _, hsynthesize, _, hprogram⟩ := Batch.program_run p
    intro id m hm call hcall
    rw [hprogram] at hm
    rcases method?_withGrafts hm with ⟨k, hk⟩ | ⟨g, hg, s, hs, rfl⟩
    · exact (linked k m hk call hcall).mono grown
    · exact (resolved_of_synthesize (hsynthesize _ (Graft.mem_layout hg)) hs call hcall).mono grown

end Program

namespace ClassFile

/-- Members of a file call nothing. -/
theorem linked_toProgram (file : ClassFile) : file.toProgram.Linked := by
  intro id m hm call hcall
  rcases Program.node?_populateAll Program.empty file.classes (Program.method?_eq_some_iff.mp hm)
    with hold | ⟨c, hc⟩ | ⟨c, _, hn⟩
  · cases hold
  · have hclass := Program.class?_eq_some_iff.mp (ClassFile.places hc).decl
    cases hclass.symm.trans (Program.method?_eq_some_iff.mp hm)
  · rcases Program.mem_nodes_cases hn with ⟨_, heq⟩ | ⟨_, _, heq⟩ | ⟨_, _, heq⟩ | ⟨_, heq⟩
    · cases heq
    · obtain rfl := Node.method.inj heq
      cases hcall
    · obtain rfl := Node.method.inj heq
      cases hcall
    · obtain rfl := Node.method.inj heq
      cases hcall

theorem reached_run (file : ClassFile) (inline : Bool) :
    (Batch.run inline file.toProgram).program.Reached := by
  have loaded : file.toProgram.Reached := .edit .empty (e := .populate file.classes) trivial rfl
  exact loaded.edit (e := .run inline) trivial rfl

/-- After a run every class can be written. -/
theorem succeeds_emitClass (file : ClassFile) (inline : Bool) {id : NodeId} {c : ClassDecl}
    (hc : (Batch.run inline file.toProgram).program.class? id = some c) (options : Java.Options) :
    Succeeds (Java.emitClass (Batch.run inline file.toProgram).program options id) :=
  (file.linked_toProgram.run inline).succeeds (file.reached_run inline).wellFormed hc options

end ClassFile

end FieldAccess
