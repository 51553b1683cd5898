import FieldAccess.Batch
import FieldAccess.Proofs.ClassFiles

/-! Programs that are built step by step. Whatever declarations are handed in, a node that is no
class hangs on a class that is there, so that a misplaced marker is reported at that class. -/
namespace FieldAccess

namespace Program

/-- Programs made by adding classes and members, and by annotating and extending classes. -/
inductive Built : Program → Prop where
  | empty : Built .empty
  | addClass {p : Program} (built : Built p) (c : ClassDecl) : Built (p.addClass c).1
  | addMember {p q : Program} (built : Built p) {owner id : NodeId} {n : Node}
      (added : p.addMember owner n = .ok (q, id)) : Built q
  | annotate {p : Program} (built : Built p) (id : NodeId) (mark : String) :
      Built (p.annotate id mark)
  | extend {p : Program} (built : Built p) (id : NodeId) (supertype : TypeDesc) :
      Built (p.extend id supertype)

theorem addMember_of_class {p : Program} {owner : NodeId} {c : ClassDecl}
    (hc : p.class? owner = some c) (n : Node) : p.addMember owner n = .ok (p.attach owner n) := by
  simp [addMember, expectClass_eq_ok_iff.mpr hc, bind, Except.bind, pure, Except.pure]

theorem Built.attach {p : Program} (built : p.Built) {owner : NodeId} {c : ClassDecl}
    (hc : p.class? owner = some c) (n : Node) : (p.attach owner n).1.Built :=
  .addMember built (addMember_of_class hc n)

theorem Built.attachAll {p : Program} (built : p.Built) {owner : NodeId} {c : ClassDecl}
    (hc : p.class? owner = some c) (ns : List Node) : (p.attachAll owner ns).Built := by
  induction ns generalizing p c with
  | nil => exact built
  | cons n ns ih => exact ih (built.attach hc n) (class?_attach_owner n hc)

/-- A class followed by its members. -/
def addClassWith (p : Program) (c : ClassDecl) (ns : List Node) : Program :=
  (p.addClass c).1.attachAll p.size ns

theorem Built.addClassWith {p : Program} (built : p.Built) (c : ClassDecl) (ns : List Node) :
    (p.addClassWith c ns).Built :=
  (built.addClass c).attachAll (class?_addClass_last p c) ns

theorem Built.populate {p : Program} (built : p.Built) (c : ClassDef) : (p.populate c).1.Built :=
  built.addClassWith c.decl c.nodes

theorem Built.populateAll {p : Program} (built : p.Built) (cs : List ClassDef) :
    (p.populateAll cs).1.Built := by
  induction cs generalizing p with
  | nil => exact built
  | cons c cs ih => exact ih (built.populate c)

/-! ### Owners -/

/-- Parents and kinds of all nodes. -/
def outline (p : Program) : List (Option NodeId × Bool) :=
  p.nodes.map fun e => (e.parent, e.node.isClass)

/-- Every node that is no class hangs on a class. -/
def Owned (p : Program) : Prop :=
  ∀ (id : NodeId) (parent : Option NodeId), p.outline[id]? = some (parent, false) →
    ∃ (owner : NodeId) (above : Option NodeId), parent = some owner ∧
      p.outline[owner]? = some (above, true)

theorem outline_modifyClass (p : Program) (id : NodeId) (f : ClassDecl → ClassDecl) :
    (p.modifyClass id f).outline = p.outline := by
  apply List.ext_getElem?
  intro k
  simp only [outline, modifyClass, List.getElem?_map, List.getElem?_modify]
  cases p.nodes[k]? with
  | none => rfl
  | some e =>
    obtain ⟨parent, node⟩ := e
    by_cases hk : id = k
    · cases node <;> simp [hk, Node.isClass]
    · simp [hk]

theorem outline_addClass (p : Program) (c : ClassDecl) :
    (p.addClass c).1.outline = p.outline ++ [(none, true)] := by
  simp [outline, addClass, Node.isClass]

theorem outline_attach (p : Program) (owner : NodeId) (n : Node) :
    (p.attach owner n).1.outline = p.outline ++ [(some owner, n.isClass)] := by
  simp only [attach, outline_modifyClass]
  simp [outline]

theorem outline_of_class? {p : Program} {id : NodeId} {c : ClassDecl} (hc : p.class? id = some c) :
    ∃ above, p.outline[id]? = some (above, true) := by
  obtain ⟨e, he, hn⟩ := node?_eq_some_iff.mp (class?_eq_some_iff.mp hc)
  exact ⟨e.parent, by simp [outline, he, hn, Node.isClass]⟩

/-- A node added behind the others, with an owner that is there if it needs one. -/
theorem Owned.append {p q : Program} (owned : p.Owned) {new : Option NodeId × Bool}
    (hq : q.outline = p.outline ++ [new])
    (hnew : new.2 = false → ∃ (owner : NodeId) (above : Option NodeId), new.1 = some owner ∧
      p.outline[owner]? = some (above, true)) : q.Owned := by
  have hkept : ∀ {k : Nat} {x : Option NodeId × Bool}, p.outline[k]? = some x →
      q.outline[k]? = some x := by
    intro k x hx
    rw [hq, List.getElem?_append_left (List.getElem?_eq_some_iff.mp hx).1]
    exact hx
  intro id parent hid
  have hfound : ∃ (owner : NodeId) (above : Option NodeId), parent = some owner ∧
      p.outline[owner]? = some (above, true) := by
    rw [hq] at hid
    rcases Nat.lt_or_ge id p.outline.length with hlt | hge
    · rw [List.getElem?_append_left hlt] at hid
      exact owned id parent hid
    · rw [List.getElem?_append_right hge] at hid
      have hlast := List.mem_singleton.mp (List.mem_of_getElem? hid)
      rw [← hlast] at hnew
      exact hnew rfl
  obtain ⟨owner, above, hparent, habove⟩ := hfound
  exact ⟨owner, above, hparent, hkept habove⟩

theorem Owned.addClass {p : Program} (owned : p.Owned) (c : ClassDecl) : (p.addClass c).1.Owned :=
  owned.append (p.outline_addClass c) nofun

theorem Owned.attach {p : Program} (owned : p.Owned) {owner : NodeId} {c : ClassDecl}
    (hc : p.class? owner = some c) (n : Node) : (p.attach owner n).1.Owned := by
  obtain ⟨above, habove⟩ := outline_of_class? hc
  exact owned.append (p.outline_attach owner n) fun _ => ⟨owner, above, rfl, habove⟩

theorem Owned.attachAll {p : Program} (owned : p.Owned) {owner : NodeId} {c : ClassDecl}
    (hc : p.class? owner = some c) (ns : List Node) : (p.attachAll owner ns).Owned := by
  induction ns generalizing p c with
  | nil => exact owned
  | cons n ns ih => exact ih (owned.attach hc n) (class?_attach_owner n hc)

theorem Owned.populate {p : Program} (owned : p.Owned) (c : ClassDef) : (p.populate c).1.Owned :=
  (owned.addClass c.decl).attachAll (class?_addClass_last p c.decl) c.nodes

theorem Owned.populateAll {p : Program} (owned : p.Owned) (cs : List ClassDef) :
    (p.populateAll cs).1.Owned := by
  induction cs generalizing p with
  | nil => exact owned
  | cons c cs ih => exact ih (owned.populate c)

/-- Every step keeps each node under a class. -/
theorem Built.owned {p : Program} (built : p.Built) : p.Owned := by
  induction built with
  | empty => exact nofun
  | addClass _ c ih => exact ih.addClass c
  | @addMember p q _ owner id n added ih =>
    cases hc : p.expectClass owner with
    | error e => simp [Program.addMember, hc, bind, Except.bind] at added
    | ok c =>
      have hclass := expectClass_eq_ok_iff.mp hc
      rw [addMember_of_class hclass, Except.ok.injEq] at added
      have hattach := ih.attach hclass n
      rw [added] at hattach
      exact hattach
  | @annotate p _ id mark ih =>
    have hsame : (p.annotate id mark).outline = p.outline := p.outline_modifyClass id _
    rw [Owned, hsame]
    exact ih
  | @extend p _ id supertype ih =>
    have hsame : (p.extend id supertype).outline = p.outline := p.outline_modifyClass id _
    rw [Owned, hsame]
    exact ih

/-- The owner of a field or a method is the nearest class around it. -/
theorem Owned.enclosing {p : Program} (owned : p.Owned) {id : NodeId} {n : Node}
    (hn : p.node? id = some n) (hkind : n.isClass = false) :
    ∃ owner c, p.parent? id = some owner ∧ p.class? owner = some c ∧
      (p.parent? id).bind p.enclosingClass? = some owner := by
  obtain ⟨e, he, rfl⟩ := node?_eq_some_iff.mp hn
  obtain ⟨owner, above, hparent, habove⟩ := owned id e.parent (by simp [outline, he, hkind])
  have hp : p.parent? id = some owner := by simp [parent?, he, hparent]
  obtain ⟨o, ho, _, hclass⟩ : ∃ o, p.nodes[owner]? = some o ∧ o.parent = above ∧
      o.node.isClass = true := by
    simpa [outline] using habove
  obtain ⟨c, hc⟩ : ∃ c, p.class? owner = some c := by
    cases hnode : o.node with
    | cls c => exact ⟨c, class?_eq_some_iff.mpr (node?_eq_some_iff.mpr ⟨o, ho, hnode⟩)⟩
    | field f => rw [hnode] at hclass; cases hclass
    | method m => rw [hnode] at hclass; cases hclass
  exact ⟨owner, c, hp, hc, by simp [hp, enclosingClass?, enclosingWithin, hc]⟩

end Program

end FieldAccess
