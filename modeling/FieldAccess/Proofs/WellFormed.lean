import FieldAccess.Proofs.Construction
import FieldAccess.Proofs.Grafts

/-! Who belongs to whom is said three times in a program: by the list of roots, by the parent of
each node and by the members of each class. The three agree, and every addition of a bare
declaration keeps them so. -/
namespace FieldAccess

/-- A declaration as it is handed in: a class lists no members yet. -/
def Node.Bare : Node → Prop
  | .cls c => c.members = []
  | _ => True

namespace Program

/-- Roots, parents and members tell the same tree, and owners come before what they own. -/
structure WellFormed (p : Program) : Prop where
  roots_increasing : p.roots.Pairwise (· < ·)
  mem_roots : ∀ id : Nat, id ∈ p.roots ↔ id < p.size ∧ p.parent? id = none
  roots_classes : ∀ id ∈ p.roots, ∃ c, p.class? id = some c
  owners : ∀ id owner : Nat, p.parent? id = some owner →
    owner < id ∧ ∃ c, p.class? owner = some c ∧ c.members.count id = 1
  members_increasing : ∀ (id : Nat) (c : ClassDecl), p.class? id = some c →
    c.members.Pairwise (· < ·)
  members_owned : ∀ (id : Nat) (c : ClassDecl), p.class? id = some c →
    ∀ m ∈ c.members, p.parent? m = some id

theorem wellFormed_empty : Program.empty.WellFormed := by
  constructor <;> simp [empty, size, parent?, class?, node?]

/-! ### What an addition changes -/

theorem parent?_eq (p : Program) (id : NodeId) : p.parent? id = (p.outline[id]?).bind Prod.fst := by
  simp only [parent?, outline, List.getElem?_map]
  cases p.nodes[id]? <;> rfl

theorem length_outline (p : Program) : p.outline.length = p.size := by
  simp [outline, size]

theorem lt_size_of_parent? {p : Program} {id owner : Nat} (h : p.parent? id = some owner) :
    id < p.size := by
  obtain ⟨e, he, _⟩ := Option.bind_eq_some_iff.mp h
  exact (List.getElem?_eq_some_iff.mp he).1

theorem parent?_modifyClass (p : Program) (id : NodeId) (f : ClassDecl → ClassDecl) (k : NodeId) :
    (p.modifyClass id f).parent? k = p.parent? k := by
  rw [parent?_eq, outline_modifyClass, ← parent?_eq]

/-- One node behind the others leaves all parents as they are. -/
theorem parent?_of_outline {p q : Program} {new : Option NodeId × Bool}
    (hq : q.outline = p.outline ++ [new]) (id : Nat) :
    q.parent? id = if id = p.size then new.1 else p.parent? id := by
  rw [parent?_eq, hq, parent?_eq]
  rcases Nat.lt_trichotomy id p.size with hlt | heq | hgt
  · rw [List.getElem?_append_left (by rw [length_outline]; exact hlt), if_neg (by omega)]
  · subst heq
    simp [← length_outline]
  · have hout : p.outline.length < id := by rw [length_outline]; exact hgt
    rw [if_neg (by omega), List.getElem?_eq_none_iff.mpr (by simp; omega),
      List.getElem?_eq_none_iff.mpr (by omega)]

theorem parent?_of_outline_of_lt {p q : Program} {new : Option NodeId × Bool}
    (hq : q.outline = p.outline ++ [new]) {id : Nat} (h : id < p.size) :
    q.parent? id = p.parent? id := by
  rw [parent?_of_outline hq, if_neg (Nat.ne_of_lt h)]

/-- The nodes without a parent are those from before and the new one, if it has none. -/
theorem parentless_of_outline {p q : Program} {new : Option NodeId × Bool}
    (hq : q.outline = p.outline ++ [new]) (id : Nat) :
    id < q.size ∧ q.parent? id = none ↔
      (id < p.size ∧ p.parent? id = none) ∨ (id = p.size ∧ new.1 = none) := by
  have hsize : q.size = p.size + 1 := by
    rw [← length_outline, hq, List.length_append, length_outline]
    rfl
  rw [hsize, parent?_of_outline hq]
  by_cases hid : id = p.size
  · simp [hid]
  · have hbound : id < p.size + 1 ↔ id < p.size := by omega
    simp [hid, hbound]

theorem increasing_concat {l : List Nat} {n : Nat} (hl : l.Pairwise (· < ·)) (h : ∀ a ∈ l, a < n) :
    (l ++ [n]).Pairwise (· < ·) := by
  rw [List.pairwise_append]
  refine ⟨hl, List.pairwise_singleton _ _, ?_⟩
  intro a ha b hb
  rw [List.mem_singleton.mp hb]
  exact h a ha

theorem class?_addClass_of_some {p : Program} {id : Nat} {d : ClassDecl} (c : ClassDecl)
    (hd : p.class? id = some d) : (p.addClass c).1.class? id = some d := by
  rw [class?, node?_addClass_of_lt p c (lt_size_of_class? hd), ← class?, hd]

theorem class?_attach_of_ne {p : Program} {owner id : Nat} {d : ClassDecl} (n : Node)
    (hne : id ≠ owner) (hd : p.class? id = some d) : (p.attach owner n).1.class? id = some d := by
  rw [class?, node?_attach_of_ne p n hne (lt_size_of_class? hd), ← class?, hd]

theorem class?_addClass_cases {p : Program} {c d : ClassDecl} {id : Nat}
    (h : (p.addClass c).1.class? id = some d) :
    (id < p.size ∧ p.class? id = some d) ∨ (id = p.size ∧ d = c) := by
  have hlt := lt_size_of_class? h
  rw [size_addClass] at hlt
  rcases Nat.lt_or_eq_of_le (Nat.le_of_lt_succ hlt) with hid | rfl
  · rw [class?, node?_addClass_of_lt p c hid, ← class?] at h
    exact Or.inl ⟨hid, h⟩
  · rw [class?_addClass_last, Option.some.injEq] at h
    exact Or.inr ⟨rfl, h.symm⟩

theorem class?_attach_cases {p : Program} {owner : Nat} {c d : ClassDecl} {n : Node} {id : Nat}
    (hc : p.class? owner = some c) (h : (p.attach owner n).1.class? id = some d) :
    (id = owner ∧ d = { c with members := c.members ++ [p.size] }) ∨
      (id ≠ owner ∧ id < p.size ∧ p.class? id = some d) ∨ (id = p.size ∧ n = .cls d) := by
  have hlt := lt_size_of_class? h
  rw [size_attach] at hlt
  by_cases howner : id = owner
  · subst howner
    rw [class?_attach_owner n hc, Option.some.injEq] at h
    exact Or.inl ⟨rfl, h.symm⟩
  · rcases Nat.lt_or_eq_of_le (Nat.le_of_lt_succ hlt) with hid | rfl
    · rw [class?, node?_attach_of_ne p n howner hid, ← class?] at h
      exact Or.inr (Or.inl ⟨howner, hid, h⟩)
    · rw [class?_eq_some_iff, node?_attach_last p n (lt_size_of_class? hc), Option.some.injEq] at h
      exact Or.inr (Or.inr ⟨rfl, h⟩)

theorem class?_modifyClass (p : Program) (id : Nat) (f : ClassDecl → ClassDecl) (k : Nat) :
    (p.modifyClass id f).class? k = if k = id then (p.class? k).map f else p.class? k := by
  simp only [class?, node?, modifyClass, List.getElem?_modify]
  cases p.nodes[k]? with
  | none => simp
  | some e =>
    obtain ⟨parent, node⟩ := e
    by_cases hk : k = id
    · cases node <;> simp [hk, Node.asClass?]
    · simp [hk, Ne.symm hk]

section
variable {p : Program} {id : Nat} {f : ClassDecl → ClassDecl} (hf : ∀ c, (f c).members = c.members)
include hf

theorem members_of_modifyClass {k : Nat} {d : ClassDecl}
    (hd : (p.modifyClass id f).class? k = some d) :
    ∃ c, p.class? k = some c ∧ d.members = c.members := by
  rw [class?_modifyClass] at hd
  split at hd
  · obtain ⟨c, hc, rfl⟩ := Option.map_eq_some_iff.mp hd
    exact ⟨c, hc, hf c⟩
  · exact ⟨d, hd, rfl⟩

theorem members_modifyClass {k : Nat} {c : ClassDecl} (hc : p.class? k = some c) :
    ∃ d, (p.modifyClass id f).class? k = some d ∧ d.members = c.members := by
  rw [class?_modifyClass, hc]
  split
  · exact ⟨f c, rfl, hf c⟩
  · exact ⟨c, rfl, rfl⟩

end

namespace WellFormed

variable {p : Program} (wf : p.WellFormed)
include wf

theorem lt_size_of_mem_members {id : Nat} {c : ClassDecl} (hc : p.class? id = some c) {m : Nat}
    (hm : m ∈ c.members) : m < p.size :=
  lt_size_of_parent? (wf.members_owned id c hc m hm)

theorem addClass {c : ClassDecl} (bare : c.members = []) : (p.addClass c).1.WellFormed where
  roots_increasing := increasing_concat wf.roots_increasing fun id hid =>
    ((wf.mem_roots id).mp hid).1
  mem_roots id := by
    have hroots : (p.addClass c).1.roots = p.roots ++ [p.size] := rfl
    rw [parentless_of_outline (p.outline_addClass c), hroots, List.mem_append, List.mem_singleton,
      wf.mem_roots]
    simp
  roots_classes id hid := by
    rcases List.mem_append.mp hid with hold | hnew
    · obtain ⟨d, hd⟩ := wf.roots_classes id hold
      exact ⟨d, class?_addClass_of_some c hd⟩
    · rw [List.mem_singleton.mp hnew]
      exact ⟨c, class?_addClass_last p c⟩
  owners id owner howner := by
    rw [parent?_of_outline (p.outline_addClass c)] at howner
    split at howner
    · cases howner
    · obtain ⟨hlt, d, hd, hcount⟩ := wf.owners id owner howner
      exact ⟨hlt, d, class?_addClass_of_some c hd, hcount⟩
  members_increasing id d hd := by
    rcases class?_addClass_cases hd with ⟨_, hold⟩ | ⟨_, rfl⟩
    · exact wf.members_increasing id d hold
    · rw [bare]
      exact List.Pairwise.nil
  members_owned id d hd m hm := by
    rcases class?_addClass_cases hd with ⟨_, hold⟩ | ⟨_, rfl⟩
    · have hlt := wf.lt_size_of_mem_members hold hm
      rw [parent?_of_outline_of_lt (p.outline_addClass c) hlt]
      exact wf.members_owned id d hold m hm
    · rw [bare] at hm
      cases hm

/-- A new member is listed once by its owner, and the others as often as before. -/
theorem owners_attach {owner : Nat} {c : ClassDecl} (hc : p.class? owner = some c) (n : Node)
    {id o : Nat} (ho : (p.attach owner n).1.parent? id = some o) :
    o < id ∧ ∃ d, (p.attach owner n).1.class? o = some d ∧ d.members.count id = 1 := by
  rw [parent?_of_outline (p.outline_attach owner n)] at ho
  split at ho
  · next hid =>
    subst hid
    obtain rfl : owner = o := Option.some.inj ho
    have hfresh : p.size ∉ c.members := fun hm =>
      Nat.lt_irrefl _ (wf.lt_size_of_mem_members hc hm)
    refine ⟨lt_size_of_class? hc, _, class?_attach_owner n hc, ?_⟩
    rw [List.count_append, List.count_eq_zero.mpr hfresh]
    simp
  · next hid =>
    obtain ⟨hbefore, d, hd, hcount⟩ := wf.owners id o ho
    by_cases hne : o = owner
    · subst hne
      refine ⟨hbefore, _, class?_attach_owner n hc, ?_⟩
      rw [hc, Option.some.injEq] at hd
      subst hd
      rw [List.count_append, hcount]
      simp [Ne.symm hid]
    · exact ⟨hbefore, d, class?_attach_of_ne n hne hd, hcount⟩

theorem attach {owner : Nat} {c : ClassDecl} (hc : p.class? owner = some c) {n : Node}
    (bare : n.Bare) : (p.attach owner n).1.WellFormed where
  roots_increasing := wf.roots_increasing
  mem_roots id := by
    rw [parentless_of_outline (p.outline_attach owner n), roots_attach, wf.mem_roots]
    simp
  roots_classes id hid := by
    obtain ⟨d, hd⟩ := wf.roots_classes id hid
    by_cases hne : id = owner
    · subst hne
      exact ⟨_, class?_attach_owner n hc⟩
    · exact ⟨d, class?_attach_of_ne n hne hd⟩
  owners _ _ ho := wf.owners_attach hc n ho
  members_increasing id d hd := by
    rcases class?_attach_cases hc hd with ⟨rfl, rfl⟩ | ⟨_, _, hold⟩ | ⟨_, rfl⟩
    · exact increasing_concat (wf.members_increasing id c hc) fun _ => wf.lt_size_of_mem_members hc
    · exact wf.members_increasing id d hold
    · rw [show d.members = [] from bare]
      exact List.Pairwise.nil
  members_owned id d hd m hm := by
    have hparent := p.outline_attach owner n
    have hold : ∀ {k : Nat} {b : ClassDecl}, p.class? k = some b → m ∈ b.members →
        (p.attach owner n).1.parent? m = some k := by
      intro k b hb hmem
      rw [parent?_of_outline_of_lt hparent (wf.lt_size_of_mem_members hb hmem)]
      exact wf.members_owned k b hb m hmem
    rcases class?_attach_cases hc hd with ⟨rfl, rfl⟩ | ⟨_, _, hkeep⟩ | ⟨_, rfl⟩
    · rcases List.mem_append.mp hm with hm | hm
      · exact hold hc hm
      · rw [List.mem_singleton.mp hm, parent?_of_outline hparent, if_pos rfl]
    · exact hold hkeep hm
    · rw [show d.members = [] from bare] at hm
      cases hm

/-- A change to a class that leaves its members alone. -/
theorem modifyClass (id : Nat) {f : ClassDecl → ClassDecl} (hf : ∀ c, (f c).members = c.members) :
    (p.modifyClass id f).WellFormed where
  roots_increasing := wf.roots_increasing
  mem_roots k := by
    have hsize : (p.modifyClass id f).size = p.size := by simp [Program.modifyClass, size]
    rw [hsize, parent?_modifyClass]
    exact wf.mem_roots k
  roots_classes k hk := by
    obtain ⟨c, hc⟩ := wf.roots_classes k hk
    obtain ⟨d, hd, _⟩ := members_modifyClass hf hc
    exact ⟨d, hd⟩
  owners k owner howner := by
    rw [parent?_modifyClass] at howner
    obtain ⟨hlt, c, hc, hcount⟩ := wf.owners k owner howner
    obtain ⟨d, hd, hmembers⟩ := members_modifyClass hf hc
    exact ⟨hlt, d, hd, by rw [hmembers]; exact hcount⟩
  members_increasing k d hd := by
    obtain ⟨c, hc, hmembers⟩ := members_of_modifyClass hf hd
    rw [hmembers]
    exact wf.members_increasing k c hc
  members_owned k d hd m hm := by
    obtain ⟨c, hc, hmembers⟩ := members_of_modifyClass hf hd
    rw [hmembers] at hm
    rw [parent?_modifyClass]
    exact wf.members_owned k c hc m hm

/-- A node or its owner is a class, so that the search for one takes two steps at most. -/
theorem enclosing {id : Nat} {n : Node} (hn : p.node? id = some n) :
    ∃ owner : NodeId, (if n.isClass then owner = id else p.parent? id = some owner) ∧
      ∀ steps, 2 ≤ steps → p.enclosingWithin steps id = some owner := by
  cases hkind : n.isClass with
  | true =>
    obtain ⟨c, hc⟩ : ∃ c, p.class? id = some c := by
      cases n with
      | cls c => exact ⟨c, class?_eq_some_iff.mpr hn⟩
      | field f => cases hkind
      | method m => cases hkind
    refine ⟨id, rfl, ?_⟩
    intro steps hsteps
    obtain ⟨k, rfl⟩ := Nat.exists_eq_add_of_le' hsteps
    simp [enclosingWithin, hc]
  | false =>
    have hclass : p.class? id = none := by
      cases n with
      | cls c => cases hkind
      | field f => simp [class?, hn, Node.asClass?]
      | method m => simp [class?, hn, Node.asClass?]
    cases hparent : p.parent? id with
    | none =>
      -- a node without a parent is a root, and those are classes
      obtain ⟨c, hc⟩ := wf.roots_classes id ((wf.mem_roots id).mpr ⟨lt_size_of_node? hn, hparent⟩)
      rw [hclass] at hc
      cases hc
    | some owner =>
      obtain ⟨_, c, hc, _⟩ := wf.owners id owner hparent
      refine ⟨owner, rfl, ?_⟩
      intro steps hsteps
      obtain ⟨k, rfl⟩ := Nat.exists_eq_add_of_le' hsteps
      simp [enclosingWithin, hclass, hparent, hc]

end WellFormed

/-! ### Additions -/

/-- What comes about by adding top-level classes and members of classes, each as a bare
declaration. -/
inductive Additions (p : Program) : Program → Prop where
  | refl : Additions p p
  | addClass {q : Program} (added : Additions p q) {c : ClassDecl} (bare : c.members = []) :
      Additions p (q.addClass c).1
  | attach {q : Program} (added : Additions p q) {owner : NodeId} {c : ClassDecl}
      (hc : q.class? owner = some c) {n : Node} (bare : n.Bare) : Additions p (q.attach owner n).1

namespace Additions

variable {p q : Program}

theorem wellFormed (added : p.Additions q) (wf : p.WellFormed) : q.WellFormed := by
  induction added with
  | refl => exact wf
  | addClass _ bare ih => exact ih.addClass bare
  | attach _ hc bare ih => exact ih.attach hc bare

theorem roots_prefix (added : p.Additions q) : p.roots <+: q.roots := by
  induction added with
  | refl => exact List.prefix_rfl
  | addClass _ bare ih => exact ih.trans (List.prefix_append _ _)
  | attach _ hc bare ih => exact ih

/-- An entry keeps its place and changes at most by more members. -/
theorem entry (added : p.Additions q) {id : Nat} {e : Entry} (he : p.nodes[id]? = some e) :
    ∃ ids, q.nodes[id]? = some (e.addMembers ids) := by
  induction added with
  | refl => exact ⟨[], by rw [e.addMembers_nil]; exact he⟩
  | @addClass q _ c bare ih =>
    obtain ⟨ids, hids⟩ := ih
    refine ⟨ids, ?_⟩
    rw [Program.addClass, List.getElem?_append_left (List.getElem?_eq_some_iff.mp hids).1]
    exact hids
  | @attach q _ owner c hc n bare ih =>
    obtain ⟨ids, hids⟩ := ih
    have hlt := (List.getElem?_eq_some_iff.mp hids).1
    rw [nodes_attach (lt_size_of_class? hc), List.getElem?_append_left (by simpa using hlt),
      List.getElem?_modify, hids]
    by_cases hid : owner = id
    · exact ⟨ids ++ [q.size], by simp [hid, Entry.addMembers_append]⟩
    · exact ⟨ids, by simp [hid]⟩

theorem attachAll (added : p.Additions q) {owner : NodeId} {c : ClassDecl}
    (hc : q.class? owner = some c) {ns : List Node} (bare : ∀ n ∈ ns, n.Bare) :
    p.Additions (q.attachAll owner ns) := by
  induction ns generalizing q c with
  | nil => exact added
  | cons n ns ih =>
    exact ih (added.attach hc (bare n List.mem_cons_self)) (class?_attach_owner n hc)
      fun m hm => bare m (List.mem_cons_of_mem _ hm)

theorem attachMapper (added : p.Additions q) {host : NodeId} {c : ClassDecl}
    (hc : q.class? host = some c) (m : MapperSpec) : p.Additions (q.attachMapper host m).1 := by
  have hnew : (q.attach host (.cls m.classDecl)).1.class? q.size = some m.classDecl :=
    class?_eq_some_iff.mpr (node?_attach_last q _ (lt_size_of_class? hc))
  rw [attachMapper_eq]
  apply (added.attach hc (n := .cls m.classDecl) rfl).attachAll hnew
  intro n hn
  obtain ⟨s, _, rfl⟩ := List.mem_map.mp hn
  trivial

theorem populateAll (added : p.Additions q) (cs : List ClassDef) :
    p.Additions (q.populateAll cs).1 := by
  induction cs generalizing q with
  | nil => exact added
  | cons c cs ih =>
    apply ih
    apply (added.addClass (c := c.decl) rfl).attachAll (class?_addClass_last q c.decl)
    intro n hn
    cases n with
    | cls d => exact absurd (asClass?_of_mem_nodes hn) nofun
    | field f => trivial
    | method m => trivial

theorem step (types : Hierarchy) {b : Batch} (added : p.Additions b.program) (id : NodeId) :
    p.Additions (Batch.step types b id).program := by
  rcases Batch.step_program types b id with heq | ⟨m, hm, _, heq⟩
  · rw [heq]
    exact added
  · obtain ⟨_, c, _, hc, _⟩ := synthesize_ok hm
    rw [heq]
    exact added.attachMapper hc m

/-- A run attaches accessor types to classes that are there. -/
theorem run (p : Program) (inline : Bool) : p.Additions (Batch.run inline p).program := by
  have hfold : ∀ (ids : List NodeId) (b : Batch), p.Additions b.program →
      p.Additions (ids.foldl (Batch.step (.ofProgram p)) b).program := by
    intro ids
    induction ids with
    | nil => exact fun b added => added
    | cons id ids ih => exact fun b added => ih _ (step _ added id)
  cases inline with
  | false => exact .refl
  | true => exact hfold (Batch.candidates p) _ .refl

end Additions

end Program

end FieldAccess
