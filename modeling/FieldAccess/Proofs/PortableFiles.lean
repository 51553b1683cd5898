import FieldAccess.ClassFile.Format
import FieldAccess.Proofs.ClassFiles
import FieldAccess.Proofs.Grafts
import FieldAccess.Proofs.ProgramJson
import Mathlib

/-! Types of class files. Those that a class file was read with are all the types of its program, so
the program is read back from its JSON. -/
namespace FieldAccess

/-! ### A growing program stays in scope -/

namespace Program

variable {W : Scope} {p : Program}

theorem forall_mem_modify {P : Entry → Prop} {f : Entry → Entry} (h : ∀ e, P (f e) ↔ P e)
    (l : List Entry) (i : Nat) : (∀ e ∈ l.modify i f, P e) ↔ ∀ e ∈ l, P e := by
  induction l generalizing i with
  | nil => simp
  | cons e l ih =>
    cases i with
    | zero => simp [h]
    | succ i => simp [ih]

theorem inScope_addMembers {ids : List NodeId} (hids : ∀ id ∈ ids, W.node id) (e : Entry) :
    (e.addMembers ids).InScope W ↔ e.InScope W := by
  obtain ⟨parent, node⟩ := e
  cases node with
  | cls c =>
    simp only [Entry.InScope, Entry.addMembers, Node.InScope, ClassDecl.InScope,
      List.forall_mem_append]
    tauto
  | field f => rfl
  | method m => rfl

theorem inScope_addClass (hid : W.node p.size) (c : ClassDecl) :
    (p.addClass c).1.InScope W ↔ p.InScope W ∧ c.InScope W := by
  constructor
  · rintro ⟨hnodes, hroots⟩
    simp only [addClass, List.forall_mem_append, List.forall_mem_singleton] at hnodes hroots
    exact ⟨⟨hnodes.1, hroots.1⟩, hnodes.2.2⟩
  · rintro ⟨⟨hnodes, hroots⟩, hc⟩
    refine ⟨?_, ?_⟩
    · simp only [addClass, List.forall_mem_append, List.forall_mem_singleton]
      exact ⟨hnodes, by simp, hc⟩
    · simp only [addClass, List.forall_mem_append, List.forall_mem_singleton]
      exact ⟨hroots, hid⟩

theorem inScope_attach {owner : Nat} (howner : owner < p.size) (hids : ∀ id ≤ p.size, W.node id)
    (n : Node) : (p.attach owner n).1.InScope W ↔ p.InScope W ∧ n.InScope W := by
  have hnodes : (∀ e ∈ (p.attach owner n).1.nodes, e.InScope W) ↔
      (∀ e ∈ p.nodes, e.InScope W) ∧ n.InScope W := by
    have hnew : ∀ id ∈ [p.size], W.node id := by simpa using hids p.size (Nat.le_refl _)
    have hold := forall_mem_modify (inScope_addMembers hnew) p.nodes owner
    rw [nodes_attach howner, List.forall_mem_append, hold, List.forall_mem_singleton]
    have hparent : W.node owner := hids owner (Nat.le_of_lt howner)
    simp [Entry.InScope, hparent]
  constructor
  · rintro ⟨h, hroots⟩
    exact ⟨⟨(hnodes.mp h).1, hroots⟩, (hnodes.mp h).2⟩
  · rintro ⟨⟨h, hroots⟩, hn⟩
    exact ⟨hnodes.mpr ⟨h, hn⟩, hroots⟩

theorem inScope_attachAll {owner : Nat} (howner : owner < p.size) (ns : List Node)
    (hids : ∀ id < p.size + ns.length, W.node id) :
    (p.attachAll owner ns).InScope W ↔ p.InScope W ∧ ∀ n ∈ ns, n.InScope W := by
  induction ns generalizing p with
  | nil => simp [attachAll]
  | cons n ns ih =>
    rw [List.length_cons] at hids
    have hstep := inScope_attach howner (fun id hid => hids id (by omega)) n
    have hrest := ih (p := (p.attach owner n).1) (by rw [size_attach]; omega)
      (fun id hid => hids id (by rw [size_attach] at hid; omega))
    rw [attachAll_cons, hrest, hstep, List.forall_mem_cons]
    tauto

end Program

/-! ### The program of a class file -/

def MethodDef.TypesIn (T : TypeDesc → Prop) (m : MethodDef) : Prop :=
  (∀ q ∈ m.params, T q.type) ∧ T m.returns

/-- All types that stand in a class are among the given ones. -/
structure ClassDef.TypesIn (T : TypeDesc → Prop) (c : ClassDef) : Prop where
  supertypes : ∀ t ∈ c.supertypes, T t
  fields : ∀ f ∈ c.fields, T f.type
  methods : ∀ m ∈ c.methods, m.TypesIn T

def ClassFile.TypesIn (T : TypeDesc → Prop) (f : ClassFile) : Prop := ∀ c ∈ f.classes, c.TypesIn T

theorem FieldDef.inScope_nodes {W : Scope} (hvoid : W.type .void) (f : FieldDef) :
    (∀ n ∈ f.nodes, n.InScope W) ↔ W.type f.type := by
  refine ⟨fun h => h _ List.mem_cons_self, fun h => ?_⟩
  have getter : (MethodDecl.getterOf f.name f.type).InScope W :=
    ⟨by simp [MethodDecl.getterOf], h, by
      rintro b ⟨⟩
      simp [Block.InScope, Stmt.InScope, Expr.InScope]⟩
  have setter : (MethodDecl.setterOf f.name f.type).InScope W :=
    ⟨by simpa [MethodDecl.setterOf] using h, hvoid, by
      rintro b ⟨⟩
      simp [Block.InScope, Stmt.InScope, Expr.InScope]⟩
  intro n hn
  rcases FieldDef.mem_nodes hn with rfl | rfl | rfl
  · exact h
  · exact getter
  · exact setter

theorem MethodDef.inScope_node {W : Scope} (m : MethodDef) : m.node.InScope W ↔ m.TypesIn W.type :=
  ⟨fun h => ⟨h.params, h.returns⟩, fun h => ⟨h.1, h.2, by rintro b ⟨⟩⟩⟩

theorem ClassDef.typesIn_iff {W : Scope} (hvoid : W.type .void) (c : ClassDef) :
    c.TypesIn W.type ↔ c.decl.InScope W ∧ ∀ n ∈ c.nodes, n.InScope W := by
  have hdecl : c.decl.InScope W ↔ ∀ t ∈ c.supertypes, W.type t := by
    simp [ClassDecl.InScope, ClassDef.decl]
  rw [hdecl, ClassDef.nodes, List.forall_mem_append, List.forall_mem_flatMap, List.forall_mem_map]
  simp only [FieldDef.inScope_nodes hvoid, MethodDef.inScope_node]
  exact ⟨fun h => ⟨h.supertypes, h.fields, h.methods⟩, fun h => ⟨h.1, h.2.1, h.2.2⟩⟩

namespace Program

variable {W : Scope}

theorem inScope_populate (hvoid : W.type .void) (p : Program) (c : ClassDef)
    (hids : ∀ id < (p.populate c).1.size, W.node id) :
    (p.populate c).1.InScope W ↔ p.InScope W ∧ c.TypesIn W.type := by
  rw [size_populate] at hids
  have hlt : p.size < (p.addClass c.decl).1.size := by rw [size_addClass]; omega
  have hclass := inScope_addClass (hids p.size (by omega)) c.decl
  have hnodes := inScope_attachAll hlt c.nodes fun id hid => hids id (by rwa [size_addClass] at hid)
  rw [populate_eq, hnodes, hclass, ClassDef.typesIn_iff hvoid, and_assoc]

theorem size_le_populateAll (p : Program) (cs : List ClassDef) :
    p.size ≤ (p.populateAll cs).1.size := by
  induction cs generalizing p with
  | nil => exact Nat.le_refl _
  | cons c cs ih =>
    have hle := ih (p.populate c).1
    rw [size_populate] at hle
    exact Nat.le_trans (by omega) hle

theorem inScope_populateAll (hvoid : W.type .void) (p : Program) (cs : List ClassDef)
    (hids : ∀ id < (p.populateAll cs).1.size, W.node id) :
    (p.populateAll cs).1.InScope W ↔ p.InScope W ∧ ∀ c ∈ cs, c.TypesIn W.type := by
  induction cs generalizing p with
  | nil => simp [populateAll]
  | cons c cs ih =>
    have hle := (p.populate c).1.size_le_populateAll cs
    have hfirst := inScope_populate hvoid p c fun id hid => hids id (Nat.lt_of_lt_of_le hid hle)
    refine (ih (p.populate c).1 hids).trans ?_
    rw [hfirst, List.forall_mem_cons, and_assoc]

end Program

/-- The types of a class file are those of its program. -/
theorem ClassFile.inScope_toProgram {W : Scope} (hvoid : W.type .void) {f : ClassFile}
    (hids : ∀ id < f.toProgram.size, W.node id) : f.toProgram.InScope W ↔ f.TypesIn W.type := by
  have hempty : Program.empty.InScope W := ⟨by simp [Program.empty], by simp [Program.empty]⟩
  refine (Program.inScope_populateAll hvoid .empty f.classes hids).trans ?_
  exact and_iff_right hempty

/-! ### Class files that were read -/

/-- What a list or an entry is read as comes from the reader of its items or of its value, or is the
default. -/
structure Format.Lawful {m : Type → Type} [MonadAttach m] {N R : Type}
    (F : Format m N R) : Prop where
  found {α : Type} {P : α → Prop} {o : Option α} : (∀ a, o = some a → P a) → Gives (F.found o) P
  list {α : Type} {P : α → Prop} {read : N → m α} :
    (∀ n, Gives (read n) P) → ∀ n, Gives (F.list read n) (∀ a ∈ ·, P a)
  field {α : Type} {P : α → Prop} {read : N → m α} :
    (∀ n, Gives (read n) P) → ∀ r key, Gives (F.field r key read) P
  fieldOr {α : Type} {P : α → Prop} {read : N → m α} {default : α} :
    P default → (∀ n, Gives (read n) P) → ∀ r key, Gives (F.fieldOr r key default read) P

theorem Format.lawful_json : Format.json.Lawful where
  found h := h
  list := Gives.listOf
  field := Gives.field
  fieldOr := Gives.fieldOr

theorem Yaml.Reading.gives_fail {α : Type} {P : α → Prop} : Gives (fail : Reading α) P := by
  rintro a ⟨d, left, rest, ⟨⟩⟩

theorem Format.lawful_yaml : Format.yaml.Lawful where
  found {_ _ o} h := by
    cases o with
    | none => exact Yaml.Reading.gives_fail
    | some a => exact .pure (h a rfl)
  list h n := by
    refine (Gives.any _).bind fun n _ => ?_
    split
    · exact .mapM fun n _ => h n
    · split
      · exact .pure (by simp)
      · exact Yaml.Reading.gives_fail
  field h r key := by
    dsimp only [yaml, Yaml.Reading.field]
    split
    · exact h _
    · exact Yaml.Reading.gives_fail
  fieldOr hd h r key := by
    dsimp only [yaml, Yaml.Reading.fieldOr]
    split
    · exact h _
    · exact .pure hd

theorem TypeDesc.parsed_void : TypeDesc.void.Parsed := ⟨"void", by decide⟩

section
variable {m : Type → Type} [Monad m] [LawfulMonad m] [MonadAttach m] [LawfulMonadAttach m]
  {N R : Type} {F : Format m N R} (hF : F.Lawful)
include hF

theorem TypeDesc.gives_read (n : N) : Gives (TypeDesc.read F n) TypeDesc.Parsed :=
  (Gives.any _).bind fun s _ => hF.found fun _ ht => ⟨s, ht⟩

theorem Param.gives_read (n : N) : Gives (Param.read F n) (fun q => q.type.Parsed) :=
  (Gives.any _).bind fun r _ => (Gives.any _).bind fun _ _ =>
    (hF.field (TypeDesc.gives_read hF) r _).bind fun _ ht => .pure ht

theorem FieldDef.gives_read (n : N) : Gives (FieldDef.read F n) (fun f => f.type.Parsed) :=
  (Gives.any _).bind fun r _ => (Gives.any _).bind fun _ _ =>
    (hF.field (TypeDesc.gives_read hF) r _).bind fun _ ht =>
      (Gives.any _).bind fun _ _ => (Gives.any _).bind fun _ _ => .pure ht

theorem MethodDef.gives_read (n : N) : Gives (MethodDef.read F n) (TypesIn TypeDesc.Parsed) :=
  (Gives.any _).bind fun r _ => (Gives.any _).bind fun _ _ =>
    (hF.fieldOr (by simp) (hF.list (Param.gives_read hF)) r _).bind fun _ hparams =>
      (hF.fieldOr TypeDesc.parsed_void (TypeDesc.gives_read hF) r _).bind fun _ hreturns =>
        (Gives.any _).bind fun _ _ => (Gives.any _).bind fun _ _ => .pure ⟨hparams, hreturns⟩

theorem ClassDef.gives_read (n : N) : Gives (ClassDef.read F n) (TypesIn TypeDesc.Parsed) := by
  refine (Gives.any _).bind fun r _ => (Gives.any _).bind fun _ _ =>
    (Gives.any _).bind fun _ _ => ?_
  refine (hF.fieldOr (by simp) (hF.list (TypeDesc.gives_read hF)) r _).bind fun _ hsuper => ?_
  refine (hF.fieldOr (by simp) (hF.list (FieldDef.gives_read hF)) r _).bind fun _ hfields => ?_
  exact (hF.fieldOr (by simp) (hF.list (MethodDef.gives_read hF)) r _).bind
    fun _ hmethods => .pure ⟨hsuper, hfields, hmethods⟩

theorem ClassFile.gives_read (n : N) : Gives (ClassFile.read F n) (TypesIn TypeDesc.Parsed) :=
  (Gives.any _).bind fun r _ =>
    (hF.fieldOr (by simp) (hF.list (ClassDef.gives_read hF)) r _).bind fun _ hclasses =>
      .pure hclasses

end

/-- The class file stands in some text, or in some JSON. -/
def ClassFile.Loaded (f : ClassFile) : Prop :=
  (∃ text, ClassFile.parse text = .ok f) ∨ ∃ j, ClassFile.ofJson? j = some f

theorem ClassFile.Loaded.typesIn {f : ClassFile} (loaded : f.Loaded) :
    f.TypesIn TypeDesc.Parsed := by
  rcases loaded with ⟨text, h⟩ | ⟨j, h⟩
  · obtain ⟨⟨d, rest⟩, -, h⟩ := exists_of_bind_eq_ok h
    obtain ⟨⟨g, left⟩, hread, h⟩ := exists_of_bind_eq_ok h
    obtain ⟨_, -, h⟩ := exists_of_bind_eq_ok h
    cases h
    cases hrun : (ClassFile.ofYaml d.root).run d |>.run d.allowance with
    | none =>
      rw [hrun] at hread
      cases hread
    | some x =>
      rw [hrun] at hread
      cases hread
      exact ClassFile.gives_read Format.lawful_yaml d.root f ⟨d, d.allowance, left, hrun⟩
  · exact ClassFile.gives_read Format.lawful_json j f h

/-! ### Programs are read back -/

/-- A program is read back from what is written for it exactly if some text stands for each of its
types and its ids have 32 bits. That is so for every program that was read, whatever was missing or
unknown there, and for the program of a class file. -/
theorem programs_survive_json (p : Program) :
    (Program.ofJson? p.toJson = some p ↔ p.InScope .portable) ∧
      (∀ j, Program.ofJson? j = some p → Program.ofJson? p.toJson = some p) ∧
      ∀ f : ClassFile, f.Loaded → f.toProgram = p → p.size ≤ idLimit →
        Program.ofJson? p.toJson = some p := by
  refine ⟨Program.ofJson?_toJson_iff, fun j h =>
    Program.ofJson?_toJson (Program.gives_ofJson? j p h), ?_⟩
  rintro f loaded rfl hsize
  have hids : ∀ id < f.toProgram.size, Scope.portable.node id :=
    fun id hid => Nat.lt_of_lt_of_le hid hsize
  exact Program.ofJson?_toJson
    ((ClassFile.inScope_toProgram TypeDesc.parsed_void hids).mpr loaded.typesIn)

/-- Lists in place of records, a member that is unknown, members that are missing. -/
def sparseJson : Json :=
  .obj
    [("nodes", .arr
      [.obj [("node", .arr [.str "class", .str "Note"]), ("color", .str "red")],
        .arr [.int 0,
          .obj [("type", .str " list< string>"), ("name", .str "tags"), ("node", .str "field")]],
        .arr [.int 0, .obj
          [("node", .str "method"), ("name", .str "pick"), ("return-type", .str "any"),
            ("params", .arr [.arr [.str "key", .str "string"]]),
            ("body", .arr [.obj
              [("stmt", .str "switch"), ("scrutinee", .arr [.int 0, .str "key"]),
                ("cases", .obj
                  [("b", .arr [.arr [.int 1, .obj [("expr", .str "this")]]]),
                    ("a", .arr [.arr [.str "expr", .obj
                      [("expr", .str "call"), ("target", .arr [.int 0, .int 2])]]])]),
                ("default", .arr [])]])]]]),
      ("roots", .arr [.int 0])]

def sparseProgram : Program where
  nodes :=
    [⟨none, .cls { name := "Note" }⟩,
      ⟨some 0, .field { name := "tags", type := .named "list" [.string] }⟩,
      ⟨some 0, .method
        { name := "pick"
          params := [⟨"key", .string⟩]
          returnType := .any
          body := some
            [.switch (.var "key")
              [("b", [.ret .this]), ("a", [.expr (.call none (.member 2) [])])] []] }⟩]
  roots := [0]

/-- A class file with a class and no more. -/
def bareFile : ClassFile where
  classes := [{ name := "Note", supertypes := [.named "Shelf" [.boxed .int64]] }]

theorem sparse_program_survives :
    (Program.ofJson? sparseJson = some sparseProgram ∧
        Program.ofJson? sparseProgram.toJson = some sparseProgram) ∧
      (ClassFile.ofJson? bareFile.toJson = some bareFile ∧
        Program.ofJson? bareFile.toProgram.toJson = some bareFile.toProgram) := by
  have hread : Program.ofJson? sparseJson = some sparseProgram := by cbv
  have hfile : ClassFile.ofJson? bareFile.toJson = some bareFile := by decide +kernel
  refine ⟨⟨hread, (programs_survive_json sparseProgram).2.1 sparseJson hread⟩, hfile, ?_⟩
  exact (programs_survive_json bareFile.toProgram).2.2 bareFile (.inr ⟨_, hfile⟩) rfl (by decide)

end FieldAccess
