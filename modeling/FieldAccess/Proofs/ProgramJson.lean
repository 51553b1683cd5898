import FieldAccess.Program.Json
import FieldAccess.Proofs.Successes
import FieldAccess.Proofs.TypeTexts

/-! Programs and their JSON. What is read has types that some text stands for and node ids of 32
bits; exactly the programs made of such types and ids are read back from what is written for
them. -/
namespace FieldAccess

/-- The types and node ids that may occur. -/
structure Scope where
  type : TypeDesc → Prop
  node : NodeId → Prop

/-- Types that a text stands for and ids of 32 bits. -/
def Scope.portable : Scope := ⟨TypeDesc.Parsed, (· < idLimit)⟩

def CallTarget.InScope (W : Scope) : CallTarget → Prop
  | .member method => W.node method
  | .sequence _ => True

mutual

def Expr.InScope (W : Scope) : Expr → Prop
  | .var _ => True
  | .this => True
  | .loadField object _ => object.InScope W
  | .call none target args => target.InScope W ∧ Expr.AllInScope W args
  | .call (some receiver) target args =>
    receiver.InScope W ∧ target.InScope W ∧ Expr.AllInScope W args
  | .cast type value => W.type type ∧ value.InScope W
  | .notNull value => value.InScope W

def Expr.AllInScope (W : Scope) : List Expr → Prop
  | [] => True
  | e :: es => e.InScope W ∧ Expr.AllInScope W es

end

mutual

def Stmt.InScope (W : Scope) : Stmt → Prop
  | .expr e => e.InScope W
  | .ret value => value.InScope W
  | .branch cond thenBlock elseBlock =>
    cond.InScope W ∧ Block.InScope W thenBlock ∧ Block.InScope W elseBlock
  | .switch scrutinee cases default =>
    scrutinee.InScope W ∧ Block.CasesInScope W cases ∧ Block.InScope W default
  | .bind _ type value => W.type type ∧ value.InScope W
  | .storeField object _ value => object.InScope W ∧ value.InScope W
  | .throw (.unknownField key) => key.InScope W

def Block.InScope (W : Scope) : List Stmt → Prop
  | [] => True
  | s :: ss => s.InScope W ∧ Block.InScope W ss

def Block.CasesInScope (W : Scope) : List (String × List Stmt) → Prop
  | [] => True
  | (_, body) :: rest => Block.InScope W body ∧ Block.CasesInScope W rest

end

def ClassDecl.InScope (W : Scope) (c : ClassDecl) : Prop :=
  (∀ t ∈ c.supertypes, W.type t) ∧ ∀ id ∈ c.members, W.node id

structure MethodDecl.InScope (W : Scope) (m : MethodDecl) : Prop where
  params : ∀ q ∈ m.params, W.type q.type
  returns : W.type m.returnType
  body : ∀ b, m.body = some b → Block.InScope W b

def Node.InScope (W : Scope) : Node → Prop
  | .cls c => c.InScope W
  | .field f => W.type f.type
  | .method m => m.InScope W

def Entry.InScope (W : Scope) (e : Entry) : Prop :=
  (∀ id, e.parent = some id → W.node id) ∧ e.node.InScope W

/-- All types and node ids of the program, those of the bodies too, are in scope. -/
structure Program.InScope (W : Scope) (p : Program) : Prop where
  nodes : ∀ e ∈ p.nodes, e.InScope W
  roots : ∀ id ∈ p.roots, W.node id

theorem Expr.allInScope_iff {W : Scope} {es : List Expr} :
    Expr.AllInScope W es ↔ ∀ e ∈ es, e.InScope W := by
  induction es with
  | nil => simp [Expr.AllInScope]
  | cons e es ih => simp [Expr.AllInScope, ih]

theorem Block.inScope_iff {W : Scope} {b : List Stmt} :
    Block.InScope W b ↔ ∀ s ∈ b, s.InScope W := by
  induction b with
  | nil => simp [Block.InScope]
  | cons s ss ih => simp [Block.InScope, ih]

theorem Block.casesInScope_iff {W : Scope} {cases : List (String × List Stmt)} :
    Block.CasesInScope W cases ↔ ∀ c ∈ cases, Block.InScope W c.2 := by
  induction cases with
  | nil => simp [Block.CasesInScope]
  | cons c rest ih => simp [Block.CasesInScope, ih]

/-! ### What is written is read back -/

namespace Json

variable {α : Type}

@[simp] theorem case?_obj (cases : Cases) (tag name : String) (place : Place)
    (members : List (String × Json)) :
    case? cases tag place (.obj ((tag, .str name) :: members)) =
      (List.find? (fun c => c.1 == name) cases).map fun c =>
        (c.1, .obj ((tag, .str name) :: members)) := by
  simp only [case?, get?, Assoc.get?, if_true, Option.bind_some, Cases.find?]
  cases List.find? (fun c => c.1 == name) cases <;> rfl

@[simp] theorem record?_obj (keys : List String) (members : List (String × Json)) :
    record? keys (.obj members) = some (.obj members) := rfl

@[simp] theorem field?_head (key : String) (value : Json) (members : List (String × Json))
    (read : Json → Option α) : field? (.obj ((key, value) :: members)) key read = read value := by
  simp [field?, get?, Assoc.get?]

@[simp] theorem field?_tail {other key : String} (h : other ≠ key) (value : Json)
    (members : List (String × Json)) (read : Json → Option α) :
    field? (.obj ((other, value) :: members)) key read = field? (.obj members) key read := by
  simp [field?, get?, Assoc.get?, h]

@[simp] theorem fieldOr_head (key : String) (value : Json) (members : List (String × Json))
    (default : α) (read : Json → Option α) :
    fieldOr (.obj ((key, value) :: members)) key default read = read value := by
  simp [fieldOr, get?, Assoc.get?]

@[simp] theorem fieldOr_tail {other key : String} (h : other ≠ key) (value : Json)
    (members : List (String × Json)) (default : α) (read : Json → Option α) :
    fieldOr (.obj ((other, value) :: members)) key default read =
      fieldOr (.obj members) key default read := by
  simp [fieldOr, get?, Assoc.get?, h]

@[simp] theorem asStr?_str (s : String) : asStr? (.str s) = some s := rfl

@[simp] theorem asBool?_bool (b : Bool) : asBool? (.bool b) = some b := rfl

@[simp] theorem choice?_str (place : Place) (ofName? : String → Option α) (name : String) :
    choice? place ofName? (.str name) = ofName? name := rfl

@[simp] theorem optionOf?_null (read : Json → Option α) : optionOf? read .null = some none := rfl

theorem listOf?_cons {read : Json → Option α} {j : Json} {js : List Json} {a : α} {as : List α}
    (head : read j = some a) (tail : listOf? read (.arr js) = some as) :
    listOf? read (.arr (j :: js)) = some (a :: as) := by
  have htail : js.mapM read = some as := tail
  simp [listOf?, asArr?, head, htail]

/-- A list is read back if its items are. -/
theorem listOf?_map {read : Json → Option α} {write : α → Json} {l : List α}
    (h : ∀ a ∈ l, read (write a) = some a) : listOf? read (.arr (l.map write)) = some l := by
  induction l with
  | nil => rfl
  | cons a l ih =>
    exact listOf?_cons (h a List.mem_cons_self) (ih fun b hb => h b (List.mem_cons_of_mem _ hb))

@[simp] theorem strs?_strs (ss : List String) : strs? (.strs ss) = some ss :=
  listOf?_map fun _ _ => rfl

theorem asIndex?_ofNat {n : Nat} (h : n < idLimit) : asIndex? (.ofNat n) = some n := if_pos h

theorem ids?_ids {ids : List NodeId} (h : ∀ id ∈ ids, id < idLimit) : ids? (.ids ids) = some ids :=
  listOf?_map fun id hid => asIndex?_ofNat (h id hid)

end Json

theorem TypeDesc.ofJson?_toJson {t : TypeDesc} (h : t.Parsed) :
    TypeDesc.ofJson? t.toJson = some t :=
  TypeDesc.parse?_text_iff.mpr h

theorem CallTarget.ofJson?_toJson {target : CallTarget} (h : target.InScope .portable) :
    CallTarget.ofJson? target.toJson = some target := by
  cases target with
  | member method =>
    have hid : Json.asIndex? (.ofNat method) = some method := Json.asIndex?_ofNat h
    simp [CallTarget.ofJson?, CallTarget.toJson, CallTarget.cases, hid]
  | sequence op =>
    cases op <;> simp [CallTarget.ofJson?, CallTarget.toJson, CallTarget.cases, SequenceOp.toJson,
      SequenceOp.ofName?]

namespace Expr

theorem exists_obj (e : Expr) : ∃ members, e.toJson = .obj members := by
  cases e with
  | call receiver target args => cases receiver <;> exact ⟨_, rfl⟩
  | _ => exact ⟨_, rfl⟩

theorem optionOf?_toJson (e : Expr) (read : Json → Option Expr) :
    Json.optionOf? read e.toJson = (read e.toJson).map some := by
  obtain ⟨members, h⟩ := e.exists_obj
  rw [h]
  rfl

mutual

-- The fuel of the reader is the depth of what is read; each member of an object is less deep.
theorem ofJsonWithin?_toJson :
    (e : Expr) → e.InScope .portable → (depth : Nat) → e.toJson.depth ≤ depth →
    ofJsonWithin? depth e.toJson = some e
  | e, _, 0, hd => by
    obtain ⟨members, h⟩ := e.exists_obj
    rw [h, Json.depth] at hd
    omega
  | var name, _, depth + 1, _ => by simp [ofJsonWithin?, toJson, cases]
  | this, _, depth + 1, _ => by simp [ofJsonWithin?, toJson, cases]
  | loadField object field, h, depth + 1, hd => by
    simp only [toJson, Json.depth, Json.depthMembers] at hd
    have ih := ofJsonWithin?_toJson object h depth (by omega)
    simp [ofJsonWithin?, toJson, cases, ih]
  | call none target args, h, depth + 1, hd => by
    simp only [toJson, Json.depth, Json.depthMembers] at hd
    have ih := listOf?_toJsons args h.2 depth (by omega)
    simp [ofJsonWithin?, toJson, cases, CallTarget.ofJson?_toJson h.1, ih]
  | call (some receiver) target args, h, depth + 1, hd => by
    simp only [toJson, Json.depth, Json.depthMembers] at hd
    have ih := ofJsonWithin?_toJson receiver h.1 depth (by omega)
    have ihs := listOf?_toJsons args h.2.2 depth (by omega)
    simp [ofJsonWithin?, toJson, cases, optionOf?_toJson, CallTarget.ofJson?_toJson h.2.1, ih, ihs]
  | cast type value, h, depth + 1, hd => by
    simp only [toJson, Json.depth, Json.depthMembers] at hd
    have ih := ofJsonWithin?_toJson value h.2 depth (by omega)
    simp [ofJsonWithin?, toJson, cases, TypeDesc.ofJson?_toJson h.1, ih]
  | notNull value, h, depth + 1, hd => by
    simp only [toJson, Json.depth, Json.depthMembers] at hd
    have ih := ofJsonWithin?_toJson value h depth (by omega)
    simp [ofJsonWithin?, toJson, cases, ih]

theorem listOf?_toJsons : (es : List Expr) → AllInScope .portable es → (depth : Nat) →
    Json.depthItems (toJsons es) ≤ depth →
    Json.listOf? (ofJsonWithin? depth) (.arr (toJsons es)) = some es
  | [], _, _, _ => rfl
  | e :: es, h, depth, hd => by
    simp only [toJsons, Json.depthItems] at hd
    exact Json.listOf?_cons (ofJsonWithin?_toJson e h.1 depth (by omega))
      (listOf?_toJsons es h.2 depth (by omega))

end

theorem ofJson?_toJson {e : Expr} (h : e.InScope .portable) : ofJson? e.toJson = some e :=
  ofJsonWithin?_toJson e h _ (Nat.le_refl _)

end Expr

theorem Failure.ofJson?_toJson {key : Expr} (h : key.InScope .portable) :
    Failure.ofJson? (Failure.unknownField key).toJson = some (.unknownField key) := by
  simp [Failure.ofJson?, Failure.toJson, Failure.cases, Expr.ofJson?_toJson h]

namespace Stmt

theorem exists_obj (s : Stmt) : ∃ members, s.toJson = .obj members := by
  cases s <;> exact ⟨_, rfl⟩

theorem membersOf?_cons {α : Type} {read : Json → Option α} {label : String} {j : Json}
    {members : List (String × Json)} {a : α} {rest : List (String × α)} (head : read j = some a)
    (tail : membersOf? read (.obj members) = some rest) :
    membersOf? read (.obj ((label, j) :: members)) = some ((label, a) :: rest) := by
  simp only [membersOf?] at tail ⊢
  simp [head, tail]

mutual

theorem ofJsonWithin?_toJson :
    (s : Stmt) → s.InScope .portable → (depth : Nat) → s.toJson.depth ≤ depth →
    (place : Json.Place) → ofJsonWithin? depth place s.toJson = some s
  | s, _, 0, hd, _ => by
    obtain ⟨members, h⟩ := s.exists_obj
    rw [h, Json.depth] at hd
    omega
  | expr e, h, depth + 1, _, place => by
    simp [ofJsonWithin?, toJson, cases, Expr.ofJson?_toJson h]
  | ret value, h, depth + 1, _, place => by
    simp [ofJsonWithin?, toJson, cases, Expr.ofJson?_toJson h]
  | branch cond thenBlock elseBlock, h, depth + 1, hd, place => by
    simp only [toJson, Json.depth, Json.depthMembers] at hd
    have hthen := listOf?_blockJsons thenBlock h.2.1 depth (by omega)
    have helse := listOf?_blockJsons elseBlock h.2.2 depth (by omega)
    simp [ofJsonWithin?, toJson, cases, Expr.ofJson?_toJson h.1, hthen, helse]
  | switch scrutinee cases default, h, depth + 1, hd, place => by
    simp only [toJson, Json.depth, Json.depthMembers] at hd
    have hcases := membersOf?_caseJsons cases h.2.1 depth (by omega)
    have hdefault := listOf?_blockJsons default h.2.2 depth (by omega)
    simp [ofJsonWithin?, toJson, Stmt.cases, Expr.ofJson?_toJson h.1, hcases, hdefault]
  | bind name type value, h, depth + 1, _, place => by
    simp [ofJsonWithin?, toJson, cases, TypeDesc.ofJson?_toJson h.1, Expr.ofJson?_toJson h.2]
  | storeField object field value, h, depth + 1, _, place => by
    simp [ofJsonWithin?, toJson, cases, Expr.ofJson?_toJson h.1, Expr.ofJson?_toJson h.2]
  | throw (.unknownField key), h, depth + 1, _, place => by
    simp [ofJsonWithin?, toJson, cases, Failure.ofJson?_toJson h]

theorem listOf?_blockJsons : (b : List Stmt) → Block.InScope .portable b → (depth : Nat) →
    Json.depthItems (blockJsons b) ≤ depth →
    Json.listOf? (ofJsonWithin? depth .tagged) (.arr (blockJsons b)) = some b
  | [], _, _, _ => rfl
  | s :: ss, h, depth, hd => by
    simp only [blockJsons, Json.depthItems] at hd
    exact Json.listOf?_cons (ofJsonWithin?_toJson s h.1 depth (by omega) .tagged)
      (listOf?_blockJsons ss h.2 depth (by omega))

/-- The cases of a switch come back in order. -/
theorem membersOf?_caseJsons : (cs : List (String × List Stmt)) → Block.CasesInScope .portable cs →
    (depth : Nat) → Json.depthMembers (caseJsons cs) ≤ depth →
    membersOf? (Json.listOf? (ofJsonWithin? depth .tagged)) (.obj (caseJsons cs)) = some cs
  | [], _, _, _ => rfl
  | (label, body) :: rest, h, depth, hd => by
    simp only [caseJsons, Json.depthMembers, Json.depth] at hd
    exact membersOf?_cons (listOf?_blockJsons body h.1 depth (by omega))
      (membersOf?_caseJsons rest h.2 depth (by omega))

end

theorem ofJson?_toJson {s : Stmt} (h : s.InScope .portable) (place : Json.Place) :
    ofJson? place s.toJson = some s :=
  ofJsonWithin?_toJson s h _ (Nat.le_refl _) place

theorem blockJsons_eq_map (b : List Stmt) : blockJsons b = b.map toJson := by
  induction b with
  | nil => rfl
  | cons s ss ih => rw [blockJsons, ih, List.map_cons]

end Stmt

theorem Origin.ofName?_name (o : Origin) : Origin.ofName? o.name = some o := by
  cases o <;> rfl

theorem Param.ofJson?_toJson {q : Param} (h : q.type.Parsed) : Param.ofJson? q.toJson = some q := by
  simp [Param.ofJson?, Param.toJson, TypeDesc.ofJson?_toJson h]

theorem MethodDecl.body_ofJson? {m : MethodDecl} (h : m.InScope .portable) (place : Json.Place) :
    Json.optionOf? (Json.listOf? (Stmt.ofJson? place))
      (.ofOption (fun b => .arr (Stmt.blockJsons b)) m.body) = some m.body := by
  cases hb : m.body with
  | none => rfl
  | some b =>
    have hread : Json.listOf? (Stmt.ofJson? place) (.arr (Stmt.blockJsons b)) = some b := by
      rw [Stmt.blockJsons_eq_map]
      exact Json.listOf?_map fun s hs =>
        Stmt.ofJson?_toJson (Block.inScope_iff.mp (h.body b hb) s hs) place
    exact congrArg (Option.map some) hread

theorem Node.ofJson?_toJson {n : Node} (h : n.InScope .portable) :
    Node.ofJson? n.toJson = some n := by
  cases n with
  | cls c =>
    have hsuper := Json.listOf?_map fun t ht => TypeDesc.ofJson?_toJson (h.1 t ht)
    simp [Node.ofJson?, Node.toJson, Node.cases, ClassDecl.ofJson?, ClassDecl.jsonMembers, hsuper,
      Origin.ofName?_name, Json.ids?_ids h.2]
  | field f =>
    simp [Node.ofJson?, Node.toJson, Node.cases, FieldDecl.ofJson?, FieldDecl.jsonMembers,
      TypeDesc.ofJson?_toJson h]
  | method m =>
    have hparams := Json.listOf?_map fun q hq => Param.ofJson?_toJson (h.params q hq)
    simp [Node.ofJson?, Node.toJson, Node.cases, MethodDecl.ofJson?,
      MethodDecl.jsonMembers, hparams, TypeDesc.ofJson?_toJson h.returns, MethodDecl.body_ofJson? h]

theorem Entry.ofJson?_toJson {e : Entry} (h : e.InScope .portable) :
    Entry.ofJson? e.toJson = some e := by
  obtain ⟨parent, node⟩ := e
  obtain ⟨hparent, hnode⟩ := h
  have hread : Json.optionOf? Json.asIndex? (.ofOption .ofNat parent) = some parent := by
    cases parent with
    | none => rfl
    | some id => exact congrArg (Option.map some) (Json.asIndex?_ofNat (hparent id rfl))
  simp [Entry.ofJson?, Entry.toJson, hread, Node.ofJson?_toJson hnode]

/-- What is written for a program whose types and ids are portable is read as that program. -/
theorem Program.ofJson?_toJson {p : Program} (h : p.InScope .portable) :
    Program.ofJson? p.toJson = some p := by
  have hnodes := Json.listOf?_map fun e he => Entry.ofJson?_toJson (h.nodes e he)
  simp [Program.ofJson?, Program.toJson, hnodes, Json.ids?_ids h.roots]

/-! ### What is read is portable -/

namespace Gives

variable {α β : Type} {P : α → Prop} {Q : β → Prop}

theorem none : Gives (none : Option α) P := by
  rintro a ⟨⟩

variable {read : Json → Option α}

theorem field (h : ∀ j, Gives (read j) P) (j : Json) (key : String) : Gives (j.field? key read) P :=
  (any (j.get? key)).bind fun v _ => h v

theorem fieldOr {default : α} (hd : P default) (h : ∀ j, Gives (read j) P) (j : Json)
    (key : String) : Gives (j.fieldOr key default read) P := by
  unfold Json.fieldOr
  split
  · exact .pure hd
  · exact h _

theorem listOf (h : ∀ j, Gives (read j) P) (j : Json) :
    Gives (Json.listOf? read j) (∀ a ∈ ·, P a) :=
  (any j.asArr?).bind fun _ _ => mapM fun j _ => h j

theorem optionOf (h : ∀ j, Gives (read j) P) (j : Json) :
    Gives (Json.optionOf? read j) (fun o => ∀ a, o = Option.some a → P a) := by
  intro o ho a ha
  subst ha
  unfold Json.optionOf? at ho
  split at ho
  · cases ho
  · obtain ⟨b, hb, heq⟩ := Option.map_eq_some_iff.mp ho
    cases heq
    exact h j a hb

theorem membersOf (h : ∀ j, Gives (read j) P) (j : Json) :
    Gives (Stmt.membersOf? read j) (∀ m ∈ ·, P m.2) := by
  unfold Stmt.membersOf?
  split
  · refine mapM fun m _ => ?_
    intro b hb
    obtain ⟨a, ha, rfl⟩ := Option.map_eq_some_iff.mp hb
    exact h m.2 a ha
  · exact .none

end Gives

theorem Json.gives_asIndex? (j : Json) : Gives j.asIndex? (· < idLimit) := by
  intro id h
  unfold asIndex? at h
  split at h
  · split at h
    · cases h
      assumption
    · cases h
  · cases h

theorem Json.gives_ids? : (j : Json) → Gives (ids? j) (∀ id ∈ ·, id < idLimit) :=
  Gives.listOf Json.gives_asIndex?

theorem TypeDesc.gives_ofJson? (j : Json) : Gives (TypeDesc.ofJson? j) TypeDesc.Parsed :=
  (Gives.any j.asStr?).bind fun s _ _ ht => ⟨s, ht⟩

theorem CallTarget.gives_ofJson? (j : Json) : Gives (CallTarget.ofJson? j) (InScope .portable) := by
  refine (Gives.any _).bind fun ⟨kind, r⟩ _ => ?_
  dsimp only
  split
  · exact (Gives.field Json.gives_asIndex? r _).bind fun id hid => .pure hid
  · exact (Gives.any _).bind fun op _ => .pure trivial

theorem Expr.gives_ofJsonWithin? (depth : Nat) (j : Json) :
    Gives (Expr.ofJsonWithin? depth j) (InScope .portable) := by
  induction depth generalizing j with
  | zero => exact .none
  | succ depth ih =>
    rw [ofJsonWithin?]
    refine (Gives.any _).bind fun ⟨kind, r⟩ _ => ?_
    dsimp only
    split
    · exact (Gives.any _).bind fun name _ => .pure trivial
    split
    · exact .pure trivial
    split
    · exact (Gives.field ih r _).bind fun object ho => (Gives.any _).bind fun field _ => .pure ho
    split
    · refine (Gives.fieldOr (by simp) (Gives.optionOf ih) r _).bind fun receiver hr => ?_
      refine (Gives.field CallTarget.gives_ofJson? r _).bind fun target ht => ?_
      refine (Gives.fieldOr (by simp) (Gives.listOf ih) r _).bind fun args hargs => .pure ?_
      cases receiver with
      | none => exact ⟨ht, allInScope_iff.mpr hargs⟩
      | some receiver => exact ⟨hr receiver rfl, ht, allInScope_iff.mpr hargs⟩
    split
    · exact (Gives.field TypeDesc.gives_ofJson? r _).bind fun type ht =>
        (Gives.field ih r _).bind fun value hv => .pure ⟨ht, hv⟩
    · exact (Gives.field ih r _).bind fun value hv => .pure hv

theorem Expr.gives_ofJson? (j : Json) : Gives (Expr.ofJson? j) (InScope .portable) :=
  Expr.gives_ofJsonWithin? j.depth j

theorem Failure.gives_ofJson? (j : Json) :
    Gives (Failure.ofJson? j) (fun f => Stmt.InScope .portable (.throw f)) :=
  (Gives.any _).bind fun ⟨_, r⟩ _ =>
    (Gives.field Expr.gives_ofJson? r _).bind fun _ hkey => .pure hkey

theorem Stmt.gives_ofJsonWithin? (depth : Nat) (place : Json.Place) (j : Json) :
    Gives (Stmt.ofJsonWithin? depth place j) (InScope .portable) := by
  induction depth generalizing place j with
  | zero => exact .none
  | succ depth ih =>
    have block :
        ∀ j, Gives (Json.listOf? (ofJsonWithin? depth .tagged) j) (Block.InScope .portable) :=
      fun j b hb => Block.inScope_iff.mpr (Gives.listOf (ih .tagged) j b hb)
    have expr := fun r key => Gives.field Expr.gives_ofJson? r key
    rw [ofJsonWithin?]
    refine (Gives.any _).bind fun ⟨kind, r⟩ _ => ?_
    dsimp only
    split
    · exact (expr r _).bind fun e he => .pure he
    split
    · exact (expr r _).bind fun value hv => .pure hv
    split
    · exact (expr r _).bind fun cond hc => (Gives.field block r _).bind fun thenBlock ht =>
        (Gives.fieldOr trivial block r _).bind fun elseBlock he => .pure ⟨hc, ht, he⟩
    split
    · exact (expr r _).bind fun scrutinee hs =>
        (Gives.field (Gives.membersOf block) r _).bind fun cases hc =>
          (Gives.field block r _).bind fun default hd =>
            .pure ⟨hs, Block.casesInScope_iff.mpr hc, hd⟩
    split
    · exact (Gives.any _).bind fun name _ =>
        (Gives.field TypeDesc.gives_ofJson? r _).bind fun type ht =>
          (expr r _).bind fun value hv => .pure ⟨ht, hv⟩
    split
    · exact (expr r _).bind fun object ho => (Gives.any _).bind fun field _ =>
        (expr r _).bind fun value hv => .pure ⟨ho, hv⟩
    · exact (Gives.field Failure.gives_ofJson? r _).bind fun failure hf => .pure hf

theorem ClassDecl.gives_ofJson? (place : Json.Place) (j : Json) :
    Gives (ClassDecl.ofJson? place j) (InScope .portable) :=
  (Gives.any _).bind fun r _ => (Gives.any _).bind fun _ _ => (Gives.any _).bind fun _ _ =>
    (Gives.fieldOr (by simp) (Gives.listOf TypeDesc.gives_ofJson?) r _).bind fun _ hsuper =>
      (Gives.any _).bind fun _ _ => (Gives.any _).bind fun _ _ =>
        (Gives.fieldOr (by simp) Json.gives_ids? r _).bind fun _ hids => .pure ⟨hsuper, hids⟩

theorem FieldDecl.gives_ofJson? (j : Json) : Gives (FieldDecl.ofJson? j) (fun f => f.type.Parsed) :=
  (Gives.any _).bind fun r _ => (Gives.any _).bind fun _ _ =>
    (Gives.field TypeDesc.gives_ofJson? r _).bind fun _ ht => (Gives.any _).bind fun _ _ => .pure ht

theorem Param.gives_ofJson? (j : Json) : Gives (Param.ofJson? j) (fun q => q.type.Parsed) :=
  (Gives.any _).bind fun r _ => (Gives.any _).bind fun _ _ =>
    (Gives.field TypeDesc.gives_ofJson? r _).bind fun _ ht => .pure ht

theorem MethodDecl.gives_ofJson? (place : Json.Place) (j : Json) :
    Gives (MethodDecl.ofJson? place j) (InScope .portable) := by
  have block : ∀ j, Gives (Json.listOf? (Stmt.ofJson? place) j) (Block.InScope .portable) :=
    fun j b hb => Block.inScope_iff.mpr
      (Gives.listOf (fun j => Stmt.gives_ofJsonWithin? j.depth place j) j b hb)
  refine (Gives.any _).bind fun r _ => (Gives.any _).bind fun _ _ =>
    (Gives.any _).bind fun _ _ => ?_
  refine (Gives.fieldOr (by simp) (Gives.listOf Param.gives_ofJson?) r _).bind fun _ hparams => ?_
  refine (Gives.field TypeDesc.gives_ofJson? r _).bind fun _ hreturns => ?_
  refine (Gives.fieldOr (by simp) (Gives.optionOf block) r _).bind fun _ hbody => ?_
  exact (Gives.any _).bind fun _ _ => .pure ⟨hparams, hreturns, hbody⟩

theorem Node.gives_ofJson? (j : Json) : Gives (Node.ofJson? j) (InScope .portable) := by
  refine (Gives.any _).bind fun ⟨kind, r⟩ _ => ?_
  dsimp only
  split
  · exact (ClassDecl.gives_ofJson? .tagged r).bind fun _ hc => .pure hc
  split
  · exact (FieldDecl.gives_ofJson? r).bind fun _ hf => .pure hf
  · exact (MethodDecl.gives_ofJson? .tagged r).bind fun _ hm => .pure hm

theorem Entry.gives_ofJson? (j : Json) : Gives (Entry.ofJson? j) (InScope .portable) :=
  (Gives.any _).bind fun r _ =>
    (Gives.fieldOr (by simp) (Gives.optionOf Json.gives_asIndex?) r _).bind fun _ hparent =>
      (Gives.field Node.gives_ofJson? r _).bind fun _ hnode => .pure ⟨hparent, hnode⟩

/-- Whatever program is read, its types and ids are portable. -/
theorem Program.gives_ofJson? (j : Json) : Gives (Program.ofJson? j) (InScope .portable) :=
  (Gives.any _).bind fun r _ =>
    (Gives.field (Gives.listOf Entry.gives_ofJson?) r _).bind fun _ hnodes =>
      (Gives.field Json.gives_ids? r _).bind fun _ hroots => .pure ⟨hnodes, hroots⟩

/-- Exactly the portable programs are read back from what is written for them. -/
theorem Program.ofJson?_toJson_iff {p : Program} :
    Program.ofJson? p.toJson = some p ↔ p.InScope .portable :=
  ⟨fun h => Program.gives_ofJson? _ p h, Program.ofJson?_toJson⟩

end FieldAccess
