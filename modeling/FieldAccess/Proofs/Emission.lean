import FieldAccess.Java.Source
import FieldAccess.Proofs.Renaming

/-! Source does not show ids. In every layout, a class whose calls all find the method they mean is
written the same under other ids, however large the program around it is. -/
namespace FieldAccess.Java

theorem length_of_argTexts {p : Program} {es : List Expr} {vs : List String}
    (h : argTexts p es = .ok vs) : vs.length = es.length := by
  induction es generalizing vs with
  | nil =>
    cases h
    rfl
  | cons e es ih =>
    rw [argTexts] at h
    cases he : exprText p e with
    | error err => simp [he, bind, Except.bind] at h
    | ok v =>
      cases hes : argTexts p es with
      | error err => simp [he, hes, bind, Except.bind] at h
      | ok rest =>
        obtain rfl : v :: rest = vs := by
          simpa [he, hes, bind, Except.bind, pure, Except.pure] using h
        rw [List.length_cons, List.length_cons, ih hes]

/-- A call is written the same under other ids. -/
def SameTarget (p q : Program) (ρ : NodeId → NodeId) (target : CallTarget) (found : Nat) : Prop :=
  targetName q (target.rename ρ) found = targetName p target found

variable {p q : Program} {ρ : NodeId → NodeId}

theorem SameTarget.of_argTexts {target : CallTarget} {args : List Expr} {vs : List String}
    (h : SameTarget p q ρ target args.length) (hvs : argTexts p args = .ok vs) :
    targetName q (target.rename ρ) vs.length = targetName p target vs.length := by
  rw [length_of_argTexts hvs]
  exact h

mutual

theorem exprText_rename (e : Expr) (h : e.EveryCall (SameTarget p q ρ)) :
    exprText q (e.rename ρ) = exprText p e := by
  cases e with
  | var name => rfl
  | this => rfl
  | loadField object field => rw [Expr.rename, exprText, exprText, exprText_rename object h]
  | cast type value => rw [Expr.rename, exprText, exprText, exprText_rename value h]
  | notNull value => rw [Expr.rename, exprText, exprText, exprText_rename value h]
  | call receiver target args =>
    cases receiver with
    | none =>
      obtain ⟨htarget, hargs⟩ := h
      rw [Expr.rename, exprText, exprText, argTexts_rename args hargs]
      cases hvs : argTexts p args with
      | error err => rfl
      | ok vs => simp only [bind, Except.bind, htarget.of_argTexts hvs]
    | some receiver =>
      obtain ⟨hreceiver, htarget, hargs⟩ := h
      rw [Expr.rename, exprText, exprText, argTexts_rename args hargs,
        exprText_rename receiver hreceiver]
      cases hvs : argTexts p args with
      | error err => rfl
      | ok vs => simp only [bind, Except.bind, htarget.of_argTexts hvs]

theorem argTexts_rename (es : List Expr) (h : Expr.EveryArg (SameTarget p q ρ) es) :
    argTexts q (Expr.renameAll ρ es) = argTexts p es := by
  cases es with
  | nil => rfl
  | cons e es =>
    rw [Expr.renameAll, argTexts, argTexts, exprText_rename e h.1, argTexts_rename es h.2]

end

theorem isEmpty_rename (b : Block) : (Block.rename ρ b).isEmpty = b.isEmpty := by
  cases b <;> rfl

namespace Layout

variable {D : Type} (L : Layout D)

mutual

theorem stmt_rename (s : Stmt) (h : s.EveryCall (SameTarget p q ρ)) :
    L.stmt q (s.rename ρ) = L.stmt p s := by
  cases s with
  | expr e => rw [Stmt.rename, stmt, stmt, exprText_rename e h]
  | ret value => rw [Stmt.rename, stmt, stmt, exprText_rename value h]
  | bind name type value => rw [Stmt.rename, stmt, stmt, exprText_rename value h]
  | storeField object field value =>
    rw [Stmt.rename, stmt, stmt, exprText_rename object h.1, exprText_rename value h.2]
  | throw failure =>
    cases failure with
    | unknownField key => rw [Stmt.rename, stmt, stmt, exprText_rename key h]
  | branch cond thenBlock elseBlock =>
    simp only [Stmt.rename, stmt, exprText_rename cond h.1, block_rename thenBlock h.2.1,
      block_rename elseBlock h.2.2, lastBranch, isEmpty_rename]
  | switch scrutinee cases default =>
    have hempty : (Block.renameCases ρ cases).isEmpty = cases.isEmpty := by
      rw [Block.renameCases_eq_map, List.isEmpty_map]
    simp only [Stmt.rename, stmt, exprText_rename scrutinee h.1, tests_rename cases h.2.1,
      block_rename default h.2.2, lastBranch, isEmpty_rename, hempty]

theorem block_rename (b : List Stmt) (h : Block.EveryCall (SameTarget p q ρ) b) :
    L.block q (Block.rename ρ b) = L.block p b := by
  cases b with
  | nil => rfl
  | cons s ss => rw [Block.rename, block, block, stmt_rename s h.1, block_rename ss h.2]

theorem tests_rename (cases : List (String × List Stmt))
    (h : Block.EveryCase (SameTarget p q ρ) cases) (key keyword : String) :
    L.tests q key keyword (Block.renameCases ρ cases) = L.tests p key keyword cases := by
  cases cases with
  | nil => rfl
  | cons c rest =>
    obtain ⟨label, body⟩ := c
    rw [Block.renameCases, tests, tests, block_rename body h.1, tests_rename rest h.2]

end

theorem method_rename (m : MethodDecl)
    (h : ∀ body, m.body = some body → Block.EveryCall (SameTarget p q ρ) body) :
    L.method q (m.rename ρ) = L.method p m := by
  have hbody : L.body q (m.rename ρ) = L.body p m := by
    obtain ⟨name, isStatic, params, returnType, body, annotations⟩ := m
    cases body with
    | none => rfl
    | some body => exact L.block_rename body (h body rfl)
  rw [method, method, hbody]
  rfl

end Layout

/-! ### Classes -/

/-- Classes nested in a class are at most so many levels deep, the class itself included. -/
def NestedWithin (p : Program) : (levels : Nat) → NodeId → Prop
  | 0, _ => False
  | levels + 1, id => ∀ x ∈ p.members id, x.2.isClass = true → NestedWithin p levels x.1

theorem mapM_congr {ε α β : Type} {f g : α → Except ε β} {l : List α} (h : ∀ a ∈ l, f a = g a) :
    l.mapM f = l.mapM g := by
  induction l with
  | nil => rfl
  | cons a l ih =>
    rw [List.mapM_cons, List.mapM_cons, h a List.mem_cons_self,
      ih fun b hb => h b (List.mem_cons_of_mem _ hb)]

namespace Layout

variable {D : Type} (L : Layout D)

/-- One member, with whether it is a field. -/
def member (p : Program) (fuel : Nat) (x : NodeId × Node) : Except EmitError (Bool × D) := do
  let d ←
    match x.2 with
    | .field f => pure (L.field f)
    | .method d => L.method p d
    | .cls _ => L.cls p fuel x.1 true
  return (x.2.isField, d)

theorem cls_of_class {id : NodeId} {c : ClassDecl} (hc : p.class? id = some c) (fuel : Nat)
    (nested : Bool) :
    L.cls p (fuel + 1) id nested = ((p.members id).mapM (L.member p fuel)).map fun inner =>
      L.append (L.annotations c.annotations)
        (L.braced (classHeader c nested) (L.members inner)) := by
  rw [cls, Program.expectClass_eq_ok_iff.mpr hc]
  rfl

end Layout

variable {S : Set NodeId} (renames : p.Renames q ρ S)
include renames

theorem sameTarget_of_mem {id : NodeId} (hid : id ∈ S) {m : MethodDecl} (hm : p.method? id = some m)
    (found : Nat) : SameTarget p q ρ (.member id) found := by
  have hq : q.method? (ρ id) = some (m.rename ρ) := by
    rw [Program.method?_eq_some_iff] at hm ⊢
    rw [renames.node?_eq hid, hm]
    rfl
  simp only [SameTarget, CallTarget.rename, targetName, hm, hq]
  rfl

theorem Layout.method_renames {D : Type} (L : Layout D) {id : NodeId} (hid : id ∈ S)
    {m : MethodDecl} (hm : p.node? id = some (.method m)) :
    L.method q (m.rename ρ) = L.method p m := by
  obtain ⟨n, hn, _, within⟩ := renames.node id hid
  obtain rfl : n = .method m := Option.some.inj (hn.symm.trans hm)
  refine L.method_rename m fun body hbody => ?_
  refine Block.EveryCall.mono ?_ body (within body hbody)
  intro target found htarget
  cases target with
  | member k =>
    obtain ⟨hk, d, hd⟩ := htarget k rfl
    exact sameTarget_of_mem renames hk hd found
  | sequence op => rfl

/-- With fuel for its levels, a class is written the same under other ids. -/
theorem Layout.cls_renames {D : Type} (L : Layout D) {levels : Nat} {id : NodeId} (hid : id ∈ S)
    {c : ClassDecl} (hc : p.class? id = some c) (depth : NestedWithin p levels id)
    {fuel fuel' : Nat} (hfuel : levels ≤ fuel) (hfuel' : levels ≤ fuel') (nested : Bool) :
    L.cls q fuel' (ρ id) nested = L.cls p fuel id nested := by
  induction levels generalizing id c fuel fuel' nested with
  | zero => exact depth.elim
  | succ levels ih =>
    obtain ⟨fuel, rfl⟩ := Nat.exists_eq_add_of_le' (show 1 ≤ fuel by omega)
    obtain ⟨fuel', rfl⟩ := Nat.exists_eq_add_of_le' (show 1 ≤ fuel' by omega)
    have hmember : ∀ x ∈ p.members id,
        L.member q fuel' (ρ x.1, x.2.rename ρ) = L.member p fuel x := by
      rintro ⟨m, n⟩ hx
      obtain ⟨hm, hn⟩ := renames.of_mem_members hid hc hx
      cases n with
      | field f => rfl
      | method d =>
        simp only [member, Node.rename, method_renames renames L hm hn]
        rfl
      | cls d =>
        have hinner := ih hm (Program.class?_eq_some_iff.mpr hn) (depth _ hx rfl)
          (show levels ≤ fuel by omega) (show levels ≤ fuel' by omega) true
        simp only [member, Node.rename, hinner]
        rfl
    have hmembers : (q.members (ρ id)).mapM (L.member q fuel') =
        (p.members id).mapM (L.member p fuel) := by
      rw [renames.members_eq hid hc, List.mapM_map]
      exact mapM_congr hmember
    rw [L.cls_of_class (renames.class?_eq hid hc), L.cls_of_class hc, hmembers]
    rfl

/-- Also where the programs differ in size. -/
theorem emitClass_renames {id : NodeId} (hid : id ∈ S) {c : ClassDecl} (hc : p.class? id = some c)
    {levels : Nat} (depth : NestedWithin p levels id) (hp : levels ≤ p.size + 1)
    (hq : levels ≤ q.size + 1) (options : Options) :
    emitClass q options (ρ id) = emitClass p options id := by
  rw [emitClass, emitClass, Layout.writer.cls_renames renames hid hc depth hp hq]

end FieldAccess.Java
