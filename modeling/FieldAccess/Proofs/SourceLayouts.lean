import FieldAccess.Proofs.Emission
import Mathlib.Control.Basic

/-! Sources as lines. Lines, each with its depth, are a layout too. A map between layouts that goes
along with how pieces are put together takes sources to sources. So the writer prints the lines of a
class, each with its margin, and comes back to the depth at which it began. -/
namespace FieldAccess.Java

theorem mapM_map {ε α β γ : Type} (f : α → Except ε β) (g : β → γ) (l : List α) :
    (l.mapM fun a => g <$> f a) = List.map g <$> l.mapM f := by
  induction l with
  | nil => rfl
  | cons a l ih => simp [ih]

/-! ### Maps between layouts -/

namespace Layout

variable {D E : Type} {L : Layout D} {M : Layout E} {φ : D → E}

/-- A map that goes along with how pieces are put together. -/
structure Hom (L : Layout D) (M : Layout E) (φ : D → E) : Prop where
  nothing : φ L.nothing = M.nothing
  line (text : String) : φ (L.line text) = M.line text
  blank : φ L.blank = M.blank
  nest (d : D) : φ (L.nest d) = M.nest (φ d)
  append (d e : D) : φ (L.append d e) = M.append (φ d) (φ e)

namespace Hom

variable (hom : Hom L M φ) (p : Program)
include hom

theorem opened (text : String) : φ (L.opened text) = M.opened text := hom.line _

theorem braced (header : String) (inner : D) :
    φ (L.braced header inner) = M.braced header (φ inner) := by
  rw [Layout.braced, hom.append, hom.append, hom.opened, hom.nest, Layout.closed, hom.line]
  rfl

theorem lastBranch (block : Block) (inner : D) :
    φ (L.lastBranch block inner) = M.lastBranch block (φ inner) := by
  rw [Layout.lastBranch, Layout.lastBranch, apply_ite φ, hom.braced, Layout.closed, hom.line]
  rfl

mutual

theorem stmt (s : Stmt) : M.stmt p s = φ <$> L.stmt p s := by
  cases s with
  | expr e => simp only [Layout.stmt, map_bind, map_pure, hom.line]
  | ret value => simp only [Layout.stmt, map_bind, map_pure, hom.line]
  | bind name type value => simp only [Layout.stmt, map_bind, map_pure, hom.line]
  | storeField object field value => simp only [Layout.stmt, map_bind, map_pure, hom.line]
  | throw failure =>
    cases failure with
    | unknownField key => simp only [Layout.stmt, map_bind, map_pure, hom.line]
  | branch cond thenBlock elseBlock =>
    simp only [Layout.stmt, block thenBlock, block elseBlock, map_bind, map_pure, bind_map_left,
      hom.append, hom.opened, hom.nest, hom.lastBranch]
  | switch scrutinee cases default =>
    simp only [Layout.stmt, tests _ _ cases, block default, map_bind, map_pure, bind_map_left,
      apply_ite φ, hom.append, hom.lastBranch]

theorem block (ss : List Stmt) : M.block p ss = φ <$> L.block p ss := by
  cases ss with
  | nil => simp only [Layout.block, map_pure, hom.nothing]
  | cons s ss =>
    simp only [Layout.block, stmt s, block ss, map_bind, map_pure, bind_map_left, hom.append]

theorem tests (key keyword : String) (cases : List (String × List Stmt)) :
    M.tests p key keyword cases = φ <$> L.tests p key keyword cases := by
  match cases with
  | [] => simp only [Layout.tests, map_pure, hom.nothing]
  | (label, body) :: rest =>
    simp only [Layout.tests, block body, tests _ _ rest, map_bind, map_pure, bind_map_left,
      hom.append, hom.opened, hom.nest]

end

theorem annotations (markers : List String) :
    φ (L.annotations markers) = M.annotations markers := by
  induction markers with
  | nil => exact hom.nothing
  | cons m ms ih => rw [Layout.annotations, hom.append, hom.line, ih, Layout.annotations]

theorem field (f : FieldDecl) : φ (L.field f) = M.field f := by
  rw [Layout.field, hom.append, hom.annotations, hom.line, Layout.field]

theorem body (m : MethodDecl) : M.body p m = φ <$> L.body p m := by
  unfold Layout.body
  cases m.body with
  | some body => exact hom.block p body
  | none => exact congrArg Except.ok (hom.line _).symm

theorem method (m : MethodDecl) : M.method p m = φ <$> L.method p m := by
  simp only [Layout.method, hom.body, map_bind, map_pure, bind_map_left, hom.append,
    hom.annotations, hom.braced]

theorem members (ms : List (Bool × D)) :
    φ (L.members ms) = M.members (ms.map (Prod.map id φ)) := by
  induction ms with
  | nil => exact hom.nothing
  | cons m ms ih =>
    cases ms with
    | nil => rfl
    | cons n ns =>
      rw [Layout.members, hom.append, hom.append, apply_ite φ, hom.nothing, hom.blank, ih]
      rfl

theorem cls (fuel : Nat) (host : NodeId) (nested : Bool) :
    M.cls p fuel host nested = φ <$> L.cls p fuel host nested := by
  induction fuel generalizing host nested with
  | zero => rfl
  | succ fuel ih =>
    cases hc : p.expectClass host with
    | error e =>
      rw [Layout.cls, Layout.cls, hc]
      rfl
    | ok c =>
      have hclass := Program.expectClass_eq_ok_iff.mp hc
      have hmember : M.member p fuel = fun x => Prod.map id φ <$> L.member p fuel x := by
        funext x
        obtain ⟨k, n⟩ := x
        cases n with
        | field f => exact congrArg (fun d => Except.ok (true, d)) (hom.field f).symm
        | method m => simp [Layout.member, hom.method]
        | cls d => simp [Layout.member, ih]
      rw [M.cls_of_class hclass, L.cls_of_class hclass, hmember, mapM_map]
      -- the rest is the same for both but for the map
      cases (p.members host).mapM (L.member p fuel) with
      | error e => rfl
      | ok inner =>
        refine congrArg Except.ok ?_
        rw [hom.append, hom.annotations, hom.braced, hom.members]

theorem package (name : Option String) : φ (L.package name) = M.package name := by
  cases name with
  | none => exact hom.nothing
  | some name => rw [Layout.package, hom.append, hom.line, hom.blank, Layout.package]

end Hom

end Layout

/-! ### Lines -/

/-- A line of source, with its depth. -/
inductive Line where
  | blank
  | code (depth : Nat) (text : String)
deriving DecidableEq, Repr

namespace Line

/-- The line so many levels deeper; a blank line has no depth. -/
def deeper (levels : Nat) : Line → Line
  | blank => blank
  | code depth text => code (depth + levels) text

def indent : Line → Line := deeper 1

/-- The line with so many spaces a level, without its end. -/
def render (width : Nat) : Line → String
  | blank => ""
  | code depth text => String.ofList (List.replicate (depth * width) ' ') ++ text

theorem deeper_zero (l : Line) : l.deeper 0 = l := by
  cases l <;> rfl

theorem deeper_indent (l : Line) (levels : Nat) :
    l.indent.deeper levels = l.deeper (levels + 1) := by
  cases l with
  | blank => rfl
  | code depth text => rw [indent, deeper, deeper, deeper, Nat.add_assoc, Nat.add_comm 1]

end Line

def indented (lines : List Line) : List Line := lines.map Line.indent

/-- Source text; every line is ended. -/
def render (width : Nat) (lines : List Line) : String :=
  String.join (lines.map fun l => l.render width ++ "\n")

theorem render_append (width : Nat) (ls ms : List Line) :
    render width (ls ++ ms) = render width ls ++ render width ms := by
  rw [render, List.map_append, String.join_append]
  rfl

def Layout.lines : Layout (List Line) where
  nothing := []
  line text := [.code 0 text]
  blank := [.blank]
  nest := indented
  append ls ms := ls ++ ms

theorem annotations_lines (markers : List String) :
    Layout.lines.annotations markers = markers.map fun m => .code 0 ("@" ++ m) := by
  induction markers with
  | nil => rfl
  | cons m ms ih => exact congrArg (Line.code 0 ("@" ++ m) :: ·) ih

/-- The lines of a statement. -/
abbrev stmtLines : Program → Stmt → Except EmitError (List Line) := Layout.lines.stmt

/-- The lines between the braces of a method. -/
abbrev bodyLines : Program → MethodDecl → Except EmitError (List Line) := Layout.lines.body

/-! ### What the writer prints -/

/-- Prints lines below the depth that the writer has, which stays as it is. -/
def Writer.print (ls : List Line) (w : Writer) : Writer :=
  { w with text := w.text ++ render w.width (ls.map (Line.deeper w.depth)) }

namespace Writer

theorem print_nil (w : Writer) : w.print [] = w :=
  congrArg (mk w.width w.depth) String.append_empty

theorem print_line (text : String) (w : Writer) : w.print [.code 0 text] = w.line text := by
  simp [print, line, Line.deeper, render, Line.render]

theorem print_blank (w : Writer) : w.print [.blank] = w.blank := by
  simp [print, blank, Line.deeper, render, Line.render]

/-- Lines of the next level are printed from that level, and then the writer is back. -/
theorem print_indented (ls : List Line) (w : Writer) :
    w.print (indented ls) = (w.indent.print ls).dedent := by
  have hlines : (indented ls).map (Line.deeper w.depth) = ls.map (Line.deeper (w.depth + 1)) := by
    rw [indented, List.map_map]
    exact List.map_congr_left fun l _ => l.deeper_indent w.depth
  rw [print, hlines]
  rfl

theorem print_append (ls ms : List Line) (w : Writer) :
    w.print (ls ++ ms) = (w.print ls).print ms := by
  simp only [print, List.map_append, render_append, String.append_assoc]

/-- A writer that is given the pieces of a source, and goes into its levels and out of them, prints
its lines. -/
theorem hom_print : Layout.lines.Hom Layout.writer (fun ls w => w.print ls) where
  nothing := funext print_nil
  line text := funext (print_line text)
  blank := funext print_blank
  nest ls := funext (print_indented ls)
  append ls ms := funext (print_append ls ms)

theorem text_print (ls : List Line) (width : Nat) :
    (print ls { width := width }).text = render width ls := by
  have hlines : ls.map (Line.deeper 0) = ls := by
    rw [List.map_congr_left fun l _ => l.deeper_zero, List.map_id']
  rw [print, hlines]
  exact String.empty_append

end Writer

theorem emitClass_eq (p : Program) (options : Options) (id : NodeId) :
    emitClass p options id = (do
      let ls ← Layout.lines.cls p (p.size + 1) id false
      return render options.indent (Layout.lines.package options.package ++ ls)) := by
  rw [emitClass, Writer.hom_print.cls, bind_map_left]
  simp only [← Writer.hom_print.package, ← Writer.print_append, Writer.text_print]

theorem emitNested_eq (p : Program) (options : Options) (id : NodeId) :
    emitNested p options id = (do
      let ls ← Layout.lines.cls p (p.size + 1) id true
      return render options.indent ls) := by
  rw [emitNested, Writer.hom_print.cls, bind_map_left]
  simp only [Writer.text_print]

end FieldAccess.Java
