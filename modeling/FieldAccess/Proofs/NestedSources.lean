import FieldAccess.Proofs.SourceLines

/-! A nested class is written as it stands inside its host: one level to the left and otherwise the
same, line for line. Both texts come from the same lines, since fuel that is left over changes
nothing. -/
namespace FieldAccess

namespace Java

variable {p : Program}

theorem infix_members {members : List (Bool × List Line)} {m : Bool × List Line} (h : m ∈ members) :
    m.2 <:+: Layout.lines.members members := by
  induction members with
  | nil => cases h
  | cons n ns ih =>
    cases ns with
    | nil =>
      rw [List.mem_singleton.mp h]
      exact List.infix_rfl
    | cons n' ns' =>
      rcases List.mem_cons.mp h with rfl | h
      · exact ((List.prefix_append _ _).trans (List.prefix_append _ _)).isInfix
      · exact (ih h).trans (List.suffix_append _ _).isInfix

/-- The lines of a nested class stand, one level deeper, among those of its host. -/
theorem exists_infix_cls {fuel : Nat} {host inner : NodeId} {d : ClassDecl} {nested : Bool}
    {ls : List Line} (h : Layout.lines.cls p (fuel + 1) host nested = .ok ls)
    (member : (inner, .cls d) ∈ p.members host) :
    ∃ ms, Layout.lines.cls p fuel inner true = .ok ms ∧ indented ms <:+: ls := by
  obtain ⟨c, hc⟩ := Layout.class?_of_cls h
  rw [Layout.lines.cls_of_class hc] at h
  obtain ⟨members, hmembers, rfl⟩ := exists_of_map_eq_ok h
  obtain ⟨written, hwritten, hlines⟩ := exists_of_mapM_eq_ok hmembers member
  obtain ⟨ms, hms, hpair⟩ := exists_of_bind_eq_ok hlines
  cases hpair
  refine ⟨ms, hms, ?_⟩
  have hwithin : indented ms <:+: indented (Layout.lines.members members) :=
    (infix_members hwritten).map Line.indent
  refine hwithin.trans ?_
  -- the annotations and the header, the members, the last brace
  refine .trans ?_ (List.suffix_append _ _).isInfix
  exact List.infix_append [Line.code 0 (classHeader c nested ++ " \x7b")] _ _

theorem emitNested_of_cls {fuel : Nat} {id : NodeId} {ls : List Line} (hfuel : fuel ≤ p.size + 1)
    (h : Layout.lines.cls p fuel id true = .ok ls) (options : Options) :
    emitNested p options id = .ok (render options.indent ls) := by
  have hlines : Layout.lines.cls p (p.size + 1) id true = .ok ls := by
    rw [Layout.lines.cls_eq_of_nestedWithin (Layout.nestedWithin_of_cls h) hfuel
      (Nat.le_refl fuel), h]
  rw [emitNested_eq, hlines]
  rfl

theorem plain_package {package : Option String} (h : ∀ name ∈ package, Unbroken name) :
    Plain (Layout.lines.package package) := by
  cases package with
  | none => exact .nil
  | some name =>
    refine .cons ⟨by simp, ?_⟩ (.cons trivial .nil)
    simp +decide [h name rfl]

/-- A class is written from its annotations to its last brace. -/
theorem sourceLines_of_cls (named : ∀ s ∈ p.names, Unbroken s) {fuel : Nat} {id : NodeId}
    {c : ClassDecl} (hc : p.class? id = some c) {nested : Bool} {ls : List Line}
    (h : Layout.lines.cls p fuel id nested = .ok ls) (width : Nat) :
    ∃ body, sourceLines (render width ls) =
      c.annotations.map ("@" ++ ·) ++ (classHeader c nested ++ " \x7b") :: body ++ ["\x7d"] := by
  rw [sourceLines_render (gives_cls named fuel id nested ls h)]
  cases fuel with
  | zero => cases h
  | succ fuel =>
    rw [Layout.lines.cls_of_class hc] at h
    obtain ⟨members, _, rfl⟩ := exists_of_map_eq_ok h
    refine ⟨(indented (Layout.lines.members members)).map (Line.render width), ?_⟩
    have hlines : Layout.lines.append (Layout.lines.annotations c.annotations)
        (Layout.lines.braced (classHeader c nested) (Layout.lines.members members)) =
          c.annotations.map (fun m => .code 0 ("@" ++ m)) ++
            (.code 0 (classHeader c nested ++ " \x7b") ::
              indented (Layout.lines.members members) ++ [.code 0 "\x7d"]) := by
      rw [← annotations_lines]
      rfl
    rw [hlines]
    simp [Line.render]

end Java

open Java

/-- A nested class can be written if its host can, and the lines of its text stand in that of the
host in one piece, each that is not empty so many spaces to the right as a level has. The text is
the whole class. -/
theorem nested_source_within_host {p : Program} (named : ∀ s ∈ p.names, Unbroken s)
    {options : Options} (packaged : ∀ name ∈ options.package, Unbroken name) {host inner : NodeId}
    {d : ClassDecl} (member : (inner, .cls d) ∈ p.members host) {outer : String}
    (written : emitClass p options host = .ok outer) :
    ∃ text, emitNested p options inner = .ok text ∧
      (sourceLines text).map (shifted options.indent) <:+: sourceLines outer ∧
      ∃ body, sourceLines text =
        d.annotations.map ("@" ++ ·) ++ (classHeader d true ++ " \x7b") :: body ++ ["\x7d"] := by
  rw [emitClass_eq] at written
  obtain ⟨ls, hls, houter⟩ := exists_of_bind_eq_ok written
  cases houter
  obtain ⟨ms, hms, hwithin⟩ := exists_infix_cls hls member
  have hplain := gives_cls named _ _ _ ms hms
  refine ⟨render options.indent ms, emitNested_of_cls (Nat.le_succ _) hms options, ?_, ?_⟩
  · have houter : Plain (Layout.lines.package options.package ++ ls) :=
      (plain_package packaged).append (gives_cls named _ _ _ ls hls)
    have hshifted : (ms.map (Line.render options.indent)).map (shifted options.indent) =
        (indented ms).map (Line.render options.indent) := by
      rw [indented, List.map_map, List.map_map]
      exact List.map_congr_left fun l hl => ((hplain l hl).render_indent options.indent).symm
    rw [sourceLines_render hplain, sourceLines_render houter, hshifted]
    exact (hwithin.trans (List.suffix_append _ _).isInfix).map _
  · have hd := Program.class?_eq_some_iff.mpr (Program.node?_of_mem_members member)
    exact sourceLines_of_cls named hd hms options.indent

/-- A class with a nested one, which has a field and its getter. -/
def deskProgram : Program :=
  let desk := (Program.empty.addClass { name := "Desk" }).1
  (desk.attach 0 (.cls { name := "Drawer", annotations := ["Wooden"] })).1.attachAll 1
    [.field { name := "depth", type := .primitive .int32 },
      .method (.getterOf "depth" (.primitive .int32))]

/-- The blank line between the members stays empty. -/
theorem drawer_source_within_desk :
    ∃ outer text, emitClass deskProgram { indent := 4 } 0 = .ok outer ∧
      emitNested deskProgram { indent := 4 } 1 = .ok text ∧
      (sourceLines text).map (shifted 4) <:+: sourceLines outer ∧
      (sourceLines text).map (shifted 4) =
        ["    @Wooden", "    public class Drawer \x7b", "        private int depth;", "",
          "        public int getDepth() \x7b", "            return this.depth;",
          "        \x7d", "    \x7d"] := by
  have named : ∀ s ∈ deskProgram.names, Unbroken s := by decide +kernel
  have member : (1, .cls { name := "Drawer", annotations := ["Wooden"], members := [2, 3] }) ∈
      deskProgram.members 0 := .head _
  obtain ⟨outer, houter⟩ : Succeeds (emitClass deskProgram { indent := 4 } 0) := ⟨_, rfl⟩
  obtain ⟨text, htext, hwithin, _⟩ :=
    nested_source_within_host named (fun _ h => by cases h) member houter
  refine ⟨outer, text, houter, htext, hwithin, ?_⟩
  have hlines : (emitNested deskProgram { indent := 4 } 1).toOption.map
    (fun t => (sourceLines t).map (shifted 4)) =
      some ["    @Wooden", "    public class Drawer \x7b", "        private int depth;", "",
        "        public int getDepth() \x7b", "            return this.depth;",
        "        \x7d", "    \x7d"] := by
    decide +kernel
  rw [htext] at hlines
  exact Option.some.inj hlines

end FieldAccess
