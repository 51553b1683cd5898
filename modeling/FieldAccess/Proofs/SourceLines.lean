import FieldAccess.Proofs.SourceLayouts
import FieldAccess.Proofs.SourceTexts
import FieldAccess.Proofs.StringLiterals

/-! The lines of a source, read back from its text. They are told by their ends, so no name of the
program may contain one; labels and messages are escaped and may. Every line is written in one
piece, and is empty only where a blank one is meant. -/
namespace FieldAccess

/-! ### Names -/

/-- Without a line end. -/
def Unbroken (s : String) : Prop := '\n' ∉ s.toList

instance (s : String) : Decidable (Unbroken s) := inferInstanceAs (Decidable ('\n' ∉ s.toList))

mutual

def TypeDesc.names : TypeDesc → List String
  | .void => []
  | .any => []
  | .primitive _ => []
  | .boxed _ => []
  | .named name args => name :: TypeDesc.argNames args

def TypeDesc.argNames : List TypeDesc → List String
  | [] => []
  | t :: ts => t.names ++ TypeDesc.argNames ts

end

mutual

def Expr.names : Expr → List String
  | .var name => [name]
  | .this => []
  | .loadField object field => field :: object.names
  | .cast type value => type.names ++ value.names
  | .notNull value => value.names
  | .call none _ args => Expr.argNames args
  | .call (some receiver) _ args => receiver.names ++ Expr.argNames args

def Expr.argNames : List Expr → List String
  | [] => []
  | e :: es => e.names ++ Expr.argNames es

end

mutual

def Stmt.names : Stmt → List String
  | .expr e => e.names
  | .ret value => value.names
  | .branch cond thenBlock elseBlock =>
    cond.names ++ (Block.names thenBlock ++ Block.names elseBlock)
  | .switch scrutinee cases default =>
    scrutinee.names ++ (Block.caseNames cases ++ Block.names default)
  | .bind name type value => name :: (type.names ++ value.names)
  | .storeField object field value => field :: (object.names ++ value.names)
  | .throw (.unknownField key) => key.names

def Block.names : List Stmt → List String
  | [] => []
  | s :: ss => s.names ++ Block.names ss

/-- The names in the blocks; labels are texts. -/
def Block.caseNames : List (String × List Stmt) → List String
  | [] => []
  | (_, body) :: rest => Block.names body ++ Block.caseNames rest

end

def Param.names (q : Param) : List String := q.name :: q.type.names

def ClassDecl.names (c : ClassDecl) : List String :=
  c.name :: (c.annotations ++ c.supertypes.flatMap TypeDesc.names)

def FieldDecl.names (f : FieldDecl) : List String := f.name :: (f.annotations ++ f.type.names)

def MethodDecl.names (m : MethodDecl) : List String :=
  m.name :: (m.annotations ++
    (m.params.flatMap Param.names ++ (m.returnType.names ++ Block.names (m.body.getD []))))

/-- All names in a declaration, its annotations among them. -/
def Node.names : Node → List String
  | .cls c => c.names
  | .field f => f.names
  | .method m => m.names

def Program.names (p : Program) : List String := p.nodes.flatMap fun e => e.node.names

theorem Program.names_of_node? {p : Program} (named : ∀ s ∈ p.names, Unbroken s)
    {id : NodeId} {n : Node} (h : p.node? id = some n) : ∀ s ∈ n.names, Unbroken s := by
  obtain ⟨e, he, rfl⟩ := node?_eq_some_iff.mp h
  exact fun s hs => named s (List.mem_flatMap.mpr ⟨e, List.mem_of_getElem? he, hs⟩)

/-! ### Texts without line ends -/

@[simp] theorem unbroken_append {a b : String} : Unbroken (a ++ b) ↔ Unbroken a ∧ Unbroken b := by
  simp [Unbroken]

theorem unbroken_intercalate {vs : List String} (h : ∀ v ∈ vs, Unbroken v) :
    Unbroken (String.intercalate ", " vs) := by
  induction vs with
  | nil => decide
  | cons v vs ih =>
    obtain ⟨hv, hvs⟩ := List.forall_mem_cons.mp h
    cases vs with
    | nil => exact String.intercalate_singleton ▸ hv
    | cons w ws =>
      rw [String.intercalate_cons_cons, unbroken_append, unbroken_append]
      exact ⟨⟨hv, by decide⟩, ih hvs⟩

namespace Java

theorem unbroken_identifier {name : String} (h : Unbroken name) : Unbroken (identifier name) := by
  unfold identifier
  split
  · exact unbroken_append.mpr ⟨h, by decide⟩
  · exact h

theorem unbroken_escape (s : String) : Unbroken (escape s) :=
  fun h => (not_control_of_mem_escape h).1 rfl

theorem unbroken_baseName {name : String} (h : Unbroken name) : Unbroken (baseName name) := by
  unfold baseName
  split
  · decide
  · split
    · decide
    · exact h

theorem unbroken_primitiveName (p : Primitive) : Unbroken (primitiveName p) := by
  cases p <;> decide

theorem unbroken_boxText (p : Primitive) : Unbroken (boxText p) := by
  cases p <;> decide

mutual

theorem unbroken_argText (t : TypeDesc) (h : ∀ s ∈ t.names, Unbroken s) : Unbroken (argText t) := by
  cases t with
  | void => decide
  | any => decide
  | primitive p => exact unbroken_boxText p
  | boxed p => exact unbroken_boxText p
  | named name args =>
    obtain ⟨hname, hargs⟩ := List.forall_mem_cons.mp h
    cases args with
    | nil => exact unbroken_baseName hname
    | cons a as =>
      obtain ⟨ha, has⟩ := List.forall_mem_append.mp hargs
      simp +decide [argText, unbroken_baseName hname, unbroken_argText a ha,
        unbroken_argsText as has]

theorem unbroken_argsText (ts : List TypeDesc) (h : ∀ s ∈ TypeDesc.argNames ts, Unbroken s) :
    Unbroken (argsText ts) := by
  cases ts with
  | nil => decide
  | cons t ts =>
    obtain ⟨ht, hts⟩ := List.forall_mem_append.mp h
    simp +decide [argsText, unbroken_argText t ht, unbroken_argsText ts hts]

end

/-- A type differs from an argument only where it is primitive. -/
theorem unbroken_typeText (t : TypeDesc) (h : ∀ s ∈ t.names, Unbroken s) :
    Unbroken (typeText t) := by
  cases t with
  | primitive p => exact unbroken_primitiveName p
  | named name args =>
    have harg := unbroken_argText (.named name args) h
    cases args with
    | nil => exact harg
    | cons a as => exact harg
  | void => decide
  | any => decide
  | boxed p => exact unbroken_boxText p

variable {p : Program}

theorem gives_targetName (named : ∀ s ∈ p.names, Unbroken s) (target : CallTarget) (found : Nat) :
    Gives (targetName p target found) Unbroken := by
  intro name (h : targetName p target found = .ok name)
  unfold targetName at h
  cases target with
  | member id =>
    cases hm : p.method? id with
    | none => simp [hm] at h
    | some m =>
      simp only [hm, Except.ok.injEq] at h
      have hnames := Program.names_of_node? named (Program.method?_eq_some_iff.mp hm)
      exact h ▸ hnames m.name List.mem_cons_self
  | sequence op =>
    by_cases harity : found = op.arity
    · simp only [harity, if_true, Except.ok.injEq] at h
      subst h
      cases op <;> decide
    · simp [harity] at h

mutual

theorem gives_exprText (named : ∀ s ∈ p.names, Unbroken s) (e : Expr)
    (h : ∀ s ∈ e.names, Unbroken s) : Gives (exprText p e) Unbroken := by
  cases e with
  | var name => exact .pure (unbroken_identifier (h name List.mem_cons_self))
  | this => exact .pure (by decide)
  | loadField object field =>
    obtain ⟨hfield, hobject⟩ := List.forall_mem_cons.mp h
    refine (gives_exprText named object hobject).bind fun o ho => .pure ?_
    simp +decide [ho, unbroken_identifier hfield]
  | cast type value =>
    obtain ⟨htype, hvalue⟩ := List.forall_mem_append.mp h
    refine (gives_exprText named value hvalue).bind fun v hv => .pure ?_
    simp +decide [unbroken_typeText type htype, hv]
  | notNull value =>
    refine (gives_exprText named value h).bind fun v hv => .pure ?_
    exact unbroken_append.mpr ⟨hv, by decide⟩
  | call receiver target args =>
    cases receiver with
    | none =>
      refine (gives_argTexts named args h).bind fun vs hvs => ?_
      refine (gives_targetName named target vs.length).bind fun name hname => .pure ?_
      simp +decide [hname, unbroken_intercalate hvs]
    | some receiver =>
      obtain ⟨hreceiver, hargs⟩ := List.forall_mem_append.mp h
      refine (gives_argTexts named args hargs).bind fun vs hvs => ?_
      refine (gives_targetName named target vs.length).bind fun name hname => ?_
      refine (gives_exprText named receiver hreceiver).bind fun r hr => .pure ?_
      simp +decide [hr, hname, unbroken_intercalate hvs]

theorem gives_argTexts (named : ∀ s ∈ p.names, Unbroken s) (es : List Expr)
    (h : ∀ s ∈ Expr.argNames es, Unbroken s) : Gives (argTexts p es) (∀ v ∈ ·, Unbroken v) := by
  cases es with
  | nil => exact .pure fun _ hv => absurd hv List.not_mem_nil
  | cons e es =>
    obtain ⟨he, hes⟩ := List.forall_mem_append.mp h
    refine (gives_exprText named e he).bind fun v hv => ?_
    exact (gives_argTexts named es hes).bind fun vs hvs =>
      .pure (List.forall_mem_cons.mpr ⟨hv, hvs⟩)

end

/-! ### Lines -/

/-- A line that its text shows: one without an end in it, and empty only if blank. -/
def Line.Plain : Line → Prop
  | .blank => True
  | .code _ text => text ≠ "" ∧ Unbroken text

/-- Lines that a text shows. -/
def Plain (lines : List Line) : Prop := ∀ l ∈ lines, l.Plain

namespace Plain

variable {ls ms : List Line}

theorem nil : Plain [] := fun _ hl => absurd hl List.not_mem_nil

theorem cons {l : Line} (hl : l.Plain) (hls : Plain ls) : Plain (l :: ls) :=
  List.forall_mem_cons.mpr ⟨hl, hls⟩

theorem single {text : String} (hne : text ≠ "") (h : Unbroken text) : Plain [.code 0 text] :=
  .cons ⟨hne, h⟩ .nil

theorem append (hls : Plain ls) (hms : Plain ms) : Plain (ls ++ ms) :=
  List.forall_mem_append.mpr ⟨hls, hms⟩

theorem indented (h : Plain ls) : Plain (indented ls) := by
  refine List.forall_mem_map.mpr fun l hl => ?_
  have hplain := h l hl
  cases l with
  | blank => trivial
  | code depth text => exact hplain

/-- Lines between braces. -/
theorem block {text : String} (h : Unbroken text) (hls : Plain ls) :
    Plain (Layout.lines.braced text ls) := by
  refine .append (.cons ⟨by simp, unbroken_append.mpr ⟨h, by decide⟩⟩ hls.indented) ?_
  exact .single (by decide) (by decide)

end Plain

theorem plain_lastBranch {block : Block} {ls : List Line} (h : Plain ls) :
    Plain (Layout.lines.lastBranch block ls) := by
  unfold Layout.lastBranch
  split
  · exact .single (by decide) (by decide)
  · exact .block (by decide) h

mutual

theorem gives_stmt (named : ∀ s ∈ p.names, Unbroken s) (s : Stmt) (h : ∀ n ∈ s.names, Unbroken n) :
    Gives (stmtLines p s) Plain := by
  cases s with
  | expr e =>
    refine (gives_exprText named e h).bind fun v hv => .pure (.single (by simp) ?_)
    exact unbroken_append.mpr ⟨hv, by decide⟩
  | ret value =>
    refine (gives_exprText named value h).bind fun v hv => .pure (.single (by simp) ?_)
    simp +decide [hv]
  | bind name type value =>
    obtain ⟨hname, h⟩ := List.forall_mem_cons.mp h
    obtain ⟨htype, hvalue⟩ := List.forall_mem_append.mp h
    refine (gives_exprText named value hvalue).bind fun v hv => .pure (.single (by simp) ?_)
    simp +decide [unbroken_typeText type htype, unbroken_identifier hname, hv]
  | storeField object field value =>
    obtain ⟨hfield, h⟩ := List.forall_mem_cons.mp h
    obtain ⟨hobject, hvalue⟩ := List.forall_mem_append.mp h
    refine (gives_exprText named object hobject).bind fun o ho => ?_
    refine (gives_exprText named value hvalue).bind fun v hv => .pure (.single (by simp) ?_)
    simp +decide [ho, unbroken_identifier hfield, hv]
  | throw failure =>
    cases failure with
    | unknownField key =>
      refine (gives_exprText named key h).bind fun v hv => .pure (.single (by simp) ?_)
      simp +decide [hv]
  | branch cond thenBlock elseBlock =>
    obtain ⟨hcond, h⟩ := List.forall_mem_append.mp h
    obtain ⟨hthen, helse⟩ := List.forall_mem_append.mp h
    refine (gives_exprText named cond hcond).bind fun c hc => ?_
    refine (gives_block named thenBlock hthen).bind fun yes hyes => ?_
    refine (gives_block named elseBlock helse).bind fun no hno => .pure ?_
    refine .append (.cons ⟨by simp, ?_⟩ hyes.indented) (plain_lastBranch hno)
    simp +decide [hc]
  | switch scrutinee cases default =>
    obtain ⟨hkey, h⟩ := List.forall_mem_append.mp h
    obtain ⟨hcases, hdefault⟩ := List.forall_mem_append.mp h
    refine (gives_exprText named scrutinee hkey).bind fun key hk => ?_
    refine (gives_tests named cases hcases hk (by decide)).bind fun chain hchain => ?_
    refine (gives_block named default hdefault).bind fun last hlast => .pure ?_
    split
    · exact hlast
    · exact hchain.append (plain_lastBranch hlast)

theorem gives_block (named : ∀ s ∈ p.names, Unbroken s) (b : List Stmt)
    (h : ∀ n ∈ Block.names b, Unbroken n) : Gives (Layout.lines.block p b) Plain := by
  cases b with
  | nil => exact .pure .nil
  | cons s ss =>
    obtain ⟨hs, hss⟩ := List.forall_mem_append.mp h
    refine (gives_stmt named s hs).bind fun ls hls => ?_
    exact (gives_block named ss hss).bind fun rest hrest => .pure (hls.append hrest)

theorem gives_tests (named : ∀ s ∈ p.names, Unbroken s) (cases : List (String × List Stmt))
    (h : ∀ n ∈ Block.caseNames cases, Unbroken n) {key keyword : String} (hkey : Unbroken key)
    (hkeyword : Unbroken keyword) : Gives (Layout.lines.tests p key keyword cases) Plain := by
  cases cases with
  | nil => exact .pure .nil
  | cons x rest =>
    obtain ⟨label, body⟩ := x
    obtain ⟨hbody, hrest⟩ := List.forall_mem_append.mp h
    refine (gives_block named body hbody).bind fun ls hls => ?_
    refine (gives_tests named rest hrest hkey (by decide)).bind fun more hmore => .pure ?_
    refine .append (.cons ⟨by simp, ?_⟩ hls.indented) hmore
    simp +decide [hkeyword, unbroken_escape label, hkey]

end

theorem plain_annotations {markers : List String} (h : ∀ m ∈ markers, Unbroken m) :
    Plain (Layout.lines.annotations markers) := by
  rw [annotations_lines]
  refine List.forall_mem_map.mpr fun m hm => ⟨by simp, ?_⟩
  exact unbroken_append.mpr ⟨by decide, h m hm⟩

theorem plain_field {f : FieldDecl} (h : ∀ s ∈ f.names, Unbroken s) :
    Plain (Layout.lines.field f) := by
  obtain ⟨hname, h⟩ := List.forall_mem_cons.mp h
  obtain ⟨hmarkers, htype⟩ := List.forall_mem_append.mp h
  refine (plain_annotations hmarkers).append (.single (by simp) ?_)
  simp +decide [unbroken_typeText _ htype, unbroken_identifier hname]

theorem gives_method (named : ∀ s ∈ p.names, Unbroken s) {m : MethodDecl}
    (h : ∀ s ∈ m.names, Unbroken s) : Gives (Layout.lines.method p m) Plain := by
  obtain ⟨hname, h⟩ := List.forall_mem_cons.mp h
  obtain ⟨hmarkers, h⟩ := List.forall_mem_append.mp h
  obtain ⟨hparams, h⟩ := List.forall_mem_append.mp h
  obtain ⟨hreturn, hbody⟩ := List.forall_mem_append.mp h
  have hlines : Gives (bodyLines p m) Plain := by
    unfold bodyLines Layout.body
    cases hm : m.body with
    | none =>
      refine .pure (.single (by simp) ?_)
      simp +decide [unbroken_escape m.name]
    | some body =>
      rw [hm] at hbody
      exact gives_block named body hbody
  have htexts : ∀ v ∈ m.params.map paramText, Unbroken v := by
    refine List.forall_mem_map.mpr fun q hq => ?_
    obtain ⟨hq, htype⟩ := List.forall_mem_cons.mp fun s hs =>
      hparams s (List.mem_flatMap.mpr ⟨q, hq, hs⟩)
    simp +decide [paramText, unbroken_typeText _ htype, unbroken_identifier hq]
  refine hlines.bind fun body hplain => .pure ?_
  refine (plain_annotations hmarkers).append (.block ?_ hplain)
  have hmodifiers : Unbroken (if m.isStatic then "public static" else "public") := by
    cases m.isStatic <;> decide
  simp +decide [methodHeader, hmodifiers, unbroken_typeText _ hreturn, hname,
    unbroken_intercalate htexts]

theorem unbroken_classHeader {c : ClassDecl} (h : ∀ s ∈ c.names, Unbroken s) (nested : Bool) :
    Unbroken (classHeader c nested) := by
  obtain ⟨hname, h⟩ := List.forall_mem_cons.mp h
  obtain ⟨_, htypes⟩ := List.forall_mem_append.mp h
  have hstatic : Unbroken (if nested && c.isStatic then "static " else "") := by
    cases nested <;> cases c.isStatic <;> decide
  unfold classHeader
  cases hhead : c.supertypes.head? with
  | none => simp +decide only [unbroken_append, hstatic, hname, and_self]
  | some t =>
    have ht := unbroken_typeText t fun s hs =>
      htypes s (List.mem_flatMap.mpr ⟨t, List.mem_of_mem_head? hhead, hs⟩)
    simp +decide only [unbroken_append, hstatic, hname, ht, and_self]

theorem plain_members {members : List (Bool × List Line)} (h : ∀ m ∈ members, Plain m.2) :
    Plain (Layout.lines.members members) := by
  induction members with
  | nil => exact .nil
  | cons m ms ih =>
    obtain ⟨hm, hms⟩ := List.forall_mem_cons.mp h
    cases ms with
    | nil => exact hm
    | cons n ns =>
      refine .append (hm.append ?_) (ih hms)
      split
      · exact .nil
      · exact .cons trivial .nil

theorem gives_cls (named : ∀ s ∈ p.names, Unbroken s) (fuel : Nat) (id : NodeId) (nested : Bool) :
    Gives (Layout.lines.cls p fuel id nested) Plain := by
  induction fuel generalizing id nested with
  | zero =>
    intro ls hls
    cases hls
  | succ fuel ih =>
    intro ls hls
    obtain ⟨c, hc⟩ := Layout.class?_of_cls hls
    rw [Layout.lines.cls_of_class hc] at hls
    obtain ⟨members, hmembers, rfl⟩ := exists_of_map_eq_ok hls
    have hplain : ∀ m ∈ members, Plain m.2 := by
      refine Gives.mapM (m := Except EmitError) (fun x hx => ?_) members hmembers
      obtain ⟨k, n⟩ := x
      have hnames := Program.names_of_node? named (Program.node?_of_mem_members hx)
      cases n with
      | field f => exact .pure (plain_field hnames)
      | method m => exact (gives_method named hnames).bind fun ls hls => .pure hls
      | cls d => exact (ih k true).bind fun ls hls => .pure hls
    have hnames := Program.names_of_node? named (Program.class?_eq_some_iff.mp hc)
    have hmarkers := (List.forall_mem_append.mp (List.forall_mem_cons.mp hnames).2).1
    exact (plain_annotations hmarkers).append
      (.block (unbroken_classHeader hnames nested) (plain_members hplain))

/-! ### Texts as lines -/

/-- The pieces that line ends leave; nothing follows the last end. -/
def splitLines : List Char → List (List Char)
  | [] => []
  | c :: cs =>
    if c = '\n' then [] :: splitLines cs
    else
      match splitLines cs with
      | [] => [[c]]
      | l :: ls => (c :: l) :: ls

/-- The lines of a text. -/
def sourceLines (text : String) : List String := (splitLines text.toList).map String.ofList

/-- A line so many spaces to the right; an empty one stays empty. -/
def shifted (width : Nat) (line : String) : String :=
  if line = "" then "" else String.ofList (List.replicate width ' ') ++ line

theorem splitLines_append {l : List Char} (h : '\n' ∉ l) (cs : List Char) :
    splitLines (l ++ '\n' :: cs) = l :: splitLines cs := by
  induction l with
  | nil => rfl
  | cons c l ih =>
    rw [List.mem_cons, not_or] at h
    rw [List.cons_append, splitLines, if_neg (Ne.symm h.1), ih h.2]

namespace Line

variable {l : Line}

theorem Plain.unbroken_render (h : l.Plain) (width : Nat) : Unbroken (l.render width) := by
  cases l with
  | blank => exact List.not_mem_nil
  | code depth text => exact unbroken_append.mpr ⟨by simp [Unbroken], h.2⟩

/-- One level is the width of the indentation, except where a line is empty. -/
theorem Plain.render_indent (h : l.Plain) (width : Nat) :
    l.indent.render width = shifted width (l.render width) := by
  cases l with
  | blank => rfl
  | code depth text =>
    have hne : (code depth text).render width ≠ "" := by simp [render, h.1]
    rw [shifted, if_neg hne, render, indent, deeper, render, Nat.succ_mul, Nat.add_comm,
      List.replicate_add, String.ofList_append, String.append_assoc]

end Line

theorem sourceLines_render {ls : List Line} (h : Plain ls) (width : Nat) :
    sourceLines (render width ls) = ls.map (Line.render width) := by
  suffices hsplit : splitLines (render width ls).toList = ls.map fun l => (l.render width).toList by
    rw [sourceLines, hsplit, List.map_map]
    exact List.map_congr_left fun l _ => String.ofList_toList
  rw [render, String.toList_join, List.flatMap_map]
  -- the end behind a line is the first one in the text that is left
  induction ls with
  | nil => rfl
  | cons l ls ih =>
    obtain ⟨hl, hls⟩ := List.forall_mem_cons.mp h
    rw [List.flatMap_cons, String.toList_append, List.append_assoc, List.map_cons, ← ih hls]
    exact splitLines_append (hl.unbroken_render width) _

end Java

end FieldAccess
