import FieldAccess.Java.Text
import FieldAccess.Program.Basic

/-! Classes of a program as Java source. How a source is put together is said once, for whatever
lines are put into; the writer of texts is one `Layout`. -/
namespace FieldAccess.Java

inductive EmitError where
  | node (error : NodeError)
  | unresolvedMethod (id : NodeId)
  | sequenceArity (op : SequenceOp) (expected found : Nat)
  /-- A class that is, through others, nested in itself. It stands for a source without an end; a
  writer without a bound on its depth never reports it. -/
  | cyclicNesting (id : NodeId)
deriving DecidableEq, Repr

def opLabel : SequenceOp → String
  | .clear => "Clear"
  | .appendAll => "AppendAll"

def EmitError.message : EmitError → String
  | node error => error.message
  | unresolvedMethod id => "call target " ++ NodeId.label id ++ " is not a method"
  | sequenceArity op expected found =>
    "sequence operation " ++ opLabel op ++ " takes " ++ Nat.repr expected ++ " argument(s), got " ++
      Nat.repr found
  | cyclicNesting id => "class " ++ NodeId.label id ++ " is nested in itself"

def opName : SequenceOp → String
  | .clear => "clear"
  | .appendAll => "addAll"

/-- Name of the called method, when the target fits the number of arguments. -/
def targetName (p : Program) (target : CallTarget) (found : Nat) : Except EmitError String :=
  match target with
  | .member id =>
    match p.method? id with
    | some m => .ok m.name
    | none => .error (.unresolvedMethod id)
  | .sequence op =>
    if found = op.arity then .ok (opName op) else .error (.sequenceArity op op.arity found)

mutual

def exprText (p : Program) : Expr → Except EmitError String
  | .var name => return identifier name
  | .this => return "this"
  | .loadField object field => do
    let o ← exprText p object
    return o ++ "." ++ identifier field
  | .cast type value => do
    let v ← exprText p value
    return "((" ++ typeText type ++ ") " ++ v ++ ")"
  | .notNull value => do
    let v ← exprText p value
    return v ++ " != null"
  | .call none target args => do
    let vs ← argTexts p args
    let name ← targetName p target vs.length
    return name ++ "(" ++ String.intercalate ", " vs ++ ")"
  | .call (some receiver) target args => do
    let vs ← argTexts p args
    let name ← targetName p target vs.length
    let r ← exprText p receiver
    return r ++ "." ++ name ++ "(" ++ String.intercalate ", " vs ++ ")"

def argTexts (p : Program) : List Expr → Except EmitError (List String)
  | [] => return []
  | e :: es => do
    let v ← exprText p e
    let vs ← argTexts p es
    return v :: vs

end

def paramText (q : Param) : String := typeText q.type ++ " " ++ identifier q.name

/-- Only the first supertype is shown; the program does not tell classes from interfaces. -/
def classHeader (c : ClassDecl) (nested : Bool) : String :=
  "public " ++ (if nested && c.isStatic then "static " else "") ++ "class " ++ c.name ++
    match c.supertypes.head? with
    | some t => " extends " ++ typeText t
    | none => ""

def methodHeader (m : MethodDecl) : String :=
  (if m.isStatic then "public static" else "public") ++ " " ++ typeText m.returnType ++ " " ++
    m.name ++ "(" ++ String.intercalate ", " (m.params.map paramText) ++ ")"

/-! ### Layouts -/

/-- What pieces of source are made from. -/
structure Layout (D : Type) where
  nothing : D
  line : String → D
  blank : D
  /-- A piece one level deeper. -/
  nest : D → D
  /-- One piece after another. -/
  append : D → D → D

namespace Layout

variable {D : Type} (L : Layout D)

def opened (text : String) : D := L.line (text ++ " \x7b")

def closed : D := L.line "\x7d"

/-- A piece in braces, behind a header. -/
def braced (header : String) (inner : D) : D :=
  L.append (L.append (L.opened header) (L.nest inner)) L.closed

/-- The end of a chain of conditions: an empty last block is left out. -/
def lastBranch (block : Block) (inner : D) : D :=
  if block.isEmpty then L.closed else L.braced "\x7d else" inner

mutual

def stmt (p : Program) : Stmt → Except EmitError D
  | .expr e => do
    let v ← exprText p e
    return L.line (v ++ ";")
  | .ret value => do
    let v ← exprText p value
    return L.line ("return " ++ v ++ ";")
  | .bind name type value => do
    let v ← exprText p value
    return L.line (typeText type ++ " " ++ identifier name ++ " = " ++ v ++ ";")
  | .storeField object field value => do
    let o ← exprText p object
    let v ← exprText p value
    return L.line (o ++ "." ++ identifier field ++ " = " ++ v ++ ";")
  | .throw (.unknownField key) => do
    let v ← exprText p key
    return L.line ("throw new IllegalArgumentException(\"Unknown field: \" + " ++ v ++ ");")
  | .branch cond thenBlock elseBlock => do
    let c ← exprText p cond
    let yes ← block p thenBlock
    let no ← block p elseBlock
    return L.append (L.append (L.opened ("if (" ++ c ++ ")")) (L.nest yes))
      (L.lastBranch elseBlock no)
  | .switch scrutinee cases default => do
    let key ← exprText p scrutinee
    let chain ← tests p key "if" cases
    let last ← block p default
    return if cases.isEmpty then last else L.append chain (L.lastBranch default last)

def block (p : Program) : List Stmt → Except EmitError D
  | [] => return L.nothing
  | s :: ss => do
    let first ← stmt p s
    let rest ← block p ss
    return L.append first rest

/-- A chain of tests against the labels, the first with the given keyword. -/
def tests (p : Program) (key keyword : String) : List (String × List Stmt) → Except EmitError D
  | [] => return L.nothing
  | (label, body) :: rest => do
    let inner ← block p body
    let more ← tests p key "\x7d else if" rest
    let test := keyword ++ " (\"" ++ escape label ++ "\".equals(" ++ key ++ "))"
    return L.append (L.append (L.opened test) (L.nest inner)) more

end

def annotations : List String → D
  | [] => L.nothing
  | m :: ms => L.append (L.line ("@" ++ m)) (annotations ms)

def field (f : FieldDecl) : D :=
  L.append (L.annotations f.annotations)
    (L.line ("private " ++ typeText f.type ++ " " ++ identifier f.name ++ ";"))

/-- A method without a body here still gives source that compiles. -/
def body (p : Program) (m : MethodDecl) : Except EmitError D :=
  match m.body with
  | some body => L.block p body
  | none =>
    .ok (L.line ("throw new UnsupportedOperationException(\"" ++ escape m.name ++ "\");"))

def method (p : Program) (m : MethodDecl) : Except EmitError D := do
  let inner ← L.body p m
  return L.append (L.annotations m.annotations) (L.braced (methodHeader m) inner)

/-- Members one after the other, each with whether it is a field. Fields that follow each other stay
together; a blank line stands between all others. -/
def members : List (Bool × D) → D
  | [] => L.nothing
  | [(_, d)] => d
  | (f, d) :: (g, e) :: rest =>
    L.append (L.append d (if f && g then L.nothing else L.blank)) (members ((g, e) :: rest))

/-- A class. Nesting that does not come back to itself is not deeper than the program is large. -/
def cls (p : Program) : (fuel : Nat) → NodeId → (nested : Bool) → Except EmitError D
  | 0, id, _ => .error (.cyclicNesting id)
  | fuel + 1, id, nested =>
    match p.expectClass id with
    | .error e => .error (.node e)
    | .ok c => do
      let inner ← (p.members id).mapM fun (m, n) => do
        let d ←
          match n with
          | .field f => pure (L.field f)
          | .method d => L.method p d
          | .cls _ => cls p fuel m true
        return (n.isField, d)
      return L.append (L.annotations c.annotations)
        (L.braced (classHeader c nested) (L.members inner))

def package : Option String → D
  | none => L.nothing
  | some name => L.append (L.line ("package " ++ name ++ ";")) L.blank

end Layout

/-! ### Writing -/

/-- Source that is being written, and how deep its next line stands. -/
structure Writer where
  /-- Spaces a level. -/
  width : Nat
  depth : Nat := 0
  text : String := ""

namespace Writer

def line (text : String) (w : Writer) : Writer :=
  let margin := String.ofList (List.replicate (w.depth * w.width) ' ')
  { w with text := w.text ++ (margin ++ text ++ "\n") }

def blank (w : Writer) : Writer := { w with text := w.text ++ "\n" }

def indent (w : Writer) : Writer := { w with depth := w.depth + 1 }

/-- One level back; the outermost level is not left. -/
def dedent (w : Writer) : Writer := { w with depth := w.depth - 1 }

end Writer

/-- A piece is what it does to a writer. -/
def Layout.writer : Layout (Writer → Writer) where
  nothing w := w
  line := Writer.line
  blank := Writer.blank
  nest piece w := (piece w.indent).dedent
  append first second w := second (first w)

structure Options where
  package : Option String := none
  /-- Spaces a level. -/
  indent : Nat := 2

/-- A whole class with everything nested in it. -/
def emitClass (p : Program) (options : Options) (id : NodeId) : Except EmitError String := do
  let written ← Layout.writer.cls p (p.size + 1) id false
  return (written (Layout.writer.package options.package { width := options.indent })).text

/-- A class as it stands inside another. -/
def emitNested (p : Program) (options : Options) (id : NodeId) : Except EmitError String := do
  let written ← Layout.writer.cls p (p.size + 1) id true
  return (written { width := options.indent }).text

end FieldAccess.Java
