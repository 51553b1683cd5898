import FieldAccess.Json.Record
import FieldAccess.Program.Basic
import FieldAccess.TypeDesc.Parser

/-! Programs as JSON. Statements, expressions, call targets and nodes are tagged records,
declarations are records. What is written is an object with all members; on reading, lists, flags
and optional parts may be missing, and unknown members are ignored. -/
namespace FieldAccess

def Json.strs (ss : List String) : Json := .arr (ss.map .str)

def Json.strs? : Json → Option (List String) := Json.listOf? Json.asStr?

def Json.ids (ids : List NodeId) : Json := .arr (ids.map .ofNat)

def Json.ids? : Json → Option (List NodeId) := Json.listOf? Json.asIndex?

namespace SequenceOp

def toJson : SequenceOp → Json
  | clear => .str "clear"
  | appendAll => .str "append-all"

def ofName? (name : String) : Option SequenceOp :=
  if name = "clear" then some clear else if name = "append-all" then some appendAll else none

end SequenceOp

namespace CallTarget

def toJson : CallTarget → Json
  | member method => .obj [("kind", .str "member"), ("method", .ofNat method)]
  | sequence op => .obj [("kind", .str "sequence"), ("op", op.toJson)]

def cases : Json.Cases := [("member", ["method"]), ("sequence", ["op"])]

/-- Reads the target of a call, which stands inside an expression. -/
def ofJson? (j : Json) : Option CallTarget := do
  let (kind, r) ← j.case? cases "kind" .tagged
  if kind = "member" then return member (← r.field? "method" Json.asIndex?)
  else return sequence (← r.field? "op" (Json.choice? .tagged SequenceOp.ofName?))

end CallTarget

namespace Expr

mutual

def toJson : Expr → Json
  | var name => .obj [("expr", .str "local"), ("name", .str name)]
  | this => .obj [("expr", .str "this")]
  | loadField object field =>
    .obj [("expr", .str "load-field"), ("object", object.toJson), ("field", .str field)]
  | call none target args =>
    .obj [("expr", .str "call"), ("receiver", .null), ("target", target.toJson),
      ("args", .arr (toJsons args))]
  | call (some receiver) target args =>
    .obj [("expr", .str "call"), ("receiver", receiver.toJson), ("target", target.toJson),
      ("args", .arr (toJsons args))]
  | cast type value =>
    .obj [("expr", .str "cast"), ("ty", type.toJson), ("value", value.toJson)]
  | notNull value => .obj [("expr", .str "not-null"), ("value", value.toJson)]

def toJsons : List Expr → List Json
  | [] => []
  | e :: es => e.toJson :: toJsons es

end

def cases : Json.Cases :=
  [("local", ["name"]), ("this", []), ("load-field", ["object", "field"]),
    ("call", ["receiver", "target", "args"]), ("cast", ["ty", "value"]), ("not-null", ["value"])]

/-- Reads an expression that nests at most `depth` deep. It stands inside a statement. -/
def ofJsonWithin? : (depth : Nat) → Json → Option Expr
  | 0, _ => none
  | depth + 1, j => do
    let (kind, r) ← j.case? cases "expr" .tagged
    if kind = "local" then return var (← r.field? "name" Json.asStr?)
    else if kind = "this" then return this
    else if kind = "load-field" then
      let object ← r.field? "object" (ofJsonWithin? depth)
      return loadField object (← r.field? "field" Json.asStr?)
    else if kind = "call" then
      let receiver ← r.fieldOr "receiver" none (Json.optionOf? (ofJsonWithin? depth))
      let target ← r.field? "target" CallTarget.ofJson?
      return call receiver target (← r.fieldOr "args" [] (Json.listOf? (ofJsonWithin? depth)))
    else if kind = "cast" then
      let type ← r.field? "ty" TypeDesc.ofJson?
      return cast type (← r.field? "value" (ofJsonWithin? depth))
    else return notNull (← r.field? "value" (ofJsonWithin? depth))

def ofJson? (j : Json) : Option Expr := ofJsonWithin? j.depth j

end Expr

namespace Failure

def toJson : Failure → Json
  | unknownField key => .obj [("kind", .str "unknown-field"), ("key", key.toJson)]

def cases : Json.Cases := [("unknown-field", ["key"])]

/-- Reads a failure, which stands inside a statement. -/
def ofJson? (j : Json) : Option Failure := do
  let (_, r) ← j.case? cases "kind" .tagged
  return unknownField (← r.field? "key" Expr.ofJson?)

end Failure

namespace Stmt

mutual

def toJson : Stmt → Json
  | expr e => .obj [("stmt", .str "expr"), ("expr", e.toJson)]
  | ret value => .obj [("stmt", .str "return"), ("value", value.toJson)]
  | branch cond thenBlock elseBlock =>
    .obj [("stmt", .str "if"), ("cond", cond.toJson), ("then_block", .arr (blockJsons thenBlock)),
      ("else_block", .arr (blockJsons elseBlock))]
  | switch scrutinee cases default =>
    .obj [("stmt", .str "switch"), ("scrutinee", scrutinee.toJson),
      ("cases", .obj (caseJsons cases)), ("default", .arr (blockJsons default))]
  | bind name type value =>
    .obj [("stmt", .str "let"), ("name", .str name), ("ty", type.toJson), ("value", value.toJson)]
  | storeField object field value =>
    .obj [("stmt", .str "store-field"), ("object", object.toJson), ("field", .str field),
      ("value", value.toJson)]
  | throw failure => .obj [("stmt", .str "throw"), ("failure", failure.toJson)]

def blockJsons : List Stmt → List Json
  | [] => []
  | s :: ss => s.toJson :: blockJsons ss

def caseJsons : List (String × List Stmt) → List (String × Json)
  | [] => []
  | (label, body) :: rest => (label, .arr (blockJsons body)) :: caseJsons rest

end

/-- Members of an object, each read in order. -/
def membersOf? (read : Json → Option α) : Json → Option (List (String × α))
  | .obj members => members.mapM fun m => (read m.2).map (m.1, ·)
  | _ => none

def cases : Json.Cases :=
  [("expr", ["expr"]), ("return", ["value"]), ("if", ["cond", "then_block", "else_block"]),
    ("switch", ["scrutinee", "cases", "default"]), ("let", ["name", "ty", "value"]),
    ("store-field", ["object", "field", "value"]), ("throw", ["failure"])]

/-- Reads a statement that nests at most `depth` deep. -/
def ofJsonWithin? : (depth : Nat) → Json.Place → Json → Option Stmt
  | 0, _, _ => none
  | depth + 1, place, j => do
    let block := Json.listOf? (ofJsonWithin? depth .tagged)
    let (kind, r) ← j.case? cases "stmt" place
    if kind = "expr" then return expr (← r.field? "expr" Expr.ofJson?)
    else if kind = "return" then return ret (← r.field? "value" Expr.ofJson?)
    else if kind = "if" then
      let cond ← r.field? "cond" Expr.ofJson?
      let thenBlock ← r.field? "then_block" block
      return branch cond thenBlock (← r.fieldOr "else_block" [] block)
    else if kind = "switch" then
      let scrutinee ← r.field? "scrutinee" Expr.ofJson?
      let cases ← r.field? "cases" (membersOf? block)
      return switch scrutinee cases (← r.field? "default" block)
    else if kind = "let" then
      let name ← r.field? "name" Json.asStr?
      let type ← r.field? "ty" TypeDesc.ofJson?
      return bind name type (← r.field? "value" Expr.ofJson?)
    else if kind = "store-field" then
      let object ← r.field? "object" Expr.ofJson?
      let field ← r.field? "field" Json.asStr?
      return storeField object field (← r.field? "value" Expr.ofJson?)
    else return throw (← r.field? "failure" Failure.ofJson?)

def ofJson? (place : Json.Place) (j : Json) : Option Stmt := ofJsonWithin? j.depth place j

end Stmt

namespace Origin

def name : Origin → String
  | user => "user"
  | synthesized => "synthesized"

def ofName? (name : String) : Option Origin :=
  if name = "user" then some user else if name = "synthesized" then some synthesized else none

end Origin

namespace ClassDecl

def jsonMembers (c : ClassDecl) : List (String × Json) :=
  [("name", .str c.name), ("annotations", .strs c.annotations),
    ("supertypes", .arr (c.supertypes.map TypeDesc.toJson)), ("is-static", .bool c.isStatic),
    ("origin", .str c.origin.name), ("members", .ids c.members)]

def keys : List String := ["name", "annotations", "supertypes", "is-static", "origin", "members"]

def ofJson? (place : Json.Place) (j : Json) : Option ClassDecl := do
  let r ← j.record? keys
  let name ← r.field? "name" Json.asStr?
  let annotations ← r.fieldOr "annotations" [] Json.strs?
  let supertypes ← r.fieldOr "supertypes" [] (Json.listOf? TypeDesc.ofJson?)
  let isStatic ← r.fieldOr "is-static" false Json.asBool?
  let origin ← r.fieldOr "origin" .user (Json.choice? place Origin.ofName?)
  let members ← r.fieldOr "members" [] Json.ids?
  return { name, annotations, supertypes, isStatic, origin, members }

end ClassDecl

namespace FieldDecl

def jsonMembers (f : FieldDecl) : List (String × Json) :=
  [("name", .str f.name), ("type", f.type.toJson), ("annotations", .strs f.annotations)]

def keys : List String := ["name", "type", "annotations"]

def ofJson? (j : Json) : Option FieldDecl := do
  let r ← j.record? keys
  let name ← r.field? "name" Json.asStr?
  let type ← r.field? "type" TypeDesc.ofJson?
  let annotations ← r.fieldOr "annotations" [] Json.strs?
  return { name, type, annotations }

end FieldDecl

namespace Param

def toJson (q : Param) : Json := .obj [("name", .str q.name), ("type", q.type.toJson)]

def ofJson? (j : Json) : Option Param := do
  let r ← j.record? ["name", "type"]
  let name ← r.field? "name" Json.asStr?
  let type ← r.field? "type" TypeDesc.ofJson?
  return { name, type }

end Param

namespace MethodDecl

def jsonMembers (m : MethodDecl) : List (String × Json) :=
  [("name", .str m.name), ("is-static", .bool m.isStatic),
    ("params", .arr (m.params.map Param.toJson)), ("return-type", m.returnType.toJson),
    ("body", .ofOption (fun b => .arr (Stmt.blockJsons b)) m.body),
    ("annotations", .strs m.annotations)]

def toJson (m : MethodDecl) : Json := .obj m.jsonMembers

def keys : List String := ["name", "is-static", "params", "return-type", "body", "annotations"]

def ofJson? (place : Json.Place) (j : Json) : Option MethodDecl := do
  let r ← j.record? keys
  let name ← r.field? "name" Json.asStr?
  let isStatic ← r.fieldOr "is-static" false Json.asBool?
  let params ← r.fieldOr "params" [] (Json.listOf? Param.ofJson?)
  let returnType ← r.field? "return-type" TypeDesc.ofJson?
  let body ← r.fieldOr "body" none (Json.optionOf? (Json.listOf? (Stmt.ofJson? place)))
  let annotations ← r.fieldOr "annotations" [] Json.strs?
  return { name, isStatic, params, returnType, body, annotations }

end MethodDecl

namespace Node

def toJson : Node → Json
  | cls c => .obj (("node", .str "class") :: c.jsonMembers)
  | field f => .obj (("node", .str "field") :: f.jsonMembers)
  | method m => .obj (("node", .str "method") :: m.jsonMembers)

def cases : Json.Cases :=
  [("class", ClassDecl.keys), ("field", FieldDecl.keys), ("method", MethodDecl.keys)]

def ofJson? (j : Json) : Option Node := do
  let (kind, r) ← j.case? cases "node" .outer
  if kind = "class" then return cls (← ClassDecl.ofJson? .tagged r)
  else if kind = "field" then return field (← FieldDecl.ofJson? r)
  else return method (← MethodDecl.ofJson? .tagged r)

end Node

namespace Entry

def toJson (e : Entry) : Json :=
  .obj [("parent", .ofOption .ofNat e.parent), ("node", e.node.toJson)]

def ofJson? (j : Json) : Option Entry := do
  let r ← j.record? ["parent", "node"]
  let parent ← r.fieldOr "parent" none (Json.optionOf? Json.asIndex?)
  let node ← r.field? "node" Node.ofJson?
  return { parent, node }

end Entry

namespace Program

def toJson (p : Program) : Json :=
  .obj [("nodes", .arr (p.nodes.map Entry.toJson)), ("roots", .ids p.roots)]

def ofJson? (j : Json) : Option Program := do
  let r ← j.record? ["nodes", "roots"]
  let nodes ← r.field? "nodes" (Json.listOf? Entry.ofJson?)
  let roots ← r.field? "roots" Json.ids?
  return { nodes, roots }

end Program

end FieldAccess
