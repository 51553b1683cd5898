import FieldAccess.TypeDesc.Basic

/-! Method bodies: statements over a small expression language. A call of a member names its target
by node id, so a body stays valid as long as the program that owns it. -/
namespace FieldAccess

/-- Position of a class, field or method in its program. Ids are taken to stay below `idLimit`:
nothing is said of a program with that many nodes, where a position no longer fits into an id. -/
abbrev NodeId := Nat

def NodeId.label (id : NodeId) : String := "#" ++ Nat.repr id

/-- Operations that every sequence value has. -/
inductive SequenceOp where
  /-- Removes all elements; the sequence itself stays. -/
  | clear
  /-- Appends the elements of its one argument. -/
  | appendAll
deriving DecidableEq, Repr

def SequenceOp.arity : SequenceOp → Nat
  | clear => 0
  | appendAll => 1

inductive CallTarget where
  | member (method : NodeId)
  | sequence (op : SequenceOp)
deriving DecidableEq, Repr

inductive Expr where
  | var (name : String)
  | this
  | loadField (object : Expr) (field : String)
  | call (receiver : Option Expr) (target : CallTarget) (args : List Expr)
  | cast (type : TypeDesc) (value : Expr)
  | notNull (value : Expr)
deriving Repr, Inhabited

/-- What a throwing statement raises. -/
inductive Failure where
  /-- A key that matches no field. -/
  | unknownField (key : Expr)
deriving Repr

inductive Stmt where
  | expr (e : Expr)
  | ret (value : Expr)
  | branch (cond : Expr) (thenBlock elseBlock : List Stmt)
  /-- Exact match of a string against the labels; null and every other string take the default. -/
  | switch (scrutinee : Expr) (cases : List (String × List Stmt)) (default : List Stmt)
  /-- Binds a value, checked against a type, to a local of the running method. -/
  | bind (name : String) (type : TypeDesc) (value : Expr)
  | storeField (object : Expr) (field : String) (value : Expr)
  | throw (failure : Failure)
deriving Repr, Inhabited

abbrev Block := List Stmt

end FieldAccess
