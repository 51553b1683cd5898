import FieldAccess.Synthesis

/-! Attaching an accessor type to its host class, at most once. -/
namespace FieldAccess

inductive InjectOutcome where
  /-- Appended as a new nested class. -/
  | injected (id : NodeId)
  /-- A nested type with the reserved name was there; nothing changed. -/
  | alreadyPresent (existing : NodeId) (origin : Origin)
deriving DecidableEq, Repr

namespace InjectOutcome

def node : InjectOutcome → NodeId
  | injected id => id
  | alreadyPresent existing _ => existing

def wasInjected : InjectOutcome → Bool
  | injected _ => true
  | alreadyPresent _ _ => false

end InjectOutcome

inductive InjectError where
  /-- The type was made for another class. -/
  | hostMismatch (expected actual : NodeId)
  | node (error : NodeError)
deriving DecidableEq, Repr

def InjectError.message : InjectError → String
  | hostMismatch expected actual =>
    "type synthesized for " ++ NodeId.label expected ++ " cannot be injected into " ++
      NodeId.label actual
  | node error => error.message

namespace Program

/-- Appends the accessor type as the last member of a class. -/
def attachMapper (p : Program) (host : NodeId) (m : MapperSpec) : Program × NodeId :=
  let (p, nested) := p.attach host (.cls m.classDecl)
  (m.methods.foldl (fun p s => (p.attach nested (.method s.toDecl)).1) p, nested)

/-- Attaches an accessor type unless one is there. A failure leaves the program as it is. -/
def inject (p : Program) (host : NodeId) (m : MapperSpec) :
    Except InjectError (Program × InjectOutcome) :=
  match p.expectClass host with
  | .error e => .error (.node e)
  | .ok _ =>
    if m.host ≠ host then .error (.hostMismatch m.host host)
    else
      match p.findReserved? host with
      | some (existing, origin) => .ok (p, .alreadyPresent existing origin)
      | none =>
        let (p, nested) := p.attachMapper host m
        .ok (p, .injected nested)

end Program

end FieldAccess
