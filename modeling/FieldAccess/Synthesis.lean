import FieldAccess.Assoc
import FieldAccess.Catalog
import FieldAccess.Program.Basic

/-! The accessor type of a class. Its dynamic methods `set` and `get` choose a field by name; for
each field there is also a typed pair of methods. Both treat a sequence field alike: a sequence that
is there keeps its identity and gets the new elements, otherwise the setter is called. -/
namespace FieldAccess

structure MethodSpec where
  name : String
  isStatic : Bool
  params : List Param
  returnType : TypeDesc
  body : Block
deriving Repr

def MethodSpec.toDecl (m : MethodSpec) : MethodDecl :=
  { name := m.name
    isStatic := m.isStatic
    params := m.params
    returnType := m.returnType
    body := some m.body }

/-- An accessor type for a host class, not yet part of the program. -/
structure MapperSpec where
  name : String
  host : NodeId
  methods : List MethodSpec
deriving Repr

def MapperSpec.method? (m : MapperSpec) (name : String) : Option MethodSpec :=
  m.methods.find? fun s => s.name == name

def MapperSpec.classDecl (m : MapperSpec) : ClassDecl :=
  { name := m.name, isStatic := true, origin := .synthesized }

namespace Synthesis

def instanceParam : String := "instance"

def fieldParam : String := "field"

def valueParam : String := "value"

def incomingLocal : String := "incoming"

def receiver : Expr := .var instanceParam

def getterCall (f : FieldDesc) : Expr := .call (some receiver) (.member f.getter) []

def setterCall (f : FieldDesc) (value : Expr) : Expr :=
  .call (some receiver) (.member f.setter) [value]

/-- Assignment to a sequence field. The test for null precedes every change, and clearing precedes
appending. -/
def assignSequence (f : FieldDesc) (incoming : Expr) : Block :=
  [.branch (.notNull (getterCall f))
    [.expr (.call (some (getterCall f)) (.sequence .clear) []),
      .expr (.call (some (getterCall f)) (.sequence .appendAll) [incoming])]
    [.expr (setterCall f incoming)]]

/-- Local for the converted value, named after the field unless that hides a parameter. -/
def convertedLocal (f : FieldDesc) : String :=
  if [instanceParam, fieldParam, valueParam].contains f.name then incomingLocal else f.name

/-- Case of a field in the dynamic setter. A sequence is converted before anything is changed. -/
def setCase (f : FieldDesc) : Block :=
  match f.type with
  | .scalar declared => [.expr (setterCall f (.cast declared.toBoxed.erasure (.var valueParam)))]
  | .sequence declared =>
    .bind (convertedLocal f) declared.erasure (.cast declared.erasure (.var valueParam)) ::
      assignSequence f (.var (convertedLocal f))

def getCase (f : FieldDesc) : Block := [.ret (getterCall f)]

/-- A case for each field in order; any other key is unknown. -/
def dispatch (fields : List FieldDesc) (body : FieldDesc → Block) : Block :=
  [.switch (.var fieldParam) (Assoc.ofPairs (fields.map fun f => (f.name, body f)))
    [.throw (.unknownField (.var fieldParam))]]

def hostParam (host : TypeDesc) : Param := ⟨instanceParam, host⟩

def dynamicSet (host : TypeDesc) (fields : List FieldDesc) : MethodSpec :=
  { name := "set"
    isStatic := true
    params := [hostParam host, ⟨fieldParam, .string⟩, ⟨valueParam, .any⟩]
    returnType := .void
    body := dispatch fields setCase }

def dynamicGet (host : TypeDesc) (fields : List FieldDesc) : MethodSpec :=
  { name := "get"
    isStatic := true
    params := [hostParam host, ⟨fieldParam, .string⟩]
    returnType := .any
    body := dispatch fields getCase }

/-- Parameter of a typed setter, named after the field unless that hides the instance. -/
def typedParam (f : FieldDesc) : String := if f.name = instanceParam then valueParam else f.name

def typedSet (host : TypeDesc) (f : FieldDesc) : MethodSpec :=
  { name := "set" ++ f.capitalized
    isStatic := true
    params := [hostParam host, ⟨typedParam f, f.type.declared⟩]
    returnType := .void
    body :=
      match f.type with
      | .scalar _ => [.expr (setterCall f (.var (typedParam f)))]
      | .sequence _ => assignSequence f (.var (typedParam f)) }

def typedGet (host : TypeDesc) (f : FieldDesc) : MethodSpec :=
  { name := "get" ++ f.capitalized
    isStatic := true
    params := [hostParam host]
    returnType := f.type.declared
    body := [.ret (getterCall f)] }

/-- The dynamic pair, then a typed pair for each field in order. -/
def mapper (host : NodeId) (hostName : String) (fields : List FieldDesc) : MapperSpec :=
  let hostType := TypeDesc.ofName hostName
  { name := mapperName
    host := host
    methods :=
      dynamicSet hostType fields :: dynamicGet hostType fields ::
        fields.flatMap fun f => [typedSet hostType f, typedGet hostType f] }

end Synthesis

/-- The accessor type of a class, or the faults of its catalog. The program is not changed. -/
def synthesize (p : Program) (types : Hierarchy) (host : NodeId) :
    Except (List CatalogError) MapperSpec := do
  let fields ← catalog p types host
  match p.expectClass host with
  | .error e => .error [.node e]
  | .ok decl => return Synthesis.mapper host decl.name fields

end FieldAccess
