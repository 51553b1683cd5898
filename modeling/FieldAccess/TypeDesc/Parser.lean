import FieldAccess.Json.Basic
import FieldAccess.TypeDesc.Basic
import FieldAccess.TypeDesc.Token

/-! Reading a type from its text: `type ::= ident | ident < type (, type)* >`, where `void`, `any`
and the primitive names take no arguments and `boxed` takes one primitive. As JSON a type is its
text. -/
namespace FieldAccess.TypeDesc

/-- What is wrong with a type text. -/
inductive Fault where
  | unexpectedChar (c : Char)
  | expectedName
  | endOfInput
  | expectedSeparator
  | trailingInput
  | reservedArgs
  | boxedArgs
  | primitiveArgs
deriving DecidableEq, Repr

def Fault.message : Fault → String
  | .unexpectedChar c => "unexpected character '" ++ c.toString ++ "'"
  | .expectedName => "expected a type name"
  | .endOfInput => "unexpected end of input"
  | .expectedSeparator => "expected ',' or '>'"
  | .trailingInput => "unexpected trailing input"
  | .reservedArgs => "reserved type does not take arguments"
  | .boxedArgs => "boxed<> takes exactly one primitive argument"
  | .primitiveArgs => "primitive types do not take arguments"

structure ParseError where
  input : String
  fault : Fault
deriving DecidableEq, Repr

def ParseError.message (e : ParseError) : String :=
  "invalid type descriptor '" ++ e.input ++ "': " ++ e.fault.message

/-- The type meant by a name with arguments. -/
def build (name : String) (args : List TypeDesc) : Except Fault TypeDesc :=
  if name = "void" then if args.isEmpty then .ok void else .error .reservedArgs
  else if name = "any" then if args.isEmpty then .ok any else .error .reservedArgs
  else if name = boxedName then
    match args with
    | [primitive p] => .ok (boxed p)
    | _ => .error .boxedArgs
  else
    match Primitive.ofName? name with
    | some p => if args.isEmpty then .ok (primitive p) else .error .primitiveArgs
    | none => .ok (named name args)

mutual

/-- One type from the front of the tokens, with the tokens after it. Fuel above the number of tokens
never runs out. -/
def parseType : Nat → List Token → Except Fault (TypeDesc × List Token)
  | 0, _ => .error .endOfInput
  | fuel + 1, .ident name :: .openAngle :: ts => do
    let (args, rest) ← parseArgs fuel ts
    let t ← build name args
    return (t, rest)
  | _ + 1, .ident name :: ts => do
    let t ← build name []
    return (t, ts)
  | _ + 1, _ :: _ => .error .expectedName
  | _ + 1, [] => .error .endOfInput

/-- Arguments up to and including the closing bracket. -/
def parseArgs : Nat → List Token → Except Fault (List TypeDesc × List Token)
  | 0, _ => .error .endOfInput
  | fuel + 1, ts => do
    let (t, rest) ← parseType fuel ts
    match rest with
    | .comma :: rest' => do
      let (args, rest'') ← parseArgs fuel rest'
      return (t :: args, rest'')
    | .closeAngle :: rest' => return ([t], rest')
    | _ => .error .expectedSeparator

end

/-- The type of a whole token list. -/
def ofTokens (ts : List Token) : Except Fault TypeDesc := do
  let (t, rest) ← parseType (ts.length + 1) ts
  if rest.isEmpty then return t else .error .trailingInput

def parse (input : String) : Except ParseError TypeDesc :=
  match Token.ofText input with
  | .error c => .error ⟨input, .unexpectedChar c⟩
  | .ok ts =>
    match ofTokens ts with
    | .error fault => .error ⟨input, fault⟩
    | .ok t => .ok t

def parse? (input : String) : Option TypeDesc := (parse input).toOption

def toJson (t : TypeDesc) : Json := .str t.text

def ofJson? (j : Json) : Option TypeDesc := j.asStr?.bind parse?

end FieldAccess.TypeDesc
