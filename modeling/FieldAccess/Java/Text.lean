import FieldAccess.TypeDesc.Basic

/-! Java spellings of types, identifiers and string literals. -/
namespace FieldAccess.Java

def primitiveName : Primitive → String
  | .bool => "boolean"
  | .int8 => "byte"
  | .int16 => "short"
  | .int32 => "int"
  | .int64 => "long"
  | .char => "char"
  | .float32 => "float"
  | .float64 => "double"

def boxName : Primitive → String
  | .bool => "Boolean"
  | .int8 => "Byte"
  | .int16 => "Short"
  | .int32 => "Integer"
  | .int64 => "Long"
  | .char => "Character"
  | .float32 => "Float"
  | .float64 => "Double"

def boxText (p : Primitive) : String := "java.lang." ++ boxName p

/-- Java name of a nominal type. -/
def baseName (name : String) : String :=
  if name = TypeDesc.stringName then "String"
  else if name = TypeDesc.sequenceName ∨ name = TypeDesc.listName then "java.util.List"
  else name

mutual

def typeText : TypeDesc → String
  | .void => "void"
  | .any => "Object"
  | .primitive p => primitiveName p
  | .boxed p => boxText p
  | .named name [] => baseName name
  | .named name (a :: as) => baseName name ++ "<" ++ argText a ++ argsText as ++ ">"

/-- Type arguments are reference types. -/
def argText : TypeDesc → String
  | .void => "void"
  | .any => "Object"
  | .primitive p => boxText p
  | .boxed p => boxText p
  | .named name [] => baseName name
  | .named name (a :: as) => baseName name ++ "<" ++ argText a ++ argsText as ++ ">"

/-- The arguments after the first, each behind a comma. -/
def argsText : List TypeDesc → String
  | [] => ""
  | a :: as => ", " ++ argText a ++ argsText as

end

def escapeChar (c : Char) : List Char :=
  if c = '"' then ['\\', '"']
  else if c = '\\' then ['\\', '\\']
  else if c = '\n' then ['\\', 'n']
  else if c = '\r' then ['\\', 'r']
  else if c = '\t' then ['\\', 't']
  else [c]

/-- Inside of a string literal. -/
def escapeChars (cs : List Char) : List Char := cs.flatMap escapeChar

def escape (s : String) : String := String.ofList (escapeChars s.toList)

def reserved : List String :=
  ["abstract", "assert", "boolean", "break", "byte", "case", "catch", "char", "class", "const",
   "continue", "default", "do", "double", "else", "enum", "extends", "final", "finally", "float",
   "for", "goto", "if", "implements", "import", "instanceof", "int", "interface", "long", "native",
   "new", "package", "private", "protected", "public", "return", "short", "static", "strictfp",
   "super", "switch", "synchronized", "this", "throw", "throws", "transient", "try", "void",
   "volatile", "while", "true", "false", "null"]

/-- A reserved word gets an underscore behind it. -/
def identifier (name : String) : String := if reserved.contains name then name ++ "_" else name

end FieldAccess.Java
