import FieldAccess.Json.Basic
import FieldAccess.Text

/-! JSON text: on one line, or indented by two spaces a level. -/
namespace FieldAccess.Json

def hexDigit (n : Nat) : Char := (Nat.toDigits 16 (n % 16)).headD '0'

/-- A character inside a JSON string; only quotes, backslashes and controls below U+0020 are
escaped. -/
def escapeChar (c : Char) : List Char :=
  if c = '"' then ['\\', '"']
  else if c = '\\' then ['\\', '\\']
  else if c = '\x08' then ['\\', 'b']
  else if c = '\x0c' then ['\\', 'f']
  else if c = '\n' then ['\\', 'n']
  else if c = '\r' then ['\\', 'r']
  else if c = '\t' then ['\\', 't']
  else if c.toNat < 0x20 then ['\\', 'u', '0', '0', hexDigit (c.toNat / 16), hexDigit c.toNat]
  else [c]

def quote (s : String) : String := "\"" ++ String.ofList (s.toList.flatMap escapeChar) ++ "\""

def floatText (x : Double) : String := (Binary.jsonText? Binary.double x.bits.toNat).getD "null"

mutual

def compact : Json → String
  | null => "null"
  | bool b => if b then "true" else "false"
  | int n => Text.ofInt n
  | float x => floatText x
  | str s => quote s
  | arr items => "[" ++ String.intercalate "," (compactItems items) ++ "]"
  | obj members => "\x7b" ++ String.intercalate "," (compactMembers members) ++ "\x7d"

def compactItems : List Json → List String
  | [] => []
  | j :: js => j.compact :: compactItems js

def compactMembers : List (String × Json) → List String
  | [] => []
  | (k, j) :: rest => (quote k ++ ":" ++ j.compact) :: compactMembers rest

end

def indentation (depth : Nat) : String := String.ofList (List.replicate (2 * depth) ' ')

/-- Lines of a collection between its brackets; an empty one has no lines. -/
def bracketed (opening closing : String) (depth : Nat) (lines : List String) : String :=
  if lines.isEmpty then opening ++ closing
  else
    opening ++ "\n" ++
      String.intercalate ",\n" (lines.map fun l => indentation (depth + 1) ++ l) ++ "\n" ++
      indentation depth ++ closing

mutual

/-- Text of a value that starts inside a line at the given depth. -/
def prettyAt (depth : Nat) : Json → String
  | null => "null"
  | bool b => if b then "true" else "false"
  | int n => Text.ofInt n
  | float x => floatText x
  | str s => quote s
  | arr items => bracketed "[" "]" depth (prettyItems (depth + 1) items)
  | obj members => bracketed "\x7b" "\x7d" depth (prettyMembers (depth + 1) members)

def prettyItems (depth : Nat) : List Json → List String
  | [] => []
  | j :: js => prettyAt depth j :: prettyItems depth js

def prettyMembers (depth : Nat) : List (String × Json) → List String
  | [] => []
  | (k, j) :: rest => (quote k ++ ": " ++ prettyAt depth j) :: prettyMembers depth rest

end

def pretty (j : Json) : String := prettyAt 0 j

end FieldAccess.Json
