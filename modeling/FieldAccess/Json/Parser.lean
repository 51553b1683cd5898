import FieldAccess.Json.Number

/-! Reading JSON text. Of members with the same name the last value counts, at the place of the
first. Collections nest less than 128 deep. -/
namespace FieldAccess.Json

def isSpace (c : Char) : Bool := c = ' ' || c = '\n' || c = '\t' || c = '\r'

def skipSpace (cs : List Char) : List Char := cs.dropWhile isSpace

def hexValue? (c : Char) : Option Nat :=
  if c.isDigit then some (c.toNat - '0'.toNat)
  else if 'a' ≤ c ∧ c ≤ 'f' then some (c.toNat - 'a'.toNat + 10)
  else if 'A' ≤ c ∧ c ≤ 'F' then some (c.toNat - 'A'.toNat + 10)
  else none

/-- Value of four hexadecimal digits. -/
def hexUnit? (a b c d : Char) : Option Nat := do
  let a ← hexValue? a
  let b ← hexValue? b
  let c ← hexValue? c
  let d ← hexValue? d
  return ((a * 16 + b) * 16 + c) * 16 + d

def simpleEscape? (c : Char) : Option Char :=
  if c = '"' then some '"'
  else if c = '\\' then some '\\'
  else if c = '/' then some '/'
  else if c = 'b' then some '\x08'
  else if c = 'f' then some '\x0c'
  else if c = 'n' then some '\n'
  else if c = 'r' then some '\r'
  else if c = 't' then some '\t'
  else none

def isHighSurrogate (n : Nat) : Bool := 0xD800 ≤ n && n < 0xDC00

def isLowSurrogate (n : Nat) : Bool := 0xDC00 ≤ n && n < 0xE000

/-- Characters up to the closing quote, in reverse before `acc`, and the text after it. -/
def stringBody (acc : List Char) : List Char → Option (List Char × List Char)
  | [] => none
  | '"' :: rest => some (acc.reverse, rest)
  | '\\' :: 'u' :: a :: b :: c :: d :: rest =>
    match hexUnit? a b c d with
    | none => none
    | some n =>
      if isLowSurrogate n then none
      else if isHighSurrogate n then
        match rest with
        | '\\' :: 'u' :: e :: f :: g :: h :: rest =>
          match hexUnit? e f g h with
          | none => none
          | some m =>
            if isLowSurrogate m then
              stringBody (Char.ofNat (0x10000 + (n - 0xD800) * 0x400 + (m - 0xDC00)) :: acc) rest
            else none
        | _ => none
      else stringBody (Char.ofNat n :: acc) rest
  | '\\' :: c :: rest =>
    match simpleEscape? c with
    | none => none
    | some e => stringBody (e :: acc) rest
  | c :: rest => if c.toNat < 0x20 then none else stringBody (c :: acc) rest

/-- Text after a given word. -/
def afterWord : List Char → List Char → Option (List Char)
  | [], rest => some rest
  | w :: ws, c :: cs => if w = c then afterWord ws cs else none
  | _ :: _, [] => none

mutual

/-- A value at the front of a text. `depth` bounds the nesting, `fuel` the length. -/
def valueAt : (fuel : Nat) → (depth : Nat) → List Char → Option (Json × List Char)
  | 0, _, _ => none
  | fuel + 1, depth, cs =>
    match skipSpace cs with
    | [] => none
    | '"' :: rest => do
      let (s, rest) ← stringBody [] rest
      return (str (String.ofList s), rest)
    | '[' :: rest =>
      match depth with
      | 0 => none
      | depth + 1 =>
        match skipSpace rest with
        | ']' :: rest => some (arr [], rest)
        | rest => do
          let (items, rest) ← itemsAt fuel depth rest
          return (arr items, rest)
    | '\x7b' :: rest =>
      match depth with
      | 0 => none
      | depth + 1 =>
        match skipSpace rest with
        | '\x7d' :: rest => some (obj [], rest)
        | rest => do
          let (members, rest) ← membersAt fuel depth rest
          return (obj (Assoc.ofPairs members), rest)
    | 't' :: rest => (afterWord "rue".toList rest).map fun rest => (bool true, rest)
    | 'f' :: rest => (afterWord "alse".toList rest).map fun rest => (bool false, rest)
    | 'n' :: rest => (afterWord "ull".toList rest).map fun rest => (null, rest)
    | cs => do
      let (numeral, rest) ← splitNumeral cs
      let j ← numeral.toJson?
      return (j, rest)

/-- One or more values and the bracket that closes them. -/
def itemsAt : (fuel : Nat) → (depth : Nat) → List Char → Option (List Json × List Char)
  | 0, _, _ => none
  | fuel + 1, depth, cs => do
    let (j, rest) ← valueAt fuel depth cs
    match skipSpace rest with
    | ',' :: rest =>
      let (js, rest) ← itemsAt fuel depth rest
      return (j :: js, rest)
    | ']' :: rest => return ([j], rest)
    | _ => none

/-- One or more members and the brace that closes them. -/
def membersAt : (fuel : Nat) → (depth : Nat) → List Char → Option (List (String × Json) × List Char)
  | 0, _, _ => none
  | fuel + 1, depth, cs =>
    match skipSpace cs with
    | '"' :: rest => do
      let (key, rest) ← stringBody [] rest
      match skipSpace rest with
      | ':' :: rest =>
        let (j, rest) ← valueAt fuel depth rest
        match skipSpace rest with
        | ',' :: rest =>
          let (members, rest) ← membersAt fuel depth rest
          return ((String.ofList key, j) :: members, rest)
        | '\x7d' :: rest => return ([(String.ofList key, j)], rest)
        | _ => none
      | _ => none
    | _ => none

end

/-- Deepest nesting of collections. -/
def maxDepth : Nat := 127

/-- The value of a whole text. Every step of the reader but one a value takes a character. -/
def parse? (text : String) : Option Json := do
  let cs := text.toList
  let (j, rest) ← valueAt (2 * cs.length + 2) maxDepth cs
  if (skipSpace rest).isEmpty then some j else none

end FieldAccess.Json
