import FieldAccess.Text

/-! Tokens of a type text. Names are maximal runs of name characters; blanks only separate. -/
namespace FieldAccess.TypeDesc

inductive Token where
  | ident (name : String)
  | openAngle
  | closeAngle
  | comma
deriving DecidableEq, Repr

namespace Token

def isNameChar (c : Char) : Bool :=
  Text.isAlphanumeric c || c == '_' || c == '.' || c == '$'

/-- The name whose characters were gathered in reverse, before the tokens that follow it. -/
def close (pending : List Char) (rest : List Token) : List Token :=
  match pending with
  | [] => rest
  | c :: cs => ident (String.ofList (c :: cs).reverse) :: rest

/-- Tokens of a text; the error is the first character that belongs to none.
`pending` holds the characters of an unfinished name, last one first. -/
def scan (pending : List Char) : List Char → Except Char (List Token)
  | [] => .ok (close pending [])
  | c :: cs =>
    if isNameChar c then scan (c :: pending) cs
    else if c = '<' then (fun ts => close pending (openAngle :: ts)) <$> scan [] cs
    else if c = '>' then (fun ts => close pending (closeAngle :: ts)) <$> scan [] cs
    else if c = ',' then (fun ts => close pending (comma :: ts)) <$> scan [] cs
    else if Text.isBlank c then close pending <$> scan [] cs
    else .error c

def ofText (s : String) : Except Char (List Token) := scan [] s.toList

end Token

end FieldAccess.TypeDesc
