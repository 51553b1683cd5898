import FieldAccess.Yaml.Buffer

/-! A place in a YAML text, and the character classes of YAML. -/
namespace FieldAccess.Yaml

/-- Characters a YAML text may hold. -/
def isAllowed (c : Char) : Bool :=
  let n := c.toNat
  n == 0x09 || n == 0x0A || n == 0x0D || (0x20 ≤ n && n ≤ 0x7E) || n == 0x85 ||
    (0xA0 ≤ n && n ≤ 0xFFFD) || 0x10000 ≤ n

def isBreak (c : Char) : Bool :=
  c == '\n' || c == '\r' || c == '\u0085' || c == '\u2028' || c == '\u2029'

def isBlank (c : Char) : Bool := c == ' ' || c == '\t'

/-- A blank, a line break or the end of the text. -/
def endsWord (c : Option Char) : Bool := c.all fun c => isBlank c || isBreak c

/-- A line break or the end of the text. -/
def endsLine (c : Option Char) : Bool := c.all isBreak

/-- Characters of anchors, tag handles and directive names. -/
def isWordChar (c : Char) : Bool := c.isAlphanum || c == '_' || c == '-'

/-- What is left of a text, and where it starts. Columns count characters. -/
structure Cursor where
  rest : List Char
  /-- Bytes before it. -/
  index : Nat := 0
  line : Nat := 0
  column : Nat := 0
deriving Repr

namespace Cursor

def ofText (cs : List Char) : Cursor := { rest := cs }

def head? (c : Cursor) : Option Char := c.rest.head?

def peek (c : Cursor) (n : Nat) : Option Char := c.rest[n]?

def isAt (c : Cursor) (ch : Char) : Bool := c.head? == some ch

def atEnd (c : Cursor) : Bool := c.rest.isEmpty

/-- Moves over characters that are no line breaks. -/
def skip (c : Cursor) (n : Nat) : Cursor :=
  { c with
    rest := c.rest.drop n, index := c.index + byteCount (c.rest.take n), column := c.column + n }

def takeWhile (c : Cursor) (p : Char → Bool) : List Char := c.rest.takeWhile p

/-- Moves over all characters of a class, none of them a line break. -/
def skipWhile (c : Cursor) (p : Char → Bool) : Cursor := c.skip (c.takeWhile p).length

/-- Moves to a later part of the same line. -/
def moveTo (c : Cursor) (rest : List Char) : Cursor := c.skip (c.rest.length - rest.length)

/-- Moves over a line break; carriage return and line feed are one break. The characters it stands
for in a scalar are given too. -/
def lineBreak (c : Cursor) : List Char × Cursor :=
  let next (rest : List Char) (bytes : Nat) : Cursor :=
    { rest, index := c.index + bytes, line := c.line + 1, column := 0 }
  match c.rest with
  | '\r' :: '\n' :: rest => (['\n'], next rest 2)
  | ch :: rest =>
    if ch == '\n' || ch == '\r' || ch == '\u0085' then (['\n'], next rest ch.utf8Size)
    else if isBreak ch then ([ch], next rest ch.utf8Size)
    else ([], c)
  | [] => ([], c)

/-- Three equal characters and a blank at the start of a line: `---` or `...`. -/
def atMarker (c : Cursor) (ch : Char) : Bool :=
  c.column == 0 && c.head? == some ch && c.peek 1 == some ch && c.peek 2 == some ch &&
    endsWord (c.peek 3)

/-- Moves over blanks and a comment to the end of the line, and over its break. Fails when there is
anything else. -/
def finishLine (c : Cursor) : Option Cursor :=
  let c := c.skipWhile isBlank
  let c := if c.isAt '#' then c.skipWhile fun ch => !isBreak ch else c
  if endsLine c.head? then some c.lineBreak.2 else none

end Cursor

end FieldAccess.Yaml
