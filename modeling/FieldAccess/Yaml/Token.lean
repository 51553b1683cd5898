import FieldAccess.Yaml.Scalar

/-! Tokens of YAML, and the texts of names, tags and directives. -/
namespace FieldAccess.Yaml

inductive Style where
  | plain
  | single
  | double
  | literal
  | folded
deriving DecidableEq, Repr

/-- A tag as bytes. They need not encode characters, and a null byte ends them. -/
abbrev Tag := List UInt8

namespace Tag

def ofString (s : String) : Tag := s.toUTF8.toList

/-- The bytes up to the first null byte. -/
def cut (bytes : Tag) : Tag := bytes.takeWhile (· ≠ 0)

def text? (t : Tag) : Option String := String.fromUTF8? ⟨t.toArray⟩

/-- The name of a local tag: the text after its exclamation mark, or the mark alone. -/
def localName? : Tag → Option String
  | [] => none
  | mark :: name =>
    if mark = '!'.toUInt8 then text? (if name.isEmpty then [mark] else name) else none

end Tag

/-- A tag as written: a handle that stands for the first part of the tag, and the rest. An empty
handle stands for nothing. -/
structure TagText where
  handle : String
  suffix : Tag
deriving DecidableEq, Repr

inductive Token where
  | streamEnd
  | version (major minor : Nat)
  | tagHandle (handle : String) (expansion : Tag)
  | documentStart
  | documentEnd
  | blockSequence
  | blockMapping
  | blockEnd
  | flowSequence
  | flowSequenceEnd
  | flowMapping
  | flowMappingEnd
  | blockEntry
  | flowEntry
  | key
  | value
  | reference (name : String)
  | anchor (name : String)
  | tag (text : TagText)
  | scalar (text : String) (style : Style)
  /-- Nothing can be read from here on. -/
  | fault (f : Fault)
deriving DecidableEq, Repr

/-- Name of an anchor or alias, after its indicator. -/
def anchorName (c : Cursor) : Option (String × Cursor) :=
  let name := c.takeWhile isWordChar
  let next := c.skip name.length
  if name.isEmpty then none
  else if endsWord next.head? || next.head?.any ("?:,]\x7d%@\x60".toList.contains ·) then
    some (String.ofList name, next)
  else none

/-- Characters of a tag. Commas and square brackets belong to it only where the tag is delimited in
another way. -/
def isTagChar (delimited : Bool) (c : Char) : Bool :=
  isWordChar c || ";/?:@&=+$.%!~*'()".toList.contains c || (delimited && ",[]".toList.contains c)

/-- Number of bytes of an encoded character, by its first byte. -/
def encodedWidth (byte : Nat) : Nat :=
  if byte < 0x80 then 1
  else if byte / 0x20 = 6 then 2
  else if byte / 0x10 = 14 then 3
  else if byte / 8 = 30 then 4
  else 0

/-- A percent sign and two hexadecimal digits. -/
def percentByte? (cs : List Char) : Option Nat :=
  match cs with
  | '%' :: digits => hexValue? 2 digits
  | _ => none

/-- Continuation bytes of a character, percent encoded. -/
def moreBytes? : (n : Nat) → List Char → Option (List Nat)
  | 0, _ => some []
  | n + 1, cs =>
    match percentByte? cs with
    | some b => if b / 0x40 = 2 then (moreBytes? n (cs.drop 3)).map (b :: ·) else none
    | none => none

/-- Bytes of a tag; a percent sign must start an encoded character. -/
def tagBytes (delimited : Bool) : (fuel : Nat) → List Char → Option (Tag × List Char)
  | 0, cs => some ([], cs)
  | fuel + 1, cs =>
    match cs with
    | [] => some ([], [])
    | '%' :: rest =>
      match percentByte? ('%' :: rest) with
      | none => none
      | some first =>
        let width := encodedWidth first
        if width = 0 then none
        else
          match moreBytes? (width - 1) (rest.drop 2) with
          | none => none
          | some more =>
            (tagBytes delimited fuel (cs.drop (3 * width))).map fun (bytes, r) =>
              ((first :: more).map UInt8.ofNat ++ bytes, r)
    | ch :: rest =>
      if isTagChar delimited ch then
        (tagBytes delimited fuel rest).map fun (bytes, r) => (ch.toUInt8 :: bytes, r)
      else some ([], ch :: rest)

def tagPart (delimited : Bool) (c : Cursor) : Option (Tag × Cursor) :=
  (tagBytes delimited c.rest.length c.rest).map fun (bytes, rest) => (bytes, c.moveTo rest)

/-- A handle: `!`, `!!` or `!name!`; without its last mark it is the start of a tag. -/
def handleChars (c : Cursor) : Option (List Char × Cursor) :=
  if c.isAt '!' then
    let name := (c.skip 1).takeWhile isWordChar
    let next := c.skip (1 + name.length)
    if next.isAt '!' then some ('!' :: name ++ ['!'], next.skip 1) else some ('!' :: name, next)
  else none

/-- A tag at its `!`. A comma may follow it inside a flow collection. -/
def tagText (flow : Bool) (c : Cursor) : Option (TagText × Cursor) := do
  let (tag, next) ←
    if c.peek 1 == some '<' then
      match tagPart true (c.skip 2) with
      | some (uri, next) =>
        if !uri.isEmpty && next.isAt '>' then some (⟨"", uri.cut⟩, next.skip 1) else none
      | none => none
    else
      match handleChars c with
      | none => none
      | some (handle, next) =>
        match tagPart false next with
        | none => none
        | some (bytes, next) =>
          if 1 < handle.length && handle.getLast? == some '!' then
            if bytes.isEmpty then none else some (⟨String.ofList handle, bytes.cut⟩, next)
          else
            let suffix : Tag := (handle.drop 1).map Char.toUInt8 ++ bytes.cut
            if suffix.isEmpty then some (⟨"", Tag.ofString "!"⟩, next)
            else some (⟨"!", suffix⟩, next)
  if endsWord next.head? || (flow && next.isAt ',') then return (tag, next) else none

/-- A version number of at most nine digits. -/
def versionNumber (c : Cursor) : Option (Nat × Cursor) :=
  let digits := c.takeWhile Char.isDigit
  if digits.isEmpty || 9 < digits.length then none
  else some (digits.foldl (fun n d => n * 10 + (d.toNat - '0'.toNat)) 0, c.skip digits.length)

/-- A directive after its `%`, with the rest of its line. -/
def directive (c : Cursor) : Option (Token × Cursor) := do
  let name := c.takeWhile isWordChar
  let c := c.skip name.length
  if name = "YAML".toList && endsWord c.head? then
    let (major, c) ← versionNumber (c.skipWhile isBlank)
    if !c.isAt '.' then none
    let (minor, c) ← versionNumber (c.skip 1)
    return (.version major minor, ← c.finishLine)
  else if name = "TAG".toList && endsWord c.head? then
    let (handle, c) ← handleChars (c.skipWhile isBlank)
    if handle ≠ ['!'] && handle.getLast? ≠ some '!' then none
    if !c.head?.any isBlank then none
    let (expansion, c) ← tagPart true (c.skipWhile isBlank)
    if expansion.isEmpty || !endsWord c.head? then none
    return (.tagHandle (String.ofList handle) expansion.cut, ← c.finishLine)
  else none

end FieldAccess.Yaml
