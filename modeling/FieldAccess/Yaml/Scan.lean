import FieldAccess.Yaml.Token

/-!
Scanning a YAML text into tokens. Indentation becomes tokens for the start and the end of blocks.
That a node is the key of a mapping shows only at the colon after it, so its place is kept and the
tokens for the key are put there afterwards; until then no token from that place on is settled.
-/
namespace FieldAccess.Yaml

/-- A node that may turn out to be a key. -/
structure PendingKey where
  /-- Number of tokens before it. -/
  place : Nat
  index : Nat
  line : Nat
  column : Nat
  /-- Nothing else can stand at this place. -/
  required : Bool
deriving Repr

structure Scan where
  cursor : Cursor
  /-- Tokens so far, the last one first. -/
  tokens : List Token := []
  /-- Their number. -/
  size : Nat := 0
  /-- Column of the innermost block, and of the blocks around it. -/
  indent : Int := -1
  outer : List Int := []
  /-- Key pending in the innermost collection, and those of the flow collections around it. -/
  pending : Option PendingKey := none
  around : List (Option PendingKey) := []
  /-- Whether a key may start here. -/
  keyAllowed : Bool := true
deriving Repr

namespace Scan

/-- Whether the place is inside a flow collection. -/
def inFlow (s : Scan) : Bool := !s.around.isEmpty

def emit (s : Scan) (t : Token) : Scan := { s with tokens := t :: s.tokens, size := s.size + 1 }

/-- Puts a token where only so many tokens stand before it. -/
def insert (s : Scan) (place : Nat) (t : Token) : Scan :=
  let later := s.size - place
  { s with tokens := s.tokens.take later ++ t :: s.tokens.drop later, size := s.size + 1 }

def allowKey (s : Scan) (b : Bool) : Scan := { s with keyAllowed := b }

/-- Gives up the pending key; fails when it is required. -/
def dropKey (s : Scan) : Except Fault Scan :=
  if s.pending.any (·.required) then .error .malformed else .ok { s with pending := none }

/-- Notes that a key may start here. -/
def saveKey (s : Scan) : Except Fault Scan :=
  if s.keyAllowed then
    s.dropKey.map fun s =>
      let c := s.cursor
      let required := !s.inFlow && s.indent == c.column
      { s with pending := some ⟨s.size, c.index, c.line, c.column, required⟩ }
  else .ok s

/-- A key has to be on one line and within 1024 bytes of its colon. -/
def isStale (s : Scan) (k : PendingKey) : Bool :=
  k.line < s.cursor.line || k.index + 1024 < s.cursor.index

/-- Keys that may still be one, the innermost first. -/
def liveKeys (s : Scan) : List PendingKey :=
  ((s.pending :: s.around).filterMap id).filter fun k => !s.isStale k

/-- Gives up stale keys; fails when one is required. -/
def dropStale (s : Scan) : Except Fault Scan :=
  let stale (k : Option PendingKey) : Bool := k.any s.isStale
  let kept (k : Option PendingKey) : Option PendingKey := if stale k then none else k
  if (s.pending :: s.around).any fun k => stale k && k.any (·.required) then .error .malformed
  else .ok { s with pending := kept s.pending, around := s.around.map kept }

/-- Opens a block at a column unless there is one. -/
def openBlock (s : Scan) (column : Nat) (place : Nat) (t : Token) : Scan :=
  if !s.inFlow && s.indent < column then
    { s.insert place t with indent := column, outer := s.indent :: s.outer }
  else s

/-- Columns of the blocks that stay open left of a column, and how many end. -/
def closing (column : Int) : Int → List Int → Nat × Int × List Int
  | indent, [] => (0, indent, [])
  | indent, o :: os =>
    if column < indent then
      let (n, rest) := closing column o os
      (n + 1, rest)
    else (0, indent, o :: os)

/-- Ends the blocks indented deeper than a column. -/
def closeBlocks (s : Scan) (column : Int) : Scan :=
  if s.inFlow then s
  else
    let (n, indent, outer) := closing column s.indent s.outer
    { s with tokens := List.replicate n .blockEnd ++ s.tokens, size := s.size + n, indent, outer }

/-- Moves to the next token, over blanks, comments and line breaks. Tabs are no indentation. A byte
order mark may start a line; it takes a column. -/
def skipGap : (fuel : Nat) → Scan → Scan
  | 0, s => s
  | fuel + 1, s =>
    let c := s.cursor
    let c := if c.column = 0 && c.isAt '\ufeff' then c.skip 1 else c
    let tabs := s.inFlow || !s.keyAllowed
    let c := c.skipWhile fun ch => ch == ' ' || (tabs && ch == '\t')
    let c := if c.isAt '#' then c.skipWhile fun ch => !isBreak ch else c
    if c.head?.any isBreak then
      skipGap fuel { s with cursor := c.lineBreak.2, keyAllowed := s.keyAllowed || !s.inFlow }
    else { s with cursor := c }

/-- Takes an indicator character and emits its token. -/
def indicator (s : Scan) (t : Token) : Scan := { s.emit t with cursor := s.cursor.skip 1 }

def endStream (s : Scan) : Except Fault Scan :=
  (s.closeBlocks (-1)).dropKey.map fun s => (s.allowKey false).emit .streamEnd

def directiveLine (s : Scan) : Except Fault Scan := do
  let s ← (s.closeBlocks (-1)).dropKey
  let (t, c) ← wellFormed (directive (s.cursor.skip 1))
  return { (s.allowKey false).emit t with cursor := c }

def marker (s : Scan) (t : Token) : Except Fault Scan :=
  (s.closeBlocks (-1)).dropKey.map fun s =>
    { (s.allowKey false).emit t with cursor := s.cursor.skip 3 }

def openFlow (s : Scan) (t : Token) : Except Fault Scan :=
  s.saveKey.map fun s =>
    { (s.allowKey true).indicator t with pending := none, around := s.pending :: s.around }

def closeFlow (s : Scan) (t : Token) : Except Fault Scan :=
  s.dropKey.map fun s =>
    let s := (s.allowKey false).indicator t
    match s.around with
    | [] => s
    | k :: ks => { s with pending := k, around := ks }

def flowEntry (s : Scan) : Except Fault Scan :=
  s.dropKey.map fun s => (s.allowKey true).indicator .flowEntry

/-- Opens a block here for an entry or a key; in a block it may only start where a key may. -/
def openHere (s : Scan) (t : Token) : Except Fault Scan :=
  if s.inFlow then .ok s
  else if s.keyAllowed then .ok (s.openBlock s.cursor.column s.size t)
  else .error .malformed

def blockEntry (s : Scan) : Except Fault Scan := do
  let s ← (← s.openHere .blockSequence).dropKey
  return (s.allowKey true).indicator .blockEntry

def explicitKey (s : Scan) : Except Fault Scan := do
  let s ← (← s.openHere .blockMapping).dropKey
  return (s.allowKey !s.inFlow).indicator .key

/-- A colon. It makes the pending node a key, or stands alone. -/
def valueMark (s : Scan) : Except Fault Scan :=
  match s.pending with
  | some k =>
    let s := (s.insert k.place .key).openBlock k.column k.place .blockMapping
    .ok ((({ s with pending := none }).allowKey false).indicator .value)
  | none => (s.openHere .blockMapping).map fun s => (s.allowKey !s.inFlow).indicator .value

def anchored (s : Scan) (token : String → Token) : Except Fault Scan := do
  let s ← s.saveKey
  let (name, c) ← wellFormed (anchorName (s.cursor.skip 1))
  return { (s.allowKey false).emit (token name) with cursor := c }

def tagMark (s : Scan) : Except Fault Scan := do
  let s ← s.saveKey
  let (tag, c) ← wellFormed (tagText s.inFlow s.cursor)
  return { (s.allowKey false).emit (.tag tag) with cursor := c }

def block (s : Scan) (fuel : Nat) (folded : Bool) : Except Fault Scan := do
  let s ← s.dropKey
  let (b, c) ← blockScalar folded s.indent fuel (s.cursor.skip 1)
  let style : Style := if folded then .folded else .literal
  return { (s.allowKey true).emit (.scalar b.text style) with cursor := c }

def quoted (s : Scan) (fuel : Nat) (single : Bool) : Except Fault Scan := do
  let s ← s.saveKey
  let (b, c) ← quotedScalar single fuel {} (s.cursor.skip 1)
  let style : Style := if single then .single else .double
  return { (s.allowKey false).emit (.scalar b.text style) with cursor := c }

/-- A plain scalar. A key may follow when it ends with a line. -/
def plain (s : Scan) (fuel : Nat) : Except Fault Scan := do
  let s ← s.saveKey
  let (b, broken, c) ← plainScalar s.inFlow (s.indent + 1).toNat fuel {} {} s.cursor
  return { (s.allowKey broken).emit (.scalar b.text .plain) with cursor := c }

/-- Whether a plain scalar may start with a character, given the one after it. -/
def startsPlain (flow : Bool) (ch : Char) (next : Option Char) : Bool :=
  !(isBlank ch || isBreak ch || "-?:,[]\x7b\x7d#&*!|>'\"%@\x60".toList.contains ch) ||
    (ch == '-' && !next.any isBlank) ||
    (!flow && (ch == '?' || ch == ':') && !endsWord next)

/-- Scans one token. -/
def step (s : Scan) (fuel : Nat) : Except Fault Scan := do
  let s := s.skipGap fuel
  let s ← s.dropStale
  let s := s.closeBlocks s.cursor.column
  let c := s.cursor
  match c.rest with
  | [] => s.endStream
  | ch :: _ =>
    let alone := endsWord (c.peek 1)
    if c.column = 0 && ch == '%' then s.directiveLine
    else if c.atMarker '-' then s.marker .documentStart
    else if c.atMarker '.' then s.marker .documentEnd
    else if ch == '[' then s.openFlow .flowSequence
    else if ch == '\x7b' then s.openFlow .flowMapping
    else if ch == ']' then s.closeFlow .flowSequenceEnd
    else if ch == '\x7d' then s.closeFlow .flowMappingEnd
    else if ch == ',' then s.flowEntry
    else if ch == '-' && alone then s.blockEntry
    else if ch == '?' && (s.inFlow || alone) then s.explicitKey
    else if ch == ':' && (s.inFlow || alone) then s.valueMark
    else if ch == '*' then s.anchored .reference
    else if ch == '&' then s.anchored .anchor
    else if ch == '!' then s.tagMark
    else if ch == '|' && !s.inFlow then s.block fuel false
    else if ch == '>' && !s.inFlow then s.block fuel true
    else if ch == '\'' then s.quoted fuel true
    else if ch == '"' then s.quoted fuel false
    else if startsPlain s.inFlow ch (c.peek 1) then s.plain fuel
    else .error .malformed

/-- The tokens that nothing can be put before any more. -/
def settled (s : Scan) : List Token :=
  let places := s.liveKeys.map PendingKey.place
  s.tokens.reverse.take (places.foldl min s.size)

/-- Scans to the end of the stream, or to a fault, which then is the last token. Every step takes a
character, so that fuel above the length of the text stays above the length of what is left. -/
def run : (fuel : Nat) → Scan → List Token
  | 0, s => s.settled ++ [.fault .malformed]
  | fuel + 1, s =>
    match s.step (fuel + 1) with
    | .error f => s.settled ++ [.fault f]
    | .ok s => if s.tokens.head? = some .streamEnd then s.tokens.reverse else run fuel s

end Scan

/-- Tokens of a text. The last one is the end of the stream or a fault. -/
def tokens (text : String) : List Token :=
  let cs := text.toList
  if cs.all isAllowed then Scan.run (cs.length + 2) { cursor := .ofText cs }
  else [.fault .malformed]

end FieldAccess.Yaml
