import FieldAccess.Yaml.Cursor

/-! Texts of scalars: plain, quoted and block scalars, with their folding of lines. -/
namespace FieldAccess.Yaml

/-- Characters that end a word in a flow collection. -/
def isFlowMark (c : Char) : Bool := ",[]\x7b\x7d".toList.contains c

/-- Blanks and line breaks between two words of a scalar, the last ones first. -/
structure Gap where
  /-- Blanks before the first line break. -/
  spaces : List Char := []
  /-- Whether there is a line break. -/
  broken : Bool := false
  firstBreak : List Char := []
  moreBreaks : List Char := []
deriving Repr

/-- Adds what a gap stands for: a single line feed becomes a space, more lose the first. -/
def Buffer.addGap (b : Buffer) (g : Gap) : Except Fault Buffer :=
  if g.broken then
    if g.firstBreak = ['\n'] then
      if g.moreBreaks.isEmpty then .ok (b.push ' ') else b.join g.moreBreaks
    else do
      let b ← b.join g.firstBreak
      b.join g.moreBreaks
  else b.join g.spaces

/-- Takes blanks and line breaks. Fails on a tab that stands before column `floor` of a new line. -/
def takeGap (floor : Nat) : (fuel : Nat) → Gap → Cursor → Except Fault (Gap × Cursor)
  | 0, g, c => .ok (g, c)
  | fuel + 1, g, c =>
    match c.head? with
    | none => .ok (g, c)
    | some ch =>
      if isBlank ch then
        if g.broken then
          if ch == '\t' && c.column < floor then .error .malformed
          else takeGap floor fuel g (c.skip 1)
        else takeGap floor fuel { g with spaces := ch :: g.spaces } (c.skip 1)
      else if isBreak ch then
        let (br, next) := c.lineBreak
        if g.broken then takeGap floor fuel { g with moreBreaks := br ++ g.moreBreaks } next
        else takeGap floor fuel { spaces := [], broken := true, firstBreak := br } next
      else .ok (g, c)

/-- Whether a text starts with a colon that may not stand in a flow collection. -/
def startsBadColon : List Char → Bool
  | ':' :: ch :: _ => isFlowMark ch || ch == '?'
  | _ => false

/-- A word of a plain scalar and the text after it. It ends at a blank, at a colon that ends a key,
and at what has a meaning in a flow collection. -/
def plainWord (flow : Bool) : List Char → List Char × List Char
  | [] => ([], [])
  | ch :: rest =>
    if isBlank ch || isBreak ch then ([], ch :: rest)
    else if ch == ':' && endsWord rest.head? then ([], ch :: rest)
    else if flow && (isFlowMark ch || startsBadColon (ch :: rest)) then ([], ch :: rest)
    else
      let (word, rest) := plainWord flow rest
      (ch :: word, rest)

/-- A plain scalar after a gap; also whether a line break follows it. The gap counts only when a
word comes after it. Fuel above the length of the text is enough, here and in what follows. -/
def plainScalar (flow : Bool) (floor : Nat) :
    (fuel : Nat) → Buffer → (gap : Gap) → Cursor → Except Fault (Buffer × Bool × Cursor)
  | 0, _, _, _ => .error .malformed
  | fuel + 1, b, gap, c =>
    if c.atMarker '-' || c.atMarker '.' || c.isAt '#' then .ok (b, gap.broken, c)
    else do
      let (word, rest) := plainWord flow c.rest
      let after := c.skip word.length
      let b ← if word.isEmpty then pure b else (b.addGap gap).map (·.pushAll word)
      let gap := if word.isEmpty then gap else {}
      if flow && startsBadColon rest then .error .malformed
      else if after.head?.all fun ch => !(isBlank ch || isBreak ch) then .ok (b, gap.broken, after)
      else
        let (gap, next) ← takeGap floor fuel gap after
        if !flow && next.column < floor then .ok (b, gap.broken, next)
        else plainScalar flow floor fuel b gap next

/-- A single character escape of a double quoted scalar. -/
def escaped? (c : Char) : Option Char :=
  match c with
  | '0' => some '\x00'
  | 'a' => some '\x07'
  | 'b' => some '\x08'
  | 't' => some '\t'
  | '\t' => some '\t'
  | 'n' => some '\n'
  | 'v' => some '\x0b'
  | 'f' => some '\x0c'
  | 'r' => some '\r'
  | 'e' => some '\x1b'
  | ' ' => some ' '
  | '"' => some '"'
  | '/' => some '/'
  | '\\' => some '\\'
  | 'N' => some '\u0085'
  | '_' => some '\u00a0'
  | 'L' => some '\u2028'
  | 'P' => some '\u2029'
  | _ => none

/-- Number of hexadecimal digits of a numeric escape. -/
def escapeWidth? (c : Char) : Option Nat :=
  match c with
  | 'x' => some 2
  | 'u' => some 4
  | 'U' => some 8
  | _ => none

def hexDigit? (c : Char) : Option Nat :=
  if c.isDigit then some (c.toNat - '0'.toNat)
  else if 'a' ≤ c && c ≤ 'f' then some (c.toNat - 'a'.toNat + 10)
  else if 'A' ≤ c && c ≤ 'F' then some (c.toNat - 'A'.toNat + 10)
  else none

/-- Value of exactly so many hexadecimal digits. -/
def hexValue? (n : Nat) (cs : List Char) : Option Nat :=
  if (cs.take n).length < n then none
  else (cs.take n).foldlM (fun acc c => (hexDigit? c).map (acc * 16 + ·)) 0

/-- The character with a given number, surrogates excluded. -/
def scalarValue? (n : Nat) : Option Char :=
  if (0xD800 ≤ n && n ≤ 0xDFFF) || 0x10FFFF < n then none else some (Char.ofNat n)

/-- How a word of a quoted scalar ends. -/
inductive WordEnd where
  | gap
  | quote
  /-- A backslash before a line break. -/
  | joined

/-- An escape after its backslash, and how many characters it takes. -/
def escape? : List Char → Option (Char × Nat)
  | [] => none
  | e :: digits =>
    match escapeWidth? e with
    | some n => ((hexValue? n digits).bind scalarValue?).map (·, n + 1)
    | none => (escaped? e).map (·, 1)

/-- Adds a word of a quoted scalar. -/
def quotedWord (single : Bool) :
    (fuel : Nat) → Buffer → Cursor → Except Fault (Buffer × WordEnd × Cursor)
  | 0, _, _ => .error .malformed
  | fuel + 1, b, c =>
    match c.rest with
    | [] => .ok (b, .gap, c)
    | ch :: rest =>
      let quote := if single then '\'' else '"'
      if isBlank ch || isBreak ch then .ok (b, .gap, c)
      else if single && ch == quote && rest.head? == some quote then
        quotedWord single fuel (b.push quote) (c.skip 2)
      else if ch == quote then .ok (b, .quote, c)
      else if !single && ch == '\\' then
        if rest.head?.any isBreak then .ok (b, .joined, (c.skip 1).lineBreak.2)
        else
          match escape? rest with
          | some (v, n) => quotedWord single fuel (b.push v) (c.skip (n + 1))
          | none => .error .malformed
      else quotedWord single fuel (b.push ch) (c.skip 1)

/-- A quoted scalar after its opening quote. -/
def quotedScalar (single : Bool) : (fuel : Nat) → Buffer → Cursor → Except Fault (Buffer × Cursor)
  | 0, _, _ => .error .malformed
  | fuel + 1, b, c =>
    if c.atMarker '-' || c.atMarker '.' || c.atEnd then .error .malformed
    else do
      let (b, wordEnd, next) ← quotedWord single (fuel + 1) b c
      let goOn (gap : Gap) : Except Fault (Buffer × Cursor) := do
        let (gap, next) ← takeGap 0 fuel gap next
        quotedScalar single fuel (← b.addGap gap) next
      match wordEnd with
      | .quote => return (b, next.skip 1)
      | .gap => goOn {}
      | .joined => if next.isAt '"' then return (b, next.skip 1) else goOn { broken := true }

/-- What becomes of the line breaks at the end of a block scalar. -/
inductive Chomping where
  | clip
  | strip
  | keep
deriving DecidableEq

def chomping? (c : Cursor) : Option Chomping :=
  if c.isAt '+' then some .keep else if c.isAt '-' then some .strip else none

/-- An indentation indicator; zero is none. -/
def increment? (c : Cursor) : Option Nat :=
  match c.head? with
  | some ch => if ch.isDigit then some (ch.toNat - '0'.toNat) else none
  | none => none

/-- Indicators after `|` or `>`, in either order. -/
def blockHeader (c : Cursor) : Option (Chomping × Nat × Cursor) :=
  let checked (chomping : Chomping) (n : Nat) (c : Cursor) : Option (Chomping × Nat × Cursor) :=
    if n = 0 then none else some (chomping, n, c.skip 1)
  match chomping? c with
  | some chomping =>
    let c := c.skip 1
    match increment? c with
    | some n => checked chomping n c
    | none => some (chomping, 0, c)
  | none =>
    match increment? c with
    | none => some (.clip, 0, c)
    | some n =>
      (checked .clip n c).map fun (_, n, c) =>
        match chomping? c with
        | some chomping => (chomping, n, c.skip 1)
        | none => (.clip, n, c)

/-- Takes indentation and empty lines. `indent` is zero as long as it is unknown; the widest
indentation met is given for that case. Fails on a tab in place of indentation. -/
def blockBreaks (indent : Nat) : (fuel : Nat) → (widest : Nat) → (breaks : List Char) → Cursor →
    Except Fault (Nat × List Char × Cursor)
  | 0, _, _, _ => .error .malformed
  | fuel + 1, widest, breaks, c =>
    let spaces := c.takeWhile (· == ' ')
    let n := if indent = 0 then spaces.length else min spaces.length (indent - c.column)
    let c := c.skip n
    let widest := max widest c.column
    if (indent = 0 || c.column < indent) && c.isAt '\t' then .error .malformed
    else if c.head?.any isBreak then
      let (br, next) := c.lineBreak
      blockBreaks indent fuel widest (br ++ breaks) next
    else .ok (widest, breaks, c)

/-- What follows the last line of a block scalar so far. -/
structure BlockGap where
  /-- Break that ended the line. -/
  lastBreak : List Char := []
  /-- Empty lines after it, the last one first. -/
  breaks : List Char := []
  /-- Whether the line starts with a blank. -/
  blank : Bool := false

/-- Adds what precedes a line. A folded scalar turns a single break between two lines that start
with no blank into a space. -/
def Buffer.addBlockGap (b : Buffer) (g : BlockGap) (folded blank : Bool) : Except Fault Buffer := do
  let b ←
    if folded && g.lastBreak.head? == some '\n' && !g.blank && !blank then
      pure (if g.breaks.isEmpty then b.push ' ' else b)
    else b.join g.lastBreak
  b.join g.breaks

/-- Lines of a block scalar at its indentation. -/
def blockLines (folded : Bool) (indent : Nat) : (fuel : Nat) → Buffer → BlockGap → Cursor →
    Except Fault (Buffer × BlockGap × Cursor)
  | 0, _, _, _ => .error .malformed
  | fuel + 1, b, gap, c =>
    if c.column = indent && !c.atEnd then do
      let blank := c.head?.any isBlank
      let line := c.takeWhile fun ch => !isBreak ch
      let b := (← b.addBlockGap gap folded blank).pushAll line
      let (lastBreak, next) := (c.skip line.length).lineBreak
      let (_, breaks, next) ← blockBreaks indent fuel 0 [] next
      blockLines folded indent fuel b { lastBreak, breaks, blank } next
    else .ok (b, gap, c)

/-- A block scalar after its first indicator, inside a block indented by `outer`. -/
def blockScalar (folded : Bool) (outer : Int) (fuel : Nat) (c : Cursor) :
    Except Fault (Buffer × Cursor) := do
  let (chomping, increment, c) ← wellFormed (blockHeader c)
  let c ← wellFormed c.finishLine
  let given : Nat :=
    if increment = 0 then 0
    else if 0 ≤ outer then outer.toNat + increment
    else increment
  let (widest, breaks, c) ← blockBreaks given fuel 0 [] c
  let indent := if given = 0 then max (max widest (outer + 1).toNat) 1 else given
  let (b, gap, c) ← blockLines folded indent fuel {} { breaks } c
  let b ← if chomping = .strip then pure b else b.join gap.lastBreak
  let b ← if chomping = .keep then b.join gap.breaks else pure b
  return (b, c)

end FieldAccess.Yaml
