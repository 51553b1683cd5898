import FieldAccess.Yaml.Scan

/-!
Nodes of a document, read from its tokens. An alias refers to its node by number. A fault of the
text is met where its token is looked at, so that what stands before it is judged first.
-/
namespace FieldAccess.Yaml

inductive Node where
  | scalar (tag : Option Tag) (style : Style) (text : String)
  | sequence (items : List Node)
  | mapping (entries : List (Node × Node))
  | reference (target : Nat)
deriving Repr, Inhabited

/-- A node that has an anchor. -/
structure Anchored where
  number : Nat
  /-- How much stands before it. -/
  start : Nat
  node : Node
deriving Repr

/-- What the handles of tags stand for. -/
abbrev Handles := List (String × Tag)

def Handles.standard : Handles :=
  [("!", Tag.ofString "!"), ("!!", Tag.ofString "tag:yaml.org,2002:")]

/-- The whole tag, or none when its handle is unknown. -/
def TagText.expand? (handles : Handles) (t : TagText) : Option Tag :=
  if t.handle.isEmpty then some t.suffix
  else (handles.lookup t.handle).map (· ++ t.suffix)

/-- The tokens left, and what is known of the document so far. -/
structure Source where
  tokens : List Token
  /-- Numbers of the anchors by name, the last one first. -/
  names : List (String × Nat) := []
  anchored : List Anchored := []
  /-- Scalars, aliases, and starts and ends of collections. -/
  count : Nat := 0

abbrev Parsing := StateT Source (Except Fault)

namespace Parsing

def malformed {α : Type} : Parsing α := throw .malformed

/-- The token ahead. -/
def peek : Parsing Token := do
  match (← get).tokens with
  | .fault f :: _ => throw f
  | t :: _ => return t
  | [] => malformed

/-- Takes a token. -/
def next : Parsing Unit := modify fun s => { s with tokens := s.tokens.drop 1 }

def count : Parsing Unit := modify fun s => { s with count := s.count + 1 }

/-- Takes an expected token. -/
def expect (t : Token) : Parsing Unit := do
  if (← peek) = t then next else malformed

/-- What stands for a missing node. -/
def absent : Parsing Node := do
  count
  return .scalar none .plain ""

/-- The node that an alias names must have started before it. -/
def reference (name : String) : Parsing Node := do
  match (← get).names.lookup name with
  | some n =>
    count
    return .reference n
  | none => malformed

/-- A node with an anchor takes the number of names known before it. A name that is given again
keeps that count, so that a later anchor may share its number. -/
def withAnchor (anchor : Option String) (content : Parsing Node) : Parsing Node := do
  let s ← get
  match anchor with
  | none =>
    count
    content
  | some name =>
    let number := s.names.length
    set { s with names := (name, number) :: s.names.filter (·.1 != name), count := s.count + 1 }
    let node ← content
    modify fun later => { later with anchored := ⟨number, s.count, node⟩ :: later.anchored }
    return node

/-- Anchor and tag before a node, in either order. -/
structure Properties where
  anchor : Option String := none
  tag : Option TagText := none

def properties : Parsing Properties := do
  match ← peek with
  | .anchor a =>
    next
    match ← peek with
    | .tag t =>
      next
      return { anchor := some a, tag := some t }
    | _ => return { anchor := some a }
  | .tag t =>
    next
    match ← peek with
    | .anchor a =>
      next
      return { anchor := some a, tag := some t }
    | _ => return { tag := some t }
  | _ => return {}

/-- The value of an entry after its mark; without the mark it is absent. -/
def afterMark (value : Parsing Node) : Parsing Node := do
  if (← peek) = .value then
    next
    value
  else absent

end Parsing

/-- Tokens that end an absent node, by the kind of collection around it. -/
def endsBlockItem (t : Token) : Bool := t = .blockEntry || t = .blockEnd

def endsBlockPart (t : Token) : Bool := t = .key || t = .value || t = .blockEnd

def endsBareItem (t : Token) : Bool := t = .blockEntry || endsBlockPart t

def endsFlowItem (t : Token) : Bool := t = .flowEntry || t = .flowSequenceEnd

def endsFlowPart (t : Token) : Bool := t = .flowEntry || t = .flowMappingEnd

open Parsing

mutual

/-- A node. In a block it may be a block collection; `bare` allows a sequence with no indentation of
its own. A node that has an anchor or a tag may lack its content. -/
def node (handles : Handles) (inBlock bare : Bool) : (fuel : Nat) → Parsing Node
  | 0 => malformed
  | fuel + 1 => do
    match ← peek with
    | .reference name =>
      next
      reference name
    | _ =>
      let props ← properties
      let ahead ← peek
      let tag ← liftM (wellFormed (props.tag.mapM (TagText.expand? handles)))
      match ahead, inBlock with
      | .blockEntry, _ =>
        if bare then withAnchor props.anchor (.sequence <$> bareItems handles [] fuel)
        else bareProperties props.anchor tag
      | .scalar text style, _ =>
        next
        withAnchor props.anchor (pure (.scalar tag style text))
      | .flowSequence, _ =>
        next
        withAnchor props.anchor (.sequence <$> flowItems handles [] fuel)
      | .flowMapping, _ =>
        next
        withAnchor props.anchor (.mapping <$> flowParts handles [] fuel)
      | .blockSequence, true =>
        next
        withAnchor props.anchor (.sequence <$> blockItems handles [] fuel)
      | .blockMapping, true =>
        next
        withAnchor props.anchor (.mapping <$> blockParts handles [] fuel)
      | _, _ => bareProperties props.anchor tag
where
  bareProperties (anchor : Option String) (tag : Option Tag) : Parsing Node :=
    if anchor.isSome || tag.isSome then withAnchor anchor (pure (.scalar tag .plain ""))
      else malformed

/-- A node, or the absent node in front of a token that ends it. -/
def nodeUnless (ends : Token → Bool) (handles : Handles) (inBlock bare : Bool) :
    (fuel : Nat) → Parsing Node
  | 0 => malformed
  | fuel + 1 => do
    if ends (← peek) then absent else node handles inBlock bare fuel

/-- Items of an indented sequence after those at hand, which are given last first. -/
def blockItems (handles : Handles) (items : List Node) : (fuel : Nat) → Parsing (List Node)
  | 0 => malformed
  | fuel + 1 => do
    match ← peek with
    | .blockEntry =>
      next
      let item ← nodeUnless endsBlockItem handles true false fuel
      blockItems handles (item :: items) fuel
    | .blockEnd =>
      next
      count
      return items.reverse
    | _ => malformed

/-- Items of a sequence with no indentation of its own. -/
def bareItems (handles : Handles) (items : List Node) : (fuel : Nat) → Parsing (List Node)
  | 0 => malformed
  | fuel + 1 => do
    match ← peek with
    | .blockEntry =>
      next
      let item ← nodeUnless endsBareItem handles true false fuel
      bareItems handles (item :: items) fuel
    | _ =>
      count
      return items.reverse

/-- Entries of an indented mapping. -/
def blockParts (handles : Handles) (entries : List (Node × Node)) :
    (fuel : Nat) → Parsing (List (Node × Node))
  | 0 => malformed
  | fuel + 1 => do
    match ← peek with
    | .key =>
      next
      let key ← nodeUnless endsBlockPart handles true true fuel
      let value ← afterMark (nodeUnless endsBlockPart handles true true fuel)
      blockParts handles ((key, value) :: entries) fuel
    | .blockEnd =>
      next
      count
      return entries.reverse
    | _ => malformed

/-- Items of a flow sequence; after the first they need a comma. An item with a key is a mapping of
one entry, and a missing key takes the token after it along. -/
def flowItems (handles : Handles) (items : List Node) : (fuel : Nat) → Parsing (List Node)
  | 0 => malformed
  | fuel + 1 => do
    unless items.isEmpty || (← peek) = .flowSequenceEnd do expect .flowEntry
    match ← peek with
    | .flowSequenceEnd =>
      next
      count
      return items.reverse
    | .key =>
      next
      count
      let ahead ← peek
      let key ←
        if ahead = .value || endsFlowItem ahead then
          next
          absent
        else node handles false false fuel
      let value ← afterMark (nodeUnless endsFlowItem handles false false fuel)
      count
      flowItems handles (.mapping [(key, value)] :: items) fuel
    | _ =>
      let item ← node handles false false fuel
      flowItems handles (item :: items) fuel

/-- Entries of a flow mapping; after the first they need a comma. -/
def flowParts (handles : Handles) (entries : List (Node × Node)) :
    (fuel : Nat) → Parsing (List (Node × Node))
  | 0 => malformed
  | fuel + 1 => do
    unless entries.isEmpty || (← peek) = .flowMappingEnd do expect .flowEntry
    match ← peek with
    | .flowMappingEnd =>
      next
      count
      return entries.reverse
    | .key =>
      next
      let key ← nodeUnless (fun t => t = .value || endsFlowPart t) handles false false fuel
      let value ← afterMark (nodeUnless endsFlowPart handles false false fuel)
      flowParts handles ((key, value) :: entries) fuel
    | _ =>
      let key ← node handles false false fuel
      let value ← absent
      flowParts handles ((key, value) :: entries) fuel

end

end FieldAccess.Yaml
