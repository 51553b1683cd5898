import FieldAccess.Yaml.Document

/-!
Reading values of known types from a document. The wanted type decides what a scalar means. Aliases
are followed where they are read, a limited number of times.
-/
namespace FieldAccess.Yaml

/-- A reading: the document at hand, and how many aliases may still be followed. -/
abbrev Reading (α : Type) := ReaderT Document (StateT Nat Option) α

namespace Reading

def fail {α : Type} : Reading α := fun _ _ => none

/-- Follows an alias. -/
def resolve : Node → Reading Node
  | .reference n => fun d left =>
    match left with
    | 0 => none
    | left + 1 => (d.target? n).map (·, left)
  | n => pure n

/-- Text of a scalar of any style. -/
def text (n : Node) : Reading String := do
  match ← resolve n with
  | .scalar _ _ s => pure s
  | _ => fail

def boolOf? (s : String) : Option Bool :=
  if s = "true" || s = "True" || s = "TRUE" then some true
  else if s = "false" || s = "False" || s = "FALSE" then some false
  else none

def ofOption {α : Type} : Option α → Reading α
  | some a => pure a
  | none => fail

def boolTag : Tag := Tag.ofString "tag:yaml.org,2002:bool"

/-- A truth value: a plain scalar, or a block scalar that is tagged as one. -/
def bool (n : Node) : Reading Bool := do
  match ← resolve n with
  | .scalar tag style s =>
    if style = .plain || (style = .literal && tag = some boolTag) then
      ofOption (boolOf? s)
    else fail
  | _ => fail

/-- An empty plain scalar stands for a missing value. -/
def isAbsent : Node → Bool
  | .scalar _ style s => style = .plain && s.isEmpty
  | _ => false

/-- A list; a missing value is the empty list. -/
def list {α : Type} (item : Node → Reading α) (n : Node) : Reading (List α) := do
  match ← resolve n with
  | .sequence ns => ns.mapM item
  | n => if isAbsent n then pure [] else fail

/-- Entries of a structure whose keys are known. Other keys are skipped, and no known key comes
twice. -/
def known (keys : List String) : List (Node × Node) → Reading (List (String × Node))
  | [] => pure []
  | (k, v) :: rest => do
    let key ← text k
    let more ← known keys rest
    if keys.contains key then
      if (more.lookup key).isSome then fail else pure ((key, v) :: more)
    else pure more

/-- Entries of a structure; a missing value has none. -/
def record (keys : List String) (n : Node) : Reading (List (String × Node)) := do
  match ← resolve n with
  | .mapping entries => known keys entries
  | n => if isAbsent n then pure [] else fail

/-- An entry that has to be there. -/
def field {α : Type} (fields : List (String × Node)) (key : String) (read : Node → Reading α) :
    Reading α :=
  match fields.lookup key with
  | some n => read n
  | none => fail

/-- An entry with a default. -/
def fieldOr {α : Type} (fields : List (String × Node)) (key : String) (default : α)
    (read : Node → Reading α) : Reading α :=
  match fields.lookup key with
  | some n => read n
  | none => pure default

/-- Plain scalars that stand for nothing. -/
def isNullText (s : String) : Bool := s.isEmpty || s = "~" || s = "null" || s = "Null" || s = "NULL"

/-- A choice by name: the text of a scalar, or a local tag on a scalar that stands for nothing. -/
def choice {α : Type} (ofName? : String → Option α) (n : Node) : Reading α := do
  match ← resolve n with
  | .scalar tag style s =>
    match tag.bind Tag.localName? with
    | some name => if style = .plain && isNullText s then ofOption (ofName? name) else fail
    | none => ofOption (ofName? s)
  | _ => fail

end Reading

/-- Reads a whole text, which holds one document at most. What follows the document is looked at
last. -/
def read {α : Type} (read : Node → Reading α) (text : String) : Except Fault α := do
  let (d, rest) ← Document.first text
  let (a, _) ← wellFormed ((read d.root).run d |>.run d.allowance)
  Document.expectLast rest
  return a

end FieldAccess.Yaml
