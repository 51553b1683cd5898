import FieldAccess.Yaml.Node

/-! Documents of a stream: their directives, their root and their anchored nodes. -/
namespace FieldAccess.Yaml

open Parsing

/-- Directives before a document: at most one version, which must be known, and handles of tags. -/
structure Directives where
  versioned : Bool := false
  handles : Handles := []

def directives (d : Directives) : (fuel : Nat) → Parsing Directives
  | 0 => malformed
  | fuel + 1 => do
    match ← peek with
    | .version major minor =>
      if d.versioned || major ≠ 1 || (minor ≠ 1 && minor ≠ 2) then malformed
      else
        next
        directives { d with versioned := true } fuel
    | .tagHandle handle expansion =>
      if (d.handles.lookup handle).isSome then malformed
      else
        next
        directives { d with handles := d.handles ++ [(handle, expansion)] } fuel
    | _ => return d

def startsDocument (t : Token) : Bool :=
  match t with
  | .version _ _ | .tagHandle _ _ | .documentStart => true
  | _ => false

def endsDocument (t : Token) : Bool := startsDocument t || t = .documentEnd || t = .streamEnd

/-- Moves over end marks. -/
def skipEnds : (fuel : Nat) → Parsing Unit
  | 0 => malformed
  | fuel + 1 => do
    if (← peek) = .documentEnd then
      next
      skipEnds fuel

/-- The root of the next document, with one end mark after it. The first document needs no start
mark. -/
def root? (first : Bool) (fuel : Nat) : Parsing (Option Node) := do
  unless first do skipEnds fuel
  let ahead ← peek
  if ahead = .streamEnd then return none
  let root ←
    if first && !startsDocument ahead then node .standard true false fuel
    else
      let d ← directives {} fuel
      expect .documentStart
      nodeUnless endsDocument (d.handles ++ .standard) true false fuel
  if (← peek) = .documentEnd then next
  return some root

structure Document where
  root : Node
  /-- Anchored nodes by number. -/
  targets : Array (Option Node) := #[]
  /-- Scalars, aliases, and starts and ends of collections. -/
  count : Nat := 0

namespace Document

/-- Of the nodes that share a number the last one to start is kept. -/
def targetsOf (size : Nat) (anchored : List Anchored) : Array (Option Node) :=
  let latest := anchored.foldl (fun (found : Array (Option Anchored)) a =>
    match found[a.number]? with
    | some (some b) => if b.start < a.start then found.setIfInBounds a.number (some a) else found
    | _ => found.setIfInBounds a.number (some a)) (Array.replicate size none)
  latest.map fun a => a.map Anchored.node

/-- The node that an alias stands for. -/
def target? (d : Document) (n : Nat) : Option Node := d.targets[n]?.join

/-- How many aliases may be followed in all. -/
def allowance (d : Document) : Nat := 100 * max 1 d.count

/-- The first document of a text, and the tokens after it. Without any document it is a missing
node. -/
def first (text : String) : Except Fault (Document × List Token) := do
  let ts := tokens text
  let (root, s) ← (root? true (4 * ts.length + 8)).run { tokens := ts }
  match root with
  | none => return ({ root := .scalar none .plain "" }, s.tokens)
  | some root =>
    return ({ root, targets := targetsOf (s.anchored.length + 1) s.anchored, count := s.count },
      s.tokens)

/-- Fails unless no document follows. -/
def expectLast (ts : List Token) : Except Fault Unit := do
  let (root, _) ← (root? false (4 * ts.length + 8)).run { tokens := ts }
  if root.isSome then .error .malformed

end Document

end FieldAccess.Yaml
