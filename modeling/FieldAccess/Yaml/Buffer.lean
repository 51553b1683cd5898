/-!
The text of a scalar while it is gathered. Its space is counted in bytes and doubles when a single
character comes close to its end. A run of blanks or line breaks between two words is taken over
whole, and the space does not grow for it.
-/
namespace FieldAccess.Yaml

/-- Why a text gives no value. -/
inductive Fault where
  /-- It is not well formed, or holds something else than what is wanted. -/
  | malformed
  /-- A run of blanks or line breaks is longer than the space left in a scalar. -/
  | overflow
deriving DecidableEq, Repr

/-- What must be there in a well formed text. -/
def wellFormed {α : Type} : Option α → Except Fault α
  | some a => .ok a
  | none => .error .malformed

def byteCount (cs : List Char) : Nat := cs.foldl (fun n c => n + c.utf8Size) 0

structure Buffer where
  /-- Characters so far, the last one first. -/
  chars : List Char := []
  used : Nat := 0
  size : Nat := 16
deriving Repr

namespace Buffer

/-- Adds a character. At least five bytes stay free before it. -/
def push (b : Buffer) (ch : Char) : Buffer :=
  { chars := ch :: b.chars
    used := b.used + ch.utf8Size
    size := if b.size ≤ b.used + 5 then 2 * b.size else b.size }

def pushAll (b : Buffer) (cs : List Char) : Buffer := cs.foldl push b

/-- Adds a run of characters as a whole, given with the last one first. -/
def join (b : Buffer) (run : List Char) : Except Fault Buffer :=
  let used := b.used + byteCount run
  if b.size < used then .error .overflow
  else .ok { b with chars := run ++ b.chars, used }

def text (b : Buffer) : String := String.ofList b.chars.reverse

end Buffer

end FieldAccess.Yaml
