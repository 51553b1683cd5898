import FieldAccess.Json.Basic

/-! Reading JSON numbers. A numeral without fraction and exponent that fits in 64 bits is a whole
number. Any other becomes a double: its digits are gathered while they fit in 64 bits, and the
result is multiplied or divided once by a power of ten. A numeral beyond the doubles is refused. -/
namespace FieldAccess.Json

/-- Parts of a numeral; digits as values. -/
structure Numeral where
  negative : Bool
  whole : List Nat
  /-- Digits after the point, at least one if there is a point. -/
  fraction : List Nat
  /-- Sign and digits of the exponent. -/
  power : Option (Bool × List Nat)
  /-- No point and no exponent was written. -/
  plain : Bool
deriving Repr

def digitValue (c : Char) : Nat := c.toNat - '0'.toNat

def splitDigits (cs : List Char) : List Nat × List Char :=
  ((cs.takeWhile Char.isDigit).map digitValue, cs.dropWhile Char.isDigit)

/-- The part after the whole digits: fraction, then exponent. -/
def splitPower : List Char → Option (Option (Bool × List Nat) × List Char)
  | c :: cs =>
    if c = 'e' ∨ c = 'E' then
      let (negative, cs) :=
        match cs with
        | '+' :: rest => (false, rest)
        | '-' :: rest => (true, rest)
        | _ => (false, cs)
      match splitDigits cs with
      | ([], _) => none
      | (ds, rest) => some (some (negative, ds), rest)
    else some (none, c :: cs)
  | [] => some (none, [])

def splitFraction : List Char → Option (List Nat × List Char)
  | '.' :: cs =>
    match splitDigits cs with
    | ([], _) => none
    | (ds, rest) => some (ds, rest)
  | cs => some ([], cs)

/-- Splits a numeral from the front of a text. A leading zero stands alone. -/
def splitNumeral (cs : List Char) : Option (Numeral × List Char) := do
  let (negative, cs) :=
    match cs with
    | '-' :: rest => (true, rest)
    | _ => (false, cs)
  let (whole, rest) ←
    match splitDigits cs with
    | ([], _) => none
    | (0 :: _ :: _, _) => none
    | (ds, rest) => some (ds, rest)
  let (fraction, afterFraction) ← splitFraction rest
  let (power, afterPower) ← splitPower afterFraction
  return ({ negative, whole, fraction, power, plain := fraction.isEmpty && power.isNone },
    afterPower)

def maxWord : Nat := 0xFFFFFFFFFFFFFFFF

/-- Appends digits while the result fits in 64 bits; also gives the number of digits left over. -/
def gather : Nat → List Nat → Nat × Nat
  | acc, [] => (acc, 0)
  | acc, d :: ds =>
    if maxWord < acc * 10 + d then (acc, ds.length + 1) else gather (acc * 10 + d) ds

def powerOfTen (k : Nat) : Double := Double.ofRatio false (Nat.pow 10 k) 1

/-- A double times a power of ten, by steps of at most `10 ^ 308`. Zero is reached before the fuel
ends. -/
def scaleByTen : (fuel : Nat) → Double → Int → Option Double
  | 0, _, _ => none
  | fuel + 1, x, k =>
    if k.natAbs ≤ 308 then
      if 0 ≤ k then
        let y := x.mul (powerOfTen k.natAbs)
        if y.isFinite then some y else none
      else some (x.div (powerOfTen k.natAbs))
    else if x = Double.zero then some x
    else if 0 ≤ k then none
    else scaleByTen fuel (x.div (powerOfTen 308)) (k + 308)

def ofDigits (ds : List Nat) : Nat := ds.foldl (fun acc d => acc * 10 + d) 0

def maxPower : Nat := 0x7FFFFFFF

namespace Numeral

/-- Digits and exponent of ten before the written exponent is applied. -/
def significand (n : Numeral) : Nat × Int :=
  let (acc, dropped) := gather 0 n.whole
  let (acc, left) := gather acc n.fraction
  (acc, (dropped : Int) - ((n.fraction.length - left : Nat) : Int))

def toDouble? (n : Numeral) : Option Double := do
  let (digits, exponent) := n.significand
  let magnitude ←
    match n.power with
    | none => scaleByTen 4 (Double.ofRatio false digits 1) exponent
    | some (negative, ds) =>
      let k := ofDigits ds
      if maxPower < k then
        if digits ≠ 0 ∧ ¬ negative then none else some Double.zero
      else
        scaleByTen 4 (Double.ofRatio false digits 1)
          (if negative then exponent - (k : Int) else exponent + (k : Int))
  return if n.negative then magnitude.neg else magnitude

def toJson? (n : Numeral) : Option Json :=
  let k := ofDigits n.whole
  if n.plain ∧ ¬ n.negative ∧ k ≤ maxWord then some (.int k)
  else if n.plain ∧ n.negative ∧ 0 < k ∧ k ≤ 0x8000000000000000 then some (.int (-(k : Int)))
  else n.toDouble?.map .float

end Numeral

end FieldAccess.Json
