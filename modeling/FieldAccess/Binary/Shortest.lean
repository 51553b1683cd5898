import FieldAccess.Binary.Format

/-! The decimal with the fewest digits that reads back as a given binary number, and of those the
nearest one. -/
namespace FieldAccess.Binary

/-- Which of two equally near decimals is taken: the upper one, or the one with an even last
digit. -/
inductive Tie where
  | up
  | even
deriving DecidableEq, Repr

/-- Whether the upper neighbour is taken, the lower one being `down` and the value halfway. -/
def Tie.takesUpper (tie : Tie) (down : Nat) : Bool :=
  match tie with
  | up => true
  | even => down % 2 = 1

/-- `digits * 10 ^ exponent`. -/
structure Decimal where
  digits : Nat
  exponent : Int
deriving DecidableEq, Repr

/-- The reals that round to a number, as numerators over a common denominator. -/
structure Neighbourhood where
  low : Nat
  value : Nat
  high : Nat
  den : Nat
  /-- Whether the ends belong to it. -/
  closed : Bool
deriving DecidableEq, Repr

/-- Neighbourhood of `significand * 2 ^ exponent`. It reaches half a step on both sides, and only a
quarter step below the lowest number of a binade. -/
def neighbourhood (f : Format) (significand : Nat) (exponent : Int) : Neighbourhood :=
  let narrow := significand = Nat.pow 2 f.fractionBits ∧ f.minExponent < exponent
  let (unit, den) := scale 1 4 exponent
  { low := (if narrow then 4 * significand - 1 else 4 * significand - 2) * unit
    value := 4 * significand * unit
    high := (4 * significand + 2) * unit
    den := den
    closed := significand % 2 = 0 }

/-- Number of zeros to put behind `num` before it reaches `den`. -/
def leadingZeros (den : Nat) : (fuel : Nat) → (num : Nat) → Nat
  | 0, _ => 0
  | fuel + 1, num => if den ≤ num then 0 else leadingZeros den fuel (num * 10) + 1

/-- Decimal exponent of the first digit of `num / den`. -/
def leadingExponent (num den : Nat) : Int :=
  if den ≤ num then ((Nat.toDigits 10 (num / den)).length : Int) - 1
  else -(leadingZeros den (den.log2 + 1) num : Int)

/-- Whether `n * 10 ^ exponent` lies in a neighbourhood. -/
def Neighbourhood.contains (nb : Neighbourhood) (n : Nat) (exponent : Int) : Bool :=
  let (x, low, high) :=
    if 0 ≤ exponent then (n * Nat.pow 10 exponent.toNat * nb.den, nb.low, nb.high)
    else
      let p := Nat.pow 10 (-exponent).toNat
      (n * nb.den, nb.low * p, nb.high * p)
  if nb.closed then low ≤ x && x ≤ high else low < x && x < high

/-- The neighbour of the value on the grid of multiples of `10 ^ exponent` that reads back; of two
the nearer. -/
def onGrid (tie : Tie) (nb : Neighbourhood) (exponent : Int) : Option Nat :=
  let (num, den) :=
    if 0 ≤ exponent then (nb.value, nb.den * Nat.pow 10 exponent.toNat)
    else (nb.value * Nat.pow 10 (-exponent).toNat, nb.den)
  let down := num / den
  let up := down + 1
  let downFits := 0 < down && nb.contains down exponent
  let upFits := nb.contains up exponent
  if downFits && upFits then
    let twice := 2 * (num % den)
    if den < twice || twice = den && tie.takesUpper down then some up else some down
  else if downFits then some down
  else if upFits then some up
  else none

/-- Tries grids of growing fineness. -/
def refine (tie : Tie) (nb : Neighbourhood) (leading : Int) :
    (fuel : Nat) → (places : Nat) → Decimal
  | 0, places => ⟨nb.value / nb.den, -(places : Int)⟩
  | fuel + 1, places =>
    let exponent := leading - (places : Int)
    match onGrid tie nb exponent with
    | some n => ⟨n, exponent⟩
    | none => refine tie nb leading fuel (places + 1)

/-- Moves trailing zeros of the digits into the exponent. -/
def normalize : (fuel : Nat) → Decimal → Decimal
  | 0, d => d
  | fuel + 1, d =>
    if d.digits % 10 = 0 then normalize fuel ⟨d.digits / 10, d.exponent + 1⟩ else d

/-- The shortest decimal of a positive number. Seventeen digits are always enough. -/
def shortest (tie : Tie) (f : Format) (significand : Nat) (exponent : Int) : Decimal :=
  let nb := neighbourhood f significand exponent
  normalize 18 (refine tie nb (leadingExponent nb.value nb.den) 17 0)

end FieldAccess.Binary
