/-! Binary floating point by bit pattern: what a pattern stands for, and the pattern nearest to a
ratio of naturals. All arithmetic is exact. -/
namespace FieldAccess.Binary

/-- Widths of the stored fraction and of the exponent. -/
structure Format where
  fractionBits : Nat
  exponentBits : Nat
deriving DecidableEq, Repr

def single : Format := ⟨23, 8⟩

def double : Format := ⟨52, 11⟩

namespace Format

def bias (f : Format) : Nat := Nat.pow 2 (f.exponentBits - 1) - 1

/-- Exponent of the last place of the smallest numbers. -/
def minExponent (f : Format) : Int := 1 - (f.bias : Int) - (f.fractionBits : Int)

/-- Pattern of positive infinity. -/
def infinity (f : Format) : Nat := (Nat.pow 2 f.exponentBits - 1) * Nat.pow 2 f.fractionBits

def signBit (f : Format) : Nat := Nat.pow 2 (f.fractionBits + f.exponentBits)

end Format

/-- What a bit pattern stands for. A finite number is `significand * 2 ^ exponent`. -/
inductive Meaning where
  | nan
  | infinite (negative : Bool)
  | finite (negative : Bool) (significand : Nat) (exponent : Int)
deriving DecidableEq, Repr

def meaning (f : Format) (bits : Nat) : Meaning :=
  let negative := f.signBit ≤ bits
  let magnitude := bits % f.signBit
  let field := magnitude / Nat.pow 2 f.fractionBits
  let fraction := magnitude % Nat.pow 2 f.fractionBits
  if f.infinity < magnitude then .nan
  else if magnitude = f.infinity then .infinite negative
  else if field = 0 then .finite negative fraction f.minExponent
  else .finite negative (Nat.pow 2 f.fractionBits + fraction) (f.minExponent + (field : Int) - 1)

/-- Quotient rounded to the nearest natural, a half to the even neighbour. -/
def roundDiv (num den : Nat) : Nat :=
  let q := num / den
  let r := num % den
  if 2 * r < den then q
  else if den < 2 * r then q + 1
  else q + q % 2

/-- A positive ratio times a power of two, as a ratio. -/
def scale (num den : Nat) (exponent : Int) : Nat × Nat :=
  if 0 ≤ exponent then (num * Nat.pow 2 exponent.toNat, den)
  else (num, den * Nat.pow 2 (-exponent).toNat)

/-- The pattern nearest to `num / den`, ties to even; too large a ratio gives infinity. -/
def ofRatio (f : Format) (num den : Nat) : Nat :=
  if num = 0 then 0
  else
    let guess : Int := (num.log2 : Int) - (den.log2 : Int)
    let shifted := scale num den (-guess)
    let top := if shifted.1 < shifted.2 then guess - 1 else guess
    let last := max (top - (f.fractionBits : Int)) f.minExponent
    let (n, d) := scale num den (-last)
    let bits := (last - f.minExponent).toNat * Nat.pow 2 f.fractionBits + roundDiv n d
    min bits f.infinity

/-- Sets the sign of a pattern of a nonnegative number. -/
def withSign (f : Format) (negative : Bool) (magnitude : Nat) : Nat :=
  if negative then f.signBit + magnitude else magnitude

/-- The same number in another format, rounded if need be. -/
def convert (source target : Format) (bits : Nat) : Nat :=
  match meaning source bits with
  | .nan => target.infinity + Nat.pow 2 (target.fractionBits - 1)
  | .infinite negative => withSign target negative target.infinity
  | .finite negative significand exponent =>
    let (n, d) := scale significand 1 exponent
    withSign target negative (ofRatio target n d)

end FieldAccess.Binary
