import FieldAccess.Binary.Shortest

/-! Texts of decimals: written out in full, or in scientific form. -/
namespace FieldAccess.Binary

def zeros (n : Nat) : String := String.ofList (List.replicate n '0')

namespace Decimal

def digitChars (d : Decimal) : List Char := Nat.toDigits 10 d.digits

/-- Exponent of the first digit. -/
def leading (d : Decimal) : Int := (d.digitChars.length : Int) + d.exponent - 1

/-- All digits in place, without an exponent; a whole number has no point. -/
def positional (d : Decimal) : String :=
  let cs := d.digitChars
  if 0 ≤ d.exponent then String.ofList cs ++ zeros d.exponent.toNat
  else
    let point := (cs.length : Int) + d.exponent
    if 0 < point then
      String.ofList (cs.take point.toNat) ++ "." ++ String.ofList (cs.drop point.toNat)
    else "0." ++ zeros (-point).toNat ++ String.ofList cs

/-- One digit before the point, and the exponent with its sign. -/
def scientific (d : Decimal) : String :=
  let mantissa :=
    match d.digitChars with
    | [] => "0"
    | [c] => c.toString
    | c :: cs => c.toString ++ "." ++ String.ofList cs
  let e := d.leading
  mantissa ++ (if e < 0 then "e-" else "e+") ++ Nat.repr e.natAbs

end Decimal

/-- Written out in full, a tie going up; zero keeps its sign. -/
def fullText (f : Format) (bits : Nat) : String :=
  match meaning f bits with
  | .nan => "NaN"
  | .infinite negative => if negative then "-inf" else "inf"
  | .finite negative significand exponent =>
    let text := if significand = 0 then "0" else (shortest .up f significand exponent).positional
    if negative then "-" ++ text else text

/-- A number of a JSON text: in full with at least one decimal when the first digit stands for
`10 ^ -5` to `10 ^ 15`, else in scientific form; a tie goes to the even digit. JSON has no text for
the rest. -/
def jsonText? (f : Format) (bits : Nat) : Option String :=
  match meaning f bits with
  | .nan | .infinite _ => none
  | .finite negative significand exponent =>
    let text :=
      if significand = 0 then "0.0"
      else
        let d := shortest .even f significand exponent
        if -5 ≤ d.leading ∧ d.leading ≤ 15 then
          if 0 ≤ d.exponent then d.positional ++ ".0" else d.positional
        else d.scientific
    some (if negative then "-" ++ text else text)

end FieldAccess.Binary
