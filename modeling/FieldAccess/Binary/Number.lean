import FieldAccess.Binary.Text

/-! Single and double precision numbers, by bit pattern. Two numbers are equal when their patterns
are, so the zeros differ and a NaN equals itself. -/
namespace FieldAccess

structure Single where
  bits : UInt32
deriving DecidableEq, Repr, Inhabited

structure Double where
  bits : UInt64
deriving DecidableEq, Repr, Inhabited

namespace Single

def zero : Single := ⟨0⟩

def text (x : Single) : String := Binary.fullText Binary.single x.bits.toNat

/-- The nearest number to an integer. -/
def ofInt (n : Int) : Single :=
  ⟨UInt32.ofNat (Binary.withSign Binary.single (n < 0) (Binary.ofRatio Binary.single n.natAbs 1))⟩

def toDouble (x : Single) : Double :=
  ⟨UInt64.ofNat (Binary.convert Binary.single Binary.double x.bits.toNat)⟩

end Single

namespace Double

def zero : Double := ⟨0⟩

def text (x : Double) : String := Binary.fullText Binary.double x.bits.toNat

/-- Rounds; too large a number becomes infinite. -/
def toSingle (x : Double) : Single :=
  ⟨UInt32.ofNat (Binary.convert Binary.double Binary.single x.bits.toNat)⟩

/-- The double nearest to a ratio of naturals, with a sign. -/
def ofRatio (negative : Bool) (num den : Nat) : Double :=
  ⟨UInt64.ofNat (Binary.withSign Binary.double negative (Binary.ofRatio Binary.double num den))⟩

def ofInt (n : Int) : Double := ofRatio (n < 0) n.natAbs 1

def isFinite (x : Double) : Bool :=
  match Binary.meaning Binary.double x.bits.toNat with
  | .finite .. => true
  | _ => false

/-- The number as a ratio, when it is finite and not negative. -/
def toRatio (x : Double) : Nat × Nat :=
  match Binary.meaning Binary.double x.bits.toNat with
  | .finite _ significand exponent => Binary.scale significand 1 exponent
  | _ => (0, 1)

/-- Product of two finite nonnegative numbers. -/
def mul (x y : Double) : Double :=
  let (a, b) := x.toRatio
  let (c, d) := y.toRatio
  ofRatio false (a * c) (b * d)

/-- Quotient of two finite nonnegative numbers. -/
def div (x y : Double) : Double :=
  let (a, b) := x.toRatio
  let (c, d) := y.toRatio
  ofRatio false (a * d) (b * c)

def neg (x : Double) : Double := ⟨x.bits ^^^ 0x8000000000000000⟩

end Double

end FieldAccess
