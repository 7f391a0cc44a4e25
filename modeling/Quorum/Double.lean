/-!
Binary floating-point numbers of 64 bits, kept by their bits so that equality is plain. Arithmetic
goes through the machine's own.
-/

namespace Quorum

structure Double where
  bits : UInt64
  deriving DecidableEq, Repr

namespace Double

def ofFloat (x : Float) : Double := ⟨x.toBits⟩

def toFloat (x : Double) : Float := Float.ofBits x.bits

/-- The nearest number to a natural number below `2 ^ 64`. -/
def ofWord (n : Nat) : Double := ofFloat n.toUInt64.toFloat

/-- The bit above the fraction, which normal numbers do not spell out. -/
def hiddenBit : Nat := 0x10000000000000

def isNegative (x : Double) : Bool := 0x8000000000000000 ≤ x.bits.toNat

/-- The eleven bits of the exponent. -/
def exponentField (x : Double) : Nat := x.bits.toNat / hiddenBit % 0x800

/-- The fifty-two bits of the fraction. -/
def fractionField (x : Double) : Nat := x.bits.toNat % hiddenBit

def isFinite (x : Double) : Bool := x.exponentField ≠ 2047

def isNaN (x : Double) : Bool := x.exponentField = 2047 ∧ x.fractionField ≠ 0

def neg (x : Double) : Double := ofFloat (-x.toFloat)

/-- The magnitude of a finite number is `significand * 2 ^ scale`. -/
def significand (x : Double) : Nat :=
  if x.exponentField = 0 then x.fractionField else x.fractionField + hiddenBit

def scale (x : Double) : Int := (max x.exponentField 1 : Nat) - 1075

/-- Below a power of two the numbers lie twice as close as above it. -/
def isClosestBelow (x : Double) : Bool := x.fractionField = 0 ∧ 1 < x.exponentField

end Double

end Quorum
