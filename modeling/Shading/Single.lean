import Shading.Scalar

/-!
# Single precision

Operands of instructions, words of an encoded program and the device's own registers are single
precision numbers. A `Single` is its 32 bits, so storing one in a word and reading it back is the
identity whatever the bits are, `NaN` included, and classification needs no arithmetic.

`Rounding R S` relates the numbers that a program is built from to the narrower numbers it is
stored with.
-/

namespace Shading

/-- A single precision number, given by its bits. -/
structure Single where
  bits : UInt32
deriving DecidableEq, Repr, Inhabited

namespace Single

/-- The bits below the sign. -/
def magnitude (s : Single) : UInt32 := s.bits &&& 0x7fffffff

/-- All exponent bits are set and some fraction bit too. -/
def isNaN (s : Single) : Bool := 0x7f800000 < s.magnitude

def isFinite (s : Single) : Bool := s.magnitude < 0x7f800000

/-- Numeric equality: the same bits, unless they are a `NaN`, or two zeros. -/
def numericEq (a b : Single) : Bool :=
  (a.bits == b.bits && !a.isNaN) || (a.magnitude == 0 && b.magnitude == 0)

/-- The hardware number of the bits. -/
def value (s : Single) : Float32 := Float32.ofBits s.bits

def ofValue (x : Float32) : Single := ⟨x.toBits⟩

/-- The nearest single, ties to even; beyond the range an infinity. -/
def ofFloat (x : Float) : Single := ofValue x.toFloat32

/-- The same number as a double. -/
def toFloat (s : Single) : Float := s.value.toFloat

end Single

instance : Scalar Single where
  decimal m e := .ofValue (Float32.ofScientific m true e)
  add a b := .ofValue (a.value + b.value)
  sub a b := .ofValue (a.value - b.value)
  mul a b := .ofValue (a.value * b.value)
  div a b := .ofValue (a.value / b.value)
  neg a := .ofValue (-a.value)
  lt a b := decide (a.value < b.value)
  le a b := decide (a.value ≤ b.value)
  eq := Single.numericEq
  isFinite := Single.isFinite
  abs a := ⟨a.magnitude⟩
  sqrt a := .ofValue a.value.sqrt
  cbrt a := .ofValue a.value.cbrt
  floor a := .ofValue a.value.floor
  pow a b := .ofValue (a.value.pow b.value)
  copysign a b := ⟨a.magnitude ||| (b.bits &&& 0x80000000)⟩

/-- How numbers of type `R` are stored as numbers of type `S` and read back. -/
class Rounding (R S : Type) where
  /-- The nearest stored number. -/
  narrow : R → S
  /-- The number that is stored. -/
  widen : S → R

export Rounding (narrow widen)

instance : Rounding Float Single where
  narrow := Single.ofFloat
  widen := Single.toFloat

end Shading
