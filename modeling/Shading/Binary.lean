/-!
# Binary numbers

What the bits of a machine number stand for: a sign, and a whole number scaled by a power of two.
Questions about the exact value of a machine number are answered from this, in exact arithmetic.
-/

namespace Shading

/-- A positive binary number: a significand, and an exponent of two. -/
structure Binary where
  significand : Nat
  exponent : Int
  /-- The next smaller number is only half as far away as the next larger one. -/
  narrowBelow : Bool
deriving DecidableEq, Repr

/-- What the bits of a machine number stand for. -/
inductive BinaryClass where
  | nan
  | infinite (negative : Bool)
  | zero (negative : Bool)
  | finite (negative : Bool) (magnitude : Binary)
deriving DecidableEq, Repr

namespace BinaryClass

/-- Reads the bits of a number with the given widths of its fraction and its exponent. -/
def ofBits (fractionBits exponentBits : Nat) (bits : Nat) : BinaryClass :=
  let fractions := Nat.pow 2 fractionBits
  let exponents := Nat.pow 2 exponentBits
  let fraction := bits % fractions
  let exponent := bits / fractions % exponents
  let negative := bits / (fractions * exponents) % 2 == 1
  let bias : Int := (exponents / 2 - 1 + fractionBits : Nat)
  if exponent = exponents - 1 then
    if fraction = 0 then .infinite negative else .nan
  else if exponent = 0 then
    if fraction = 0 then .zero negative else .finite negative ⟨fraction, 1 - bias, false⟩
  else
    .finite negative ⟨fractions + fraction, exponent - bias, fraction == 0 && 1 < exponent⟩

/-- What the bits of a double stand for. -/
def ofDouble (bits : UInt64) : BinaryClass := ofBits 52 11 bits.toNat

/-- What the bits of a single stand for. -/
def ofSingle (bits : UInt32) : BinaryClass := ofBits 23 8 bits.toNat

end BinaryClass

end Shading
