import Shading.Decimal.Layout
import Shading.Json.Value

/-!
# Numbers of documents

Which number a numeral stands for. Whole numbers are exact. A double is found from the leading
digits of the numeral, as many as fit a word, by a single multiplication with or division by a power
of ten; that is the nearest double for numerals with few digits, and may miss it by a unit of the
last place for long ones. A numeral beyond the range of doubles stands for nothing.
-/

namespace Shading.Numeral

/-- The largest number of a word. -/
def wordLimit : Nat := 18446744073709551615

/-- Digits taken into a significand while it fits a word, and the number of digits taken; from the
first digit that does not fit, none is taken. -/
def absorb (significand taken : Nat) : List Nat → Nat × Nat
  | [] => (significand, taken)
  | d :: rest =>
    if 10 * significand + d ≤ wordLimit then absorb (10 * significand + d) (taken + 1) rest
    else (significand, taken)

/-- The significand of a numeral and the exponent of ten that it is scaled by. -/
def parts (n : Numeral) : Nat × Int :=
  let (whole, taken) := absorb 0 0 n.whole
  let skipped : Int := (n.whole.length - taken : Nat)
  let (significand, places) := absorb whole 0 (n.fraction.getD [])
  (significand, skipped - places + n.exponent.getD 0)

/-- The significand scaled by a power of ten; nothing if it leaves the range of doubles. -/
def scale (f : Float) (e : Int) : Option Float :=
  if 0 ≤ e then
    if e ≤ 308 then
      let scaled := f * Float.ofScientific 1 false e.toNat
      if scaled.isInf then none else some scaled
    else if f == 0 then some f
    else none
  else if -308 ≤ e then some (f / Float.ofScientific 1 false (-e).toNat)
  else if f == 0 then some f
  else scale (f / 1e308) (e + 308)
termination_by (-e).toNat
decreasing_by omega

/-- A whole number without a point or exponent that fits a word, unless it is a negative zero. -/
def integer? (n : Numeral) : Option Int :=
  match n.fraction, n.exponent with
  | none, none =>
    let m : Nat := n.whole.foldl (fun m d ↦ 10 * m + d) 0
    if n.negative then
      if 0 < m ∧ m ≤ 9223372036854775808 then some (-(m : Int)) else none
    else if m ≤ wordLimit then some (m : Int)
    else none
  | _, _ => none

/-- A whole number that is not negative and at most the given bound. -/
def natural? (bound : Nat) (n : Numeral) : Option Nat := do
  let m ← n.integer?
  if 0 ≤ m ∧ m ≤ bound then some m.toNat else none

/-- The double that a numeral stands for. -/
def double? (n : Numeral) : Option Float := do
  let (significand, exponent) := n.parts
  let magnitude ← scale (Float.ofNat significand) exponent
  return if n.negative then -magnitude else magnitude

end Shading.Numeral

namespace Shading.Json

/-- A double as documents write it. -/
def ofDouble (x : Float) : Json := .literal (Layout.document.write (.ofDouble x.toBits))

def ofDoubles (xs : List Float) : Json := .array (xs.map ofDouble)

def ofInt (n : Int) : Json := .literal (toString n)

end Shading.Json
