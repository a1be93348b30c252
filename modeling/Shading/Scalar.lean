import Shading.CubeRoot

/-!
# Scalars

The numbers that colors and geometry are computed with. All arithmetic of the library is written
once, over any type with the operations of `Scalar`, and no law is assumed of them. Two kinds of
instance matter: machine numbers, where each operation rounds and `NaN` differs from itself, and
exact numbers, where the usual algebra holds.

Shape decisions: order and equality are Boolean tests, as a processor answers them, so a
comparison with `NaN` is simply `false`. The instances for operators have low priority, so a type
with operators of its own keeps them. Everything that can be said through these operations
(`min`, `clamp`, constants) is defined from them rather than assumed.
-/

namespace Shading

/-- The operations that color and geometry arithmetic may use. -/
class Scalar (K : Type) where
  /-- The number nearest to `m / 10 ^ e`. -/
  decimal : (m e : Nat) → K
  add : K → K → K
  sub : K → K → K
  mul : K → K → K
  div : K → K → K
  neg : K → K
  lt : K → K → Bool
  le : K → K → Bool
  /-- Numeric equality: zeros of both signs are equal, `NaN` equals nothing. -/
  eq : K → K → Bool
  isFinite : K → Bool
  abs : K → K
  sqrt : K → K
  cbrt : K → K
  floor : K → K
  pow : K → K → K
  /-- The magnitude of the first number with the sign of the second. -/
  copysign : K → K → K

namespace Scalar

variable {K : Type} [Scalar K]

instance (priority := low) : Add K := ⟨Scalar.add⟩
instance (priority := low) : Sub K := ⟨Scalar.sub⟩
instance (priority := low) : Mul K := ⟨Scalar.mul⟩
instance (priority := low) : Div K := ⟨Scalar.div⟩
instance (priority := low) : Neg K := ⟨Scalar.neg⟩
instance (priority := low) : BEq K := ⟨Scalar.eq⟩
instance (priority := low) : LT K := ⟨fun a b ↦ Scalar.lt a b = true⟩
instance (priority := low) : LE K := ⟨fun a b ↦ Scalar.le a b = true⟩
instance (priority := low) : DecidableLT K :=
  fun a b ↦ inferInstanceAs (Decidable (Scalar.lt a b = true))
instance (priority := low) : DecidableLE K :=
  fun a b ↦ inferInstanceAs (Decidable (Scalar.le a b = true))
instance (priority := low) (n : Nat) : OfNat K n := ⟨Scalar.decimal n 0⟩
instance (priority := low) : OfScientific K :=
  ⟨fun m down e ↦ if down then Scalar.decimal m e else Scalar.decimal (m * Nat.pow 10 e) 0⟩

/-- The number of an integer. -/
def ofInt : Int → K
  | .ofNat n => decimal n 0
  | .negSucc n => -decimal (n + 1) 0

/-- The smaller number: the second of two equal ones, and the other one beside a `NaN`. -/
def min (a b : K) : K :=
  if b ≤ a then b else if a == a then a else b

/-- The larger number: the second of two equal ones, and the other one beside a `NaN`. -/
def max (a b : K) : K :=
  if a ≤ b then b else if a == a then a else b

/-- The number moved into the interval from `lo` to `hi`; `NaN` stays. -/
def clamp (lo hi x : K) : K :=
  let raised := if x < lo then lo else x
  if hi < raised then hi else raised

/-- The number without its fraction, rounded toward zero. -/
def truncate (x : K) : K :=
  if x < 0 then -floor (-x) else floor x

/-- The position of `x` within its period of length two, between 0 and 2.

The remainder of the truncating division keeps the sign of `x`, also when it is zero, and only a
truly negative one is moved up by a period. -/
def modTwo (x : K) : K :=
  let r := copysign (x - 2 * truncate (x / 2)) x
  if r < 0 then r + 2 else r

/-- The gap between 1 and the next double, `2 ^ -52`. -/
def doubleEpsilon : K := 1 / 4503599627370496

/-- The gap between 1 and the next single, `2 ^ -23`. -/
def singleEpsilon : K := 1 / 8388608

/-- The sum of a list from the left, started from the negative zero so that a sum of negative
zeros keeps its sign. -/
def sum (xs : List K) : K :=
  xs.foldl (· + ·) (-0)

end Scalar

/-- Doubles: every operation rounds to nearest, ties to even. -/
instance : Scalar Float where
  decimal m e := Float.ofScientific m true e
  add := Float.add
  sub := Float.sub
  mul := Float.mul
  div := Float.div
  neg := Float.neg
  lt a b := decide (a < b)
  le a b := decide (a ≤ b)
  eq a b := a == b
  isFinite := Float.isFinite
  abs := Float.abs
  sqrt := Float.sqrt
  cbrt := cubeRoot
  floor := Float.floor
  pow := Float.pow
  copysign a b :=
    Float.ofBits ((a.toBits &&& 0x7fffffffffffffff) ||| (b.toBits &&& 0x8000000000000000))

end Shading
