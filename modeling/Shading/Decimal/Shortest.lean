import Shading.Binary

/-!
# Shortest decimals

The fewest decimal digits that tell a binary number from its neighbours, and among those the ones
nearest to it.

Shape decisions: a positive number is `m * 2 ^ q`, and the numbers that round to it form an interval
around it, whose ends belong to it when `m` is even. Everything is exact arithmetic on natural
numbers, multiplied by a power of two that makes the ends of the interval whole. For each count of
digits only the two neighbours of the number on the grid of that many digits are tried. Which of two
equally near ones is taken is left to the text format, as a `Tie`.
-/

namespace Shading

/-- The number `0.d₁d₂… * 10 ^ point` with the given digits. -/
structure Digits where
  digits : List Nat
  point : Int
deriving DecidableEq, Repr

/-- Which of two equally near decimals is taken. -/
inductive Tie where
  /-- The one with an even last digit. -/
  | even
  /-- The one farther from zero. -/
  | away
deriving DecidableEq, Repr

/-- The smaller one of two equally near decimals is taken, given its last digits. -/
def Tie.takesSmaller (tie : Tie) (smaller : Nat) : Bool :=
  match tie with
  | .even => smaller % 2 == 0
  | .away => false

namespace Binary

/-- The number and the ends of its interval as fractions over one denominator. -/
structure Interval where
  value : Nat
  low : Nat
  high : Nat
  den : Nat
  /-- The ends belong to the interval. -/
  closed : Bool

/-- Four times the number, so that the ends of its interval are whole at the same scale. -/
def interval (b : Binary) : Interval :=
  let num := if b.exponent < 0 then 1 else Nat.pow 2 b.exponent.toNat
  let den := if b.exponent < 0 then Nat.pow 2 (-b.exponent).toNat else 1
  let m := 4 * b.significand
  { value := m * num
    low := (m - if b.narrowBelow then 1 else 2) * num
    high := (m + 2) * num
    den := 4 * den
    closed := b.significand % 2 == 0 }

/-- The fraction `n / den` lies in the interval. -/
def Interval.contains (i : Interval) (n den : Nat) : Bool :=
  let x := n * i.den
  let low := i.low * den
  let high := i.high * den
  if i.closed then low ≤ x && x ≤ high else low < x && x < high

/-- The number of decimal digits in front of the point; negative for zeros behind it. -/
def Interval.magnitude (i : Interval) : Int :=
  if i.den ≤ i.value then (Nat.toDigits 10 (i.value / i.den)).length
  else
    -- The fraction has at least as many leading zeros as its reciprocal has digits, less one.
    let zeros := (Nat.toDigits 10 (i.den / i.value)).length - 1
    if i.den ≤ i.value * Nat.pow 10 zeros then 1 - zeros else -zeros

/-- The number on the grid `10 ^ step` that is nearest to the value, if one of the neighbours of the
value on that grid is in the interval. -/
def Interval.onGrid? (i : Interval) (tie : Tie) (step : Int) : Option Nat :=
  let up := if step < 0 then Nat.pow 10 (-step).toNat else 1
  let down := if step < 0 then 1 else Nat.pow 10 step.toNat
  let n := i.value * up
  let d := i.den * down
  let floor := n / d
  let rest := n % d
  let below := 0 < floor && i.contains (floor * down) up
  let above := i.contains ((floor + 1) * down) up
  match below, above with
  | false, false => none
  | true, false => some floor
  | false, true => some (floor + 1)
  | true, true =>
    if 2 * rest < d || (2 * rest == d && tie.takesSmaller floor) then some floor
    else some (floor + 1)

/-- The first grid with a number in the interval, from coarse to fine, and that number. -/
def Interval.search (i : Interval) (tie : Tie) (magnitude : Int) :
    Nat → Nat → Option (Nat × Int)
  | 0, _ => none
  | fuel + 1, count =>
    let step := magnitude - count
    match i.onGrid? tie step with
    | some n => some (n, step)
    | none => i.search tie magnitude fuel (count + 1)

/-- Seventeen digits always suffice for a double. -/
def digitLimit : Nat := 17

/-- The shortest digits of a positive number. -/
def shortest (tie : Tie) (b : Binary) : Digits :=
  let i := b.interval
  match i.search tie i.magnitude (digitLimit + 1) 1 with
  | none => ⟨[], 0⟩
  | some (n, step) =>
    let digits := (Nat.toDigits 10 n).map fun c ↦ c.toNat - '0'.toNat
    ⟨(digits.reverse.dropWhile (· == 0)).reverse, step + digits.length⟩

end Binary

end Shading
