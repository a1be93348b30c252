import Shading.Decimal.Shortest

/-!
# Layouts of decimals

How shortest digits are set: positionally or with an exponent, with or without a fraction, and how
the numbers are spelled that have no digits. Each text format states its choices in one `Layout`.
-/

namespace Shading

/-- The choices of a text format for numbers. -/
structure Layout where
  /-- Which of two equally near decimals is written. -/
  tie : Tie
  /-- The number is written positionally: the exponent of its first digit decides. -/
  positional : Int → Bool
  /-- A whole number is written with a zero behind the point. -/
  wholeFraction : Bool
  /-- A positive exponent is written with a sign. -/
  plusSign : Bool
  nan : String
  infinity : String
  /-- The text of minus infinity. -/
  minusInfinity : String

namespace Layout

def digitsText (ds : List Nat) : String := String.ofList (ds.map Nat.digitChar)

/-- Digits in front of and behind a point. -/
def positionalText (layout : Layout) (d : Digits) : String :=
  let n := d.digits.length
  if d.point ≤ 0 then
    "0." ++ digitsText (List.replicate (-d.point).toNat 0 ++ d.digits)
  else
    let whole := d.point.toNat
    if n ≤ whole then
      digitsText (d.digits ++ List.replicate (whole - n) 0) ++
        if layout.wholeFraction then ".0" else ""
    else digitsText (d.digits.take whole) ++ "." ++ digitsText (d.digits.drop whole)

/-- One digit in front of the point, and an exponent. -/
def exponentText (layout : Layout) (d : Digits) : String :=
  let e := d.point - 1
  let sign := if e < 0 then "-" else if layout.plusSign then "+" else ""
  let mantissa := match d.digits with
    | [] => ""
    | [first] => digitsText [first]
    | first :: rest => digitsText [first] ++ "." ++ digitsText rest
  mantissa ++ "e" ++ sign ++ toString e.natAbs

/-- The text of a number. -/
def write (layout : Layout) : BinaryClass → String
  | .nan => layout.nan
  | .infinite negative => if negative then layout.minusInfinity else layout.infinity
  | .zero negative =>
    (if negative then "-" else "") ++ if layout.wholeFraction then "0.0" else "0"
  | .finite negative magnitude =>
    let d := magnitude.shortest layout.tie
    (if negative then "-" else "") ++
      if layout.positional (d.point - 1) then layout.positionalText d else layout.exponentText d

/-- Operands in listings: never an exponent, whole numbers without a point, and ties away from
zero. -/
def listing : Layout := ⟨.away, fun _ ↦ true, false, false, "NaN", "inf", "-inf"⟩

/-- Numbers in messages: an exponent from `1e16` on and below `1e-4`, and ties away from zero. -/
def message : Layout := ⟨.away, fun e ↦ -4 ≤ e && e < 16, true, false, "NaN", "inf", "-inf"⟩

/-- Numbers in documents: an exponent from `1e16` on and below `1e-5`, and ties to even; there is no
text for numbers without digits. -/
def document : Layout := ⟨.even, fun e ↦ -5 ≤ e && e < 16, true, true, "null", "null", "null"⟩

end Layout

end Shading
