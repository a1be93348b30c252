/-!
# Paths

A path is owned by whoever supplies faces; a program knows it by a number and by the rule that
turns a winding number into inside or outside.
-/

namespace Shading

/-- The rule by which a winding number tells inside from outside. -/
inductive FillRule where
  | nonZero
  | evenOdd
deriving DecidableEq, Repr, Inhabited

namespace FillRule

/-- All cases. -/
def all : List FillRule :=
  [.nonZero, .evenOdd]

/-- The name of a case in text formats. -/
def name : FillRule → String
  | .nonZero => "non_zero"
  | .evenOdd => "even_odd"

/-- A region with this winding number lies inside the path. -/
def isInside : FillRule → Int → Bool
  | .nonZero, winding => winding != 0
  | .evenOdd, winding => winding % 2 != 0

end FillRule

/-- A path and the rule it is filled by. -/
structure Path where
  id : Nat
  fillRule : FillRule
deriving DecidableEq, Repr, Inhabited

end Shading
