/-!
# Causes of refusal

What can be wrong with the numbers and shapes that programs, contexts and settings are built from.
Every refusal is a cause; its wording is in `ValidationError.message` alone.
-/

namespace Shading

/-- A part of a program or context whose numbers have to be finite. -/
inductive Quantity where
  | color
  | alpha
  | linearBlendNormal
  | linearBlendOffset
  | radialBlendTransform
  | radialBlendRadius
  | barycentricPoint
  | barycentricDepth
  | linearGradientTransform
  | linearGradientStart
  | linearGradientEnd
  | radialGradientTransform
  | radialGradientStart
  | radialGradientEnd
  | radialGradientRadius
  | stopRatio
  | filterMatrix
  | phongAlpha
  | programTransform
  | faceBounds
  | faceEdge
  | faceArea
  | contextBounds
  | contextCentroid
  | contextArea
deriving DecidableEq, Repr

/-- The words for a quantity. -/
def Quantity.text : Quantity → String
  | .color => "color"
  | .alpha => "alpha"
  | .linearBlendNormal => "linear blend normal"
  | .linearBlendOffset => "linear blend offset"
  | .radialBlendTransform => "radial blend transform"
  | .radialBlendRadius => "radial blend radius"
  | .barycentricPoint => "barycentric point"
  | .barycentricDepth => "barycentric depth"
  | .linearGradientTransform => "linear gradient transform"
  | .linearGradientStart => "linear gradient start"
  | .linearGradientEnd => "linear gradient end"
  | .radialGradientTransform => "radial gradient transform"
  | .radialGradientStart => "radial gradient start"
  | .radialGradientEnd => "radial gradient end"
  | .radialGradientRadius => "radial gradient radius"
  | .stopRatio => "gradient stop ratio"
  | .filterMatrix => "filter matrix"
  | .phongAlpha => "phong alpha"
  | .programTransform => "program transform"
  | .faceBounds => "face bounds"
  | .faceEdge => "face edge"
  | .faceArea => "face area"
  | .contextBounds => "context bounds"
  | .contextCentroid => "context centroid"
  | .contextArea => "context area"

/-- Why an input is refused. -/
inductive ValidationError where
  | notFinite (what : Quantity)
  | notInvertible (what : Quantity)
  /-- A node of the named kind has the wrong number of children. -/
  | childCount (kind : String) (expected actual : Nat)
  | phongChildCount (actual : Nat)
  | zeroDepth
  | negativeRadius
  | noStops
  | tooManyStops
  | unsortedStops
  /-- The endpoints of a linear blend coincide or are too far away. -/
  | endpoints
  | negativeArea
  | noThreads
  | frameOverflow
  | frameSize
  /-- A location marks two places of a list. -/
  | declaredTwice (location : Nat)
  | undeclared (location : Nat)
  /-- A jump does not lead to a later instruction. -/
  | backwardJump (index location : Nat)
deriving DecidableEq, Repr

/-- The wording of a refusal. -/
def ValidationError.message : ValidationError → String
  | .notFinite what => s!"{what.text} must be finite"
  | .notInvertible what => s!"{what.text} must be invertible"
  | .childCount kind expected actual => s!"{kind} expects {expected} children, got {actual}"
  | .phongChildCount actual =>
    s!"phong expects 5 children plus direction/color pairs, got {actual}"
  | .zeroDepth => "barycentric depth must be non-zero"
  | .negativeRadius => "radial gradient radius must be >= 0"
  | .noStops => "gradient needs at least one stop"
  | .tooManyStops => "gradient has too many stops"
  | .unsortedStops => "gradient stop ratios must be sorted in non-decreasing order"
  | .endpoints => "linear blend needs distinct, finite endpoints"
  | .negativeArea => "context area must be >= 0"
  | .noThreads => "evaluate threading 'threads' must be >= 1 when set"
  | .frameOverflow => "raster frame dimensions overflow"
  | .frameSize => "raster frame data does not match its size"
  | .declaredTwice location => s!"location L{location} is declared twice"
  | .undeclared location => s!"location L{location} is never declared"
  | .backwardJump index location => s!"jump from {index} to L{location} does not move forward"

/-- Passes if the condition holds, and is refused for the given cause otherwise. -/
def require (condition : Bool) (cause : ValidationError) : Except ValidationError Unit :=
  if condition then .ok () else .error cause

theorem require_eq_ok_iff {condition : Bool} {cause : ValidationError} :
    require condition cause = .ok () ↔ condition = true := by
  cases condition <;> simp [require]

end Shading
