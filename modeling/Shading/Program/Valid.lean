import Shading.Program.Basic
import Shading.Validation

/-!
# Validity of nodes

Which parameters and how many children a kind accepts, and which of several faults is reported. The
parameters are checked before the number of children.
-/

namespace Shading

/-- The stops of a gradient: between one and 65535 finite ratios that never decrease. -/
def checkStops {R : Type} [Scalar R] (ratios : List R) : Except ValidationError Unit := do
  require (!ratios.isEmpty) .noStops
  require (ratios.length ≤ 65535) .tooManyStops
  require (ratios.all Scalar.isFinite) (.notFinite .stopRatio)
  require (sorted ratios) .unsortedStops
where
  /-- No ratio is less than the one before it. -/
  sorted : List R → Bool
    | a :: b :: rest => !decide (b < a) && sorted (b :: rest)
    | _ => true

/-- The map has finite coefficients and an inverse. -/
def checkTransform {R : Type} [Scalar R] (what : Quantity) (transform : Affine R) :
    Except ValidationError Unit := do
  require transform.isFinite (.notFinite what)
  require transform.isInvertible (.notInvertible what)

namespace Kind

variable {R : Type} [Scalar R]

/-- The depths of a triangle are finite and not zero, checked one after the other. -/
def checkDepths : List R → Except ValidationError Unit
  | [] => .ok ()
  | d :: rest => do
    require (Scalar.isFinite d) (.notFinite .barycentricDepth)
    require (!(d == 0)) .zeroDepth
    checkDepths rest

/-- The radii of circles are finite and not negative, checked one after the other. -/
def checkRadii : List R → Except ValidationError Unit
  | [] => .ok ()
  | r :: rest => do
    require (Scalar.isFinite r) (.notFinite .radialGradientRadius)
    require (!decide (r < 0)) .negativeRadius
    checkRadii rest

/-- Checks the parameters of a kind and the number of children it is given. -/
def validate (kind : Kind R) (count : Nat) : Except ValidationError Unit := do
  match kind with
  | .color c =>
    require c.isFinite (.notFinite .color)
    expect 0
  | .premultiply | .unpremultiply | .convert _ | .normalize => expect 1
  | .alpha factor =>
    require (Scalar.isFinite factor) (.notFinite .alpha)
    expect 1
  | .linearBlend ramp _ =>
    require ramp.normal.isFinite (.notFinite .linearBlendNormal)
    require (Scalar.isFinite ramp.offset) (.notFinite .linearBlendOffset)
    expect 2
  | .radialBlend transform radius0 radius1 _ =>
    checkTransform .radialBlendTransform transform
    require (Scalar.isFinite radius0 && Scalar.isFinite radius1) (.notFinite .radialBlendRadius)
    expect 2
  | .barycentricBlend corners depths _ =>
    require (corners.toList.all Point.isFinite) (.notFinite .barycentricPoint)
    checkDepths ((depths.map Triple.toList).getD [])
    expect 3
  | .linearGradient transform start stop ratios _ _ =>
    checkTransform .linearGradientTransform transform
    require start.isFinite (.notFinite .linearGradientStart)
    require stop.isFinite (.notFinite .linearGradientEnd)
    checkStops ratios
    expect ratios.length
  | .radialGradient transform start startRadius stop stopRadius ratios _ _ =>
    checkTransform .radialGradientTransform transform
    require start.isFinite (.notFinite .radialGradientStart)
    require stop.isFinite (.notFinite .radialGradientEnd)
    checkRadii [startRadius, stopRadius]
    checkStops ratios
    expect ratios.length
  | .filter m =>
    require m.isFinite (.notFinite .filterMatrix)
    expect 1
  | .phong shininess =>
    require (Scalar.isFinite shininess) (.notFinite .phongAlpha)
    require (5 ≤ count && (count - 5) % 2 == 0) (.phongChildCount count)
  | .blendCompose .. | .pathBoolean _ => expect 2
  | .stack => return
where
  expect (wanted : Nat) : Except ValidationError Unit :=
    require (count == wanted) (.childCount kind.name wanted count)

end Kind

/-- Every node has parameters and a number of children that its kind accepts. -/
inductive Program.Valid {ι R : Type} [Scalar R] : Program ι R → Prop where
  | node {n : ι} {k : Kind R} {cs : List (Program ι R)} :
    k.validate cs.length = .ok () → (∀ c ∈ cs, c.Valid) → Valid (.node n k cs)

end Shading
