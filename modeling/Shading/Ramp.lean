import Shading.Geometry
import Shading.Vec4

/-!
# Ramps

From a point to a parameter: where the point lies between the two sides of a blend, along the axis
of a gradient, among the circles of a radial gradient, or within a triangle.

Shape decisions: each rule is a structure that holds exactly the numbers it computes with, in the
form an instruction stores them (an inverse map rather than a map, a displacement rather than an
endpoint, a reciprocal determinant). The evaluator of programs and both machines use the same
structures; `map` rounds one to stored numbers and back. Every rule has a defined value for
degenerate input.
-/

namespace Shading

variable {K L : Type}

/-- A blend along a direction: the product with the scaled normal, less an offset. -/
structure LinearRamp (K : Type) where
  normal : Point K
  offset : K
deriving DecidableEq, Repr

namespace LinearRamp

def map (f : K → L) (r : LinearRamp K) : LinearRamp L := ⟨r.normal.map f, f r.offset⟩

def ratio [Scalar K] (r : LinearRamp K) (p : Point K) : K :=
  Scalar.clamp 0 1 (r.normal.dot p - r.offset)

end LinearRamp

/-- A blend by the distance from the origin of a local space. -/
structure RadialRamp (K : Type) where
  /-- The map to the local space. -/
  inverse : Affine K
  radius0 : K
  radius1 : K
deriving DecidableEq, Repr

namespace RadialRamp

def map (f : K → L) (r : RadialRamp K) : RadialRamp L := ⟨r.inverse.map f, f r.radius0, f r.radius1⟩

def ratio [Scalar K] (r : RadialRamp K) (p : Point K) : K :=
  let span := r.radius1 - r.radius0
  if span == 0 then 0
  else Scalar.clamp 0 1 (((r.inverse.apply p).length - r.radius0) / span)

end RadialRamp

/-- The axis of a linear gradient: a start and a displacement to the end, in a local space. -/
structure LinearAxis (K : Type) where
  inverse : Affine K
  start : Point K
  delta : Point K
deriving DecidableEq, Repr

namespace LinearAxis

def map (f : K → L) (r : LinearAxis K) : LinearAxis L :=
  ⟨r.inverse.map f, r.start.map f, r.delta.map f⟩

/-- How far along the axis the point projects; an axis without length gives zero. -/
def ratio [Scalar K] (r : LinearAxis K) (p : Point K) : K :=
  let len := r.delta.normSq
  if len == 0 then 0 else (r.inverse.apply p - r.start).dot r.delta / len

end LinearAxis

/-- Two circles in a local space, and with them the family of circles between and beyond them. -/
structure CirclePair (K : Type) where
  inverse : Affine K
  start : Point K
  startRadius : K
  stop : Point K
  stopRadius : K
deriving DecidableEq, Repr

namespace CirclePair

def map (f : K → L) (r : CirclePair K) : CirclePair L :=
  ⟨r.inverse.map f, r.start.map f, f r.startRadius, r.stop.map f, f r.stopRadius⟩

variable [Scalar K]

/-- The circle at the parameter has a radius that is not negative. -/
def hasCircle (r : CirclePair K) (t : K) : Bool :=
  0 ≤ r.startRadius + t * (r.stopRadius - r.startRadius)

/-- The largest parameter whose circle passes through the point; none if no circle does.

The circles through the point solve `a t² - 2 b t + c = 0`, a linear equation when the family
touches itself in one point. -/
def ratio? (r : CirclePair K) (p : Point K) : Option K :=
  let centers := r.stop - r.start
  let q := r.inverse.apply p - r.start
  let dr := r.stopRadius - r.startRadius
  let a := centers.normSq - dr * dr
  let b := q.dot centers + r.startRadius * dr
  let c := q.normSq - r.startRadius * r.startRadius
  if Scalar.abs a < 1e-12 then
    if Scalar.abs b < 1e-12 then none
    else
      let t := c / (2 * b)
      if r.hasCircle t then some t else none
  else
    let disc := b * b - a * c
    if disc < 0 then none
    else
      let root := Scalar.sqrt disc
      let t1 := (b + root) / a
      let t2 := (b - root) / a
      let hi := if t2 ≤ t1 then t1 else t2
      let lo := if t2 ≤ t1 then t2 else t1
      if r.hasCircle hi then some hi else if r.hasCircle lo then some lo else none

/-- One circle lies strictly within the other, so that every point of the plane is on a circle of
the family. -/
def coversPlane (r : CirclePair K) : Bool :=
  (1e-9 : K) < Scalar.abs (r.stopRadius - r.startRadius) - (r.stop - r.start).length

end CirclePair

/-- Three values, one for each corner of a triangle. -/
structure Triple (K : Type) where
  a : K
  b : K
  c : K
deriving DecidableEq, Repr

def Triple.map (f : K → L) (t : Triple K) : Triple L := ⟨f t.a, f t.b, f t.c⟩

def Triple.toList (t : Triple K) : List K := [t.a, t.b, t.c]

/-- A triangle, the reciprocal of its determinant (zero if it is degenerate), and for a view in
perspective the depths of its corners. -/
structure Triangle (K : Type) where
  corners : Triple (Point K)
  inverseDeterminant : K
  depths : Option (Triple K)
deriving DecidableEq, Repr

namespace Triangle

def map (f : K → L) (t : Triangle K) : Triangle L :=
  ⟨t.corners.map (Point.map f), f t.inverseDeterminant, t.depths.map (Triple.map f)⟩

variable [Scalar K]

/-- The reciprocal of the determinant of the corners, or zero if they hardly span an area. -/
def inverseDeterminantOf (corners : Triple (Point K)) : K :=
  let (a, b, c) := (corners.a, corners.b, corners.c)
  let det := (b.y - c.y) * (a.x - c.x) + (c.x - b.x) * (a.y - c.y)
  if Scalar.abs det ≤ Scalar.doubleEpsilon * 16 then 0 else 1 / det

def ofCorners (corners : Triple (Point K)) (depths : Option (Triple K)) : Triangle K :=
  ⟨corners, inverseDeterminantOf corners, depths⟩

/-- The barycentric coordinates of a point, without regard to depth. -/
def affineWeights (t : Triangle K) (p : Point K) : Triple K :=
  let (a, b, c) := (t.corners.a, t.corners.b, t.corners.c)
  let la := ((b.y - c.y) * (p.x - c.x) + (c.x - b.x) * (p.y - c.y)) * t.inverseDeterminant
  let lb := ((c.y - a.y) * (p.x - c.x) + (a.x - c.x) * (p.y - c.y)) * t.inverseDeterminant
  ⟨la, lb, 1 - la - lb⟩

/-- The weights of the corners at a point. A degenerate triangle puts all weight on the first; the
depths, if none of them is zero, divide the weights, which are then brought back to the sum one. -/
def weights (t : Triangle K) (p : Point K) : Triple K :=
  if t.inverseDeterminant == 0 then ⟨1, 0, 0⟩
  else
    let plain := t.affineWeights p
    match t.depths with
    | none => plain
    | some z =>
      if z.toList.any (· == 0) then plain
      else
        let w : Triple K := ⟨plain.a / z.a, plain.b / z.b, plain.c / z.c⟩
        let sum := w.a + w.b + w.c
        if sum == 0 then plain else w.map (· / sum)

end Triangle

end Shading
