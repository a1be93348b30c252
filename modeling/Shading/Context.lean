import Shading.Face
import Shading.Gradient
import Shading.Validation

/-!
# Evaluation contexts

Everything a program may read for one sample: the bounds of the sample, perhaps its face, the area
that it covers, perhaps a centroid, and whether the answer stays premultiplied.
-/

namespace Shading

variable {K : Type}

/-- A face from its parts, all of them finite. -/
def Face.new [Scalar K] (edges : List (Edge K)) (bounds : Rect K) (minX minY maxX maxY : Int) :
    Except ValidationError (Face K) := do
  require bounds.isFinite (.notFinite .faceBounds)
  require (edges.all Edge.isFinite) (.notFinite .faceEdge)
  return ⟨edges, bounds, minX, minY, maxX, maxY⟩

/-- What a program may read for one sample. -/
structure Context (K : Type) where
  face : Option (Face K)
  area : K
  centroid : Option (Point K)
  bounds : Rect K
  /-- The answer stays premultiplied. -/
  premultiplied : Bool
deriving DecidableEq, Repr, Inhabited

namespace Context

variable [Scalar K]

/-- Full coverage of the bounds, without a centroid. -/
def new (bounds : Rect K) : Except ValidationError (Context K) := do
  require bounds.isFinite (.notFinite .contextBounds)
  return ⟨none, bounds.area, none, bounds, true⟩

/-- The unit square at integer coordinates, fully covered. -/
def fullPixel (x y : Int) : Context K :=
  let x0 : K := Scalar.ofInt x
  let y0 : K := Scalar.ofInt y
  let bounds : Rect K := ⟨x0, y0, x0 + 1, y0 + 1⟩
  ⟨none, 1, some bounds.center, bounds, true⟩

/-- The area and the centroid of a face, within its bounds. -/
def ofFace (face : Face K) : Except ValidationError (Context K) := do
  require (Scalar.isFinite face.area) (.notFinite .faceArea)
  return ⟨some face, face.area, face.centroid, face.bounds, true⟩

def withCentroid (ctx : Context K) (centroid : Point K) : Except ValidationError (Context K) := do
  require centroid.isFinite (.notFinite .contextCentroid)
  return { ctx with centroid := some centroid }

def withArea (ctx : Context K) (area : K) : Except ValidationError (Context K) := do
  require (Scalar.isFinite area) (.notFinite .contextArea)
  require (!decide (area < 0)) .negativeArea
  return { ctx with area := area }

def pixelCenter (ctx : Context K) : Point K := ctx.bounds.center

/-- The given centroid, else the one of the face, else the center of the bounds. -/
def centroidOrCenter (ctx : Context K) : Point K :=
  (ctx.centroid <|> ctx.face.bind Face.centroid).getD ctx.pixelCenter

/-- The covered area is the area of the bounds, up to rounding. -/
def isFullArea (ctx : Context K) : Bool :=
  Scalar.abs (ctx.area - ctx.bounds.area) ≤ (1e-10 : K) * Scalar.max ctx.bounds.area 1

/-- Where a program of the given accuracy takes its sample. -/
def samplePoint (ctx : Context K) (accuracy : Accuracy) : Point K :=
  if accuracy.readsCentroid then ctx.centroidOrCenter else ctx.pixelCenter

end Context

end Shading
