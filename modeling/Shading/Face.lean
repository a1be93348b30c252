import Shading.Geometry

/-!
# Faces

A sample is a clipped face inside an axis-aligned bounds rectangle. The face is described by its
explicit edges together with a signed count for each side of the bounds; the counts stand in for
edges that were clipped onto the sides and so need not be stored.

Shape decisions: both kinds of edge become one list of weighted edges, and area and centroid are
sums over that list. An explicit edge has weight one, a side its count, and a side with count
zero does not take part in the sums at all.
-/

namespace Shading

/-- A directed straight edge. -/
structure Edge (K : Type) where
  start : Point K
  stop : Point K
deriving DecidableEq, Repr, Inhabited

namespace Edge

variable {K L : Type}

def map (f : K → L) (e : Edge K) : Edge L := ⟨e.start.map f, e.stop.map f⟩

variable [Scalar K]

/-- Twice the signed area of the triangle between the origin and the edge. -/
def cross (e : Edge K) : K := e.start.x * e.stop.y - e.stop.x * e.start.y

def isFinite (e : Edge K) : Bool := e.start.isFinite && e.stop.isFinite

end Edge

/-- A clipped face: explicit edges, and how often each side of the bounds is part of its boundary.

Sides run so that a count of one on all four, without explicit edges, describes the whole bounds
rectangle with positive area. -/
structure Face (K : Type) where
  edges : List (Edge K)
  bounds : Rect K
  minX : Int
  minY : Int
  maxX : Int
  maxY : Int
deriving DecidableEq, Repr, Inhabited

namespace Face

variable {K : Type}

/-- The whole bounds rectangle, by its counts alone. -/
def ofBounds (bounds : Rect K) : Face K := ⟨[], bounds, 1, 1, 1, 1⟩

/-- The four sides of the bounds with their counts: at the least `y`, the greatest `x`, the greatest
`y` and the least `x`. -/
def sides (face : Face K) : List (Edge K × Int) :=
  let b := face.bounds
  [(⟨⟨b.x0, b.y0⟩, ⟨b.x1, b.y0⟩⟩, face.minY),
   (⟨⟨b.x1, b.y0⟩, ⟨b.x1, b.y1⟩⟩, face.maxX),
   (⟨⟨b.x1, b.y1⟩, ⟨b.x0, b.y1⟩⟩, face.maxY),
   (⟨⟨b.x0, b.y1⟩, ⟨b.x0, b.y0⟩⟩, face.minX)]

variable [Scalar K]

/-- All edges of the boundary with their weights. -/
def weightedEdges (face : Face K) : List (Edge K × K) :=
  face.edges.map (fun e ↦ (e, 1)) ++
    (face.sides.filter fun s ↦ s.2 != 0).map fun s ↦ (s.1, Scalar.ofInt s.2)

/-- The signed area inside the boundary. -/
def area (face : Face K) : K :=
  0.5 * Scalar.sum (face.weightedEdges.map fun e ↦ e.2 * e.1.cross)

/-- The centroid of the area; none if there is hardly any. -/
def centroid (face : Face K) : Option (Point K) :=
  let area := face.area
  if Scalar.abs area ≤ Scalar.doubleEpsilon then none
  else
    let total := face.weightedEdges.foldl (fun (t : Point K) e ↦
      let c := e.2 * e.1.cross
      ⟨t.x + c * (e.1.start.x + e.1.stop.x), t.y + c * (e.1.start.y + e.1.stop.y)⟩) ⟨0, 0⟩
    let k := 1 / (6 * area)
    some ⟨total.x * k, total.y * k⟩

end Face

end Shading
