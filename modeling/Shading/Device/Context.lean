import Shading.Context

/-!
# Device contexts

A context as the device reads it: the numbers of one sample, with its edges in a buffer that many
samples share. Where the host integrates a face once and keeps the centroid, the device integrates
it when it is asked for a centroid that was not supplied.
-/

namespace Shading

/-- The numbers of one sample; its edges are `edgeCount` edges of the shared buffer from the edge
`edgeOffset` on, each of four numbers. -/
structure DeviceContext (S : Type) where
  bounds : Rect S
  centroid : Point S
  area : S
  /-- The centroid was supplied. -/
  hasCentroid : Bool
  minX : Int
  minY : Int
  maxX : Int
  maxY : Int
  edgeOffset : Nat
  edgeCount : Nat
  /-- The answer stays premultiplied. -/
  premultiplied : Bool
  /-- Where the program of the sample starts. -/
  programOffset : Nat
deriving DecidableEq, Repr, Inhabited

/-- The greatest number of edges that the device integrates, and of instructions that it
executes. -/
def deviceIterations : Nat := 100000

namespace DeviceContext

variable {R S : Type}

/-- The numbers of an edge as they lie in the buffer. -/
def edgeNumbers [Rounding R S] (e : Edge R) : List S :=
  [narrow e.start.x, narrow e.start.y, narrow e.stop.x, narrow e.stop.y]

/-- A context for the device, and the buffer with the edges of its face behind the others. A context
without a face counts as one whose face is all of its bounds. -/
def ofContext [Scalar R] [Rounding R S] (ctx : Context R) (edges : Array S) :
    DeviceContext S × Array S :=
  let face := ctx.face.getD (.ofBounds ctx.bounds)
  ({ bounds := ctx.bounds.map narrow
     centroid := (ctx.centroid.getD .origin).map narrow
     area := narrow ctx.area
     hasCentroid := ctx.centroid.isSome
     minX := face.minX
     minY := face.minY
     maxX := face.maxX
     maxY := face.maxY
     edgeOffset := edges.size / 4
     edgeCount := face.edges.length
     premultiplied := ctx.premultiplied
     programOffset := 0 },
   edges ++ (face.edges.flatMap edgeNumbers).toArray)

variable [Scalar S]

def center (ctx : DeviceContext S) : Point S := ctx.bounds.center

/-- The edge at an index of the buffer; numbers past the end are zero. -/
def edgeAt (edges : Array S) (i : Nat) : Edge S :=
  ⟨⟨edges.getD (4 * i) 0, edges.getD (4 * i + 1) 0⟩,
   ⟨edges.getD (4 * i + 2) 0, edges.getD (4 * i + 3) 0⟩⟩

/-- Twice the area and the moments of a boundary so far. -/
structure Moments (S : Type) where
  area : S
  x : S
  y : S

/-- The moments with a weighted edge added. -/
def Moments.add (m : Moments S) (e : Edge S) (weight : S) : Moments S :=
  let cross := weight * e.cross
  ⟨m.area + cross, m.x + cross * (e.start.x + e.stop.x), m.y + cross * (e.start.y + e.stop.y)⟩

/-- The moments of the boundary: the edges of the buffer, then all four sides by their counts. -/
def moments (ctx : DeviceContext S) (edges : Array S) : Moments S :=
  let start : Moments S := ⟨0, 0, 0⟩
  let explicit := (List.range ctx.edgeCount).foldl
    (fun m i ↦ m.add (edgeAt edges (ctx.edgeOffset + i)) 1) start
  let sides := (Face.mk [] ctx.bounds ctx.minX ctx.minY ctx.maxX ctx.maxY).sides
  sides.foldl (fun m s ↦ m.add s.1 (Scalar.ofInt s.2)) explicit

/-- The centroid of the boundary, or the center of the bounds if there is hardly any area; none if
there are too many edges. -/
def faceCentroid? (ctx : DeviceContext S) (edges : Array S) : Option (Point S) :=
  if deviceIterations < ctx.edgeCount then none
  else
    let m := ctx.moments edges
    let area := 0.5 * m.area
    if Scalar.abs area ≤ Scalar.singleEpsilon then some ctx.center
    else
      let k := 1 / (6 * area)
      some ⟨m.x * k, m.y * k⟩

/-- The supplied centroid, or the one of the face. -/
def centroid? (ctx : DeviceContext S) (edges : Array S) : Option (Point S) :=
  if ctx.hasCentroid then some ctx.centroid else ctx.faceCentroid? edges

/-- Where a program of the given accuracy takes its sample. -/
def samplePoint? (ctx : DeviceContext S) (edges : Array S) (accuracy : Accuracy) :
    Option (Point S) :=
  if accuracy.readsCentroid then ctx.centroid? edges else some ctx.center

end DeviceContext

end Shading
