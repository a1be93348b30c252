import Shading.Context
import Shading.Json.Fields
import Shading.Json.Reader

/-!
# Contexts as documents

An evaluation context as a JSON document: a record of its parts, with points and rectangles as
records of their coordinates. A face and a centroid may be null or left out.
-/

namespace Shading

namespace Json

def coordinates? (j : Json) : Option (Point Float) := do
  let s ← slots? ["x", "y"] j
  return ⟨← s.required 0 double?, ← s.required 1 double?⟩

def rect? (j : Json) : Option (Rect Float) := do
  let s ← slots? ["x0", "y0", "x1", "y1"] j
  return ⟨← s.required 0 double?, ← s.required 1 double?, ← s.required 2 double?,
    ← s.required 3 double?⟩

def edge? (j : Json) : Option (Edge Float) := do
  let s ← slots? ["start", "end"] j
  return ⟨← s.required 0 coordinates?, ← s.required 1 coordinates?⟩

def face? (j : Json) : Option (Face Float) := do
  let s ← slots? ["edges", "bounds", "min_x_count", "min_y_count", "max_x_count", "max_y_count"] j
  return ⟨← s.required 0 (list? edge?), ← s.required 1 rect?, ← s.required 2 integer32?,
    ← s.required 3 integer32?, ← s.required 4 integer32?, ← s.required 5 integer32?⟩

def context? (j : Json) : Option (Context Float) := do
  let s ← slots? ["face", "area", "centroid", "bounds", "premultiplied_output"] j
  return ⟨← s.nullable 0 face?, ← s.required 1 double?, ← s.nullable 2 coordinates?,
    ← s.required 3 rect?, ← s.required 4 bool?⟩

def ofCoordinates (p : Point Float) : Json := .record [("x", ofDouble p.x), ("y", ofDouble p.y)]

def ofRect (r : Rect Float) : Json :=
  .record [("x0", ofDouble r.x0), ("y0", ofDouble r.y0), ("x1", ofDouble r.x1),
    ("y1", ofDouble r.y1)]

def ofEdge (e : Edge Float) : Json :=
  .record [("start", ofCoordinates e.start), ("end", ofCoordinates e.stop)]

def ofFace (face : Face Float) : Json :=
  .record [("edges", .array (face.edges.map ofEdge)), ("bounds", ofRect face.bounds),
    ("min_x_count", ofInt face.minX), ("min_y_count", ofInt face.minY),
    ("max_x_count", ofInt face.maxX), ("max_y_count", ofInt face.maxY)]

/-- The value, or null. -/
def ofOption {α : Type} (write : α → Json) : Option α → Json
  | some a => write a
  | none => .null

def ofContext (ctx : Context Float) : Json :=
  .record [("face", ofOption ofFace ctx.face), ("area", ofDouble ctx.area),
    ("centroid", ofOption ofCoordinates ctx.centroid), ("bounds", ofRect ctx.bounds),
    ("premultiplied_output", .bool ctx.premultiplied)]

end Json

namespace Context

/-- The context of a document. -/
def ofText? (text : String) : Option (Context Float) := do Json.context? (← Json.parse? text)

/-- The document of a context, on one line. -/
def toText (ctx : Context Float) : String := (Json.ofContext ctx).compact

end Context

end Shading
