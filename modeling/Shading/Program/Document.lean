import Shading.Json.Fields
import Shading.Json.Reader
import Shading.Program.Workspace

/-!
# Programs as documents

A program as a JSON document: a record whose field `type` names the kind of a node, with the
parameters and the children of the kind as further fields. The default of an accuracy, an extend
mode, a composition, a transform, a shift and a list of lights may be left out.

Shape decisions: a document stands for a plain tree. Reading it checks its form only, so a tree that
was read need not be valid; that is checked, from the leaves, when it is built in a workspace.
-/

namespace Shading

namespace Json

def point? (j : Json) : Option (Point Float) := do
  match ← doubles? 2 j with
  | [x, y] => return ⟨x, y⟩
  | _ => none

def vec4? (j : Json) : Option (Vec4 Float) := do
  match ← doubles? 4 j with
  | [x, y, z, w] => return ⟨x, y, z, w⟩
  | _ => none

def affine? (j : Json) : Option (Affine Float) := do
  match ← doubles? 6 j with
  | [a, b, c, d, e, f] => return ⟨a, b, c, d, e, f⟩
  | _ => none

def triple? {α : Type} (read : Json → Option α) (j : Json) : Option (Triple α) := do
  match ← list? read j with
  | [a, b, c] => return ⟨a, b, c⟩
  | _ => none

/-- The rows of a matrix, given in one array. -/
def rows? (j : Json) : Option (Vec4 Float × Vec4 Float × Vec4 Float × Vec4 Float) := do
  match ← doubles? 16 j with
  | [a, b, c, d, e, f, g, h, i, k, l, m, n, o, p, q] =>
    return (⟨a, b, c, d⟩, ⟨e, f, g, h⟩, ⟨i, k, l, m⟩, ⟨n, o, p, q⟩)
  | _ => none

def path? (j : Json) : Option Path := do
  let s ← slots? ["id", "fill_rule"] j
  return ⟨← s.required 0 (natural? 4294967295),
    ← s.defaulted 1 default (oneOf? FillRule.all FillRule.name)⟩

def accuracy? (s : Slots) (i : Nat) : Option Accuracy :=
  s.defaulted i default (oneOf? Accuracy.all Accuracy.name)

def extend? (s : Slots) (i : Nat) : Option Extend :=
  s.defaulted i default (oneOf? Extend.all Extend.name)

def transform? (s : Slots) (i : Nat) : Option (Affine Float) :=
  s.defaulted i .identity affine?

/-- The names of kinds, in order; within a document a nested node may give the position instead. -/
def kindNames : List String :=
  ["color", "premultiply", "unpremultiply", "color_space_conversion", "alpha", "normalize",
   "linear_blend", "radial_blend", "barycentric_blend", "linear_gradient", "radial_gradient",
   "filter", "phong", "blend_compose", "stack", "path_boolean"]

/-- The kind that a tag names. -/
def tag? (nested : Bool) : Json → Option String
  | .string s => s
  | .number n => if nested then do kindNames[← n.natural? 255]? else none
  | _ => none

/-- The tag of a node and what is left of the record. -/
def tagged? (nested : Bool) : Json → Option (String × Json)
  | .object fields => do
    let tag ← tag? nested (← (← unique? "type" fields))
    return (tag, .object fields)
  | .array (tag :: rest) => do return (← tag? nested tag, .array rest)
  | _ => none

/-- A stop: its ratio and its program. -/
def stop? (child : Json → Option (Tree Float)) (j : Json) : Option (Float × Tree Float) := do
  let s ← slots? ["ratio", "program"] j
  return (← s.required 0 double?, ← s.required 1 child)

/-- The two programs of a light. -/
def light? (child : Json → Option (Tree Float)) (j : Json) : Option (List (Tree Float)) := do
  let s ← slots? ["direction", "color"] j
  return [← s.required 0 child, ← s.required 1 child]

/-- A node of a kind from its parameters and children. -/
def node? (child : Json → Option (Tree Float)) (kind : String) (body : Json) :
    Option (Tree Float) := do
  match kind with
  | "color" =>
    let s ← slots? ["color"] body
    return .node () (.color (← s.required 0 vec4?)) []
  | "premultiply" => single ["child"] .premultiply
  | "unpremultiply" => single ["child"] .unpremultiply
  | "normalize" => single ["child"] .normalize
  | "color_space_conversion" =>
    let s ← slots? ["conversion", "child"] body
    let conversion ← s.required 0 (oneOf? Conversion.all Conversion.name)
    return .node () (.convert conversion) [← s.required 1 child]
  | "alpha" =>
    let s ← slots? ["alpha", "child"] body
    return .node () (.alpha (← s.required 0 double?)) [← s.required 1 child]
  | "linear_blend" =>
    let s ← slots? ["scaled_normal", "offset", "accuracy", "zero", "one"] body
    let ramp : LinearRamp Float := ⟨← s.required 0 point?, ← s.required 1 double?⟩
    return .node () (.linearBlend ramp (← accuracy? s 2))
      [← s.required 3 child, ← s.required 4 child]
  | "radial_blend" =>
    let s ← slots? ["transform", "radius0", "radius1", "accuracy", "zero", "one"] body
    return .node ()
      (.radialBlend (← transform? s 0) (← s.required 1 double?) (← s.required 2 double?)
        (← accuracy? s 3))
      [← s.required 4 child, ← s.required 5 child]
  | "barycentric_blend" =>
    let s ← slots? ["points", "depths", "accuracy", "a", "b", "c"] body
    let depths ← s.defaulted 1 none (Slots.orNull (triple? double?))
    return .node ()
      (.barycentricBlend (← s.required 0 (triple? point?)) depths (← accuracy? s 2))
      [← s.required 3 child, ← s.required 4 child, ← s.required 5 child]
  | "linear_gradient" =>
    let s ← slots? ["transform", "start", "end", "stops", "extend", "accuracy"] body
    let stops ← s.required 3 (list? (stop? child))
    return .node ()
      (.linearGradient (← transform? s 0) (← s.required 1 point?) (← s.required 2 point?)
        (stops.map (·.1)) (← extend? s 4) (← accuracy? s 5))
      (stops.map (·.2))
  | "radial_gradient" =>
    let s ← slots? ["transform", "start", "start_radius", "end", "end_radius", "stops", "extend",
      "accuracy"] body
    let stops ← s.required 5 (list? (stop? child))
    return .node ()
      (.radialGradient (← transform? s 0) (← s.required 1 point?) (← s.required 2 double?)
        (← s.required 3 point?) (← s.required 4 double?) (stops.map (·.1)) (← extend? s 6)
        (← accuracy? s 7))
      (stops.map (·.2))
  | "filter" =>
    let s ← slots? ["matrix", "translation", "child"] body
    let (r0, r1, r2, r3) ← s.required 0 rows?
    return .node () (.filter ⟨r0, r1, r2, r3, ← s.defaulted 1 .zero vec4?⟩)
      [← s.required 2 child]
  | "phong" =>
    let s ← slots? ["alpha", "ambient", "diffuse", "specular", "position", "normal", "lights"] body
    let surface := [← s.required 1 child, ← s.required 2 child, ← s.required 3 child,
      ← s.required 4 child, ← s.required 5 child]
    let lights ← s.defaulted 6 [] (list? (light? child))
    return .node () (.phong (← s.required 0 double?)) (surface ++ lights.flatten)
  | "blend_compose" =>
    let s ← slots? ["compose", "blend", "a", "b"] body
    let compose ← s.defaulted 0 default (oneOf? Compose.all Compose.name)
    let blend ← s.defaulted 1 default (oneOf? Blend.all Blend.name)
    return .node () (.blendCompose compose blend) [← s.required 2 child, ← s.required 3 child]
  | "stack" =>
    let s ← slots? ["layers"] body
    return .node () .stack (← s.required 0 (list? child))
  | "path_boolean" =>
    let s ← slots? ["path", "inside", "outside"] body
    return .node () (.pathBoolean (← s.required 0 path?))
      [← s.required 1 child, ← s.required 2 child]
  | _ => none
where
  /-- A node without parameters. -/
  single (names : List String) (kind : Kind Float) : Option (Tree Float) := do
    let s ← slots? names body
    return .node () kind [← s.required 0 child]

/-- A program of at most the given depth. -/
def treeWithin? : Nat → Bool → Json → Option (Tree Float)
  | 0, _, _ => none
  | depth + 1, nested, j => do
    let (kind, body) ← tagged? nested j
    node? (treeWithin? depth true) kind body

/-- The program that a value describes. -/
def tree? (j : Json) : Option (Tree Float) :=
  if j.isSound nestingLimit then treeWithin? (nestingLimit + 1) false j else none

def ofPoint (p : Point Float) : Json := ofDoubles [p.x, p.y]

/-- The stops of a gradient as records. -/
def ofStops (ratios : List Float) (children : List Json) : Json :=
  .array ((ratios.zip children).map fun s ↦
    .record [("ratio", ofDouble s.1), ("program", s.2)])

/-- The directions and colors of lights as records. -/
def ofLights : List Json → List Json
  | direction :: color :: rest =>
    .record [("direction", direction), ("color", color)] :: ofLights rest
  | _ => []

/-- Children under their names. -/
def ofChildren (names : List String) (children : List Json) : List (String × Json) :=
  names.zip children

/-- The fields of a node behind its type. -/
def ofKind (kind : Kind Float) (children : List Json) : List (String × Json) :=
  match kind with
  | .color c => [("color", ofDoubles c.toList)]
  | .premultiply | .unpremultiply | .normalize => ofChildren ["child"] children
  | .convert conversion =>
    ("conversion", name conversion.name) :: ofChildren ["child"] children
  | .alpha factor => ("alpha", ofDouble factor) :: ofChildren ["child"] children
  | .linearBlend ramp accuracy =>
    [("scaled_normal", ofPoint ramp.normal), ("offset", ofDouble ramp.offset),
      ("accuracy", name accuracy.name)] ++ ofChildren ["zero", "one"] children
  | .radialBlend transform radius0 radius1 accuracy =>
    [("transform", ofDoubles transform.toList), ("radius0", ofDouble radius0),
      ("radius1", ofDouble radius1), ("accuracy", name accuracy.name)] ++
      ofChildren ["zero", "one"] children
  | .barycentricBlend corners depths accuracy =>
    let depths := match depths with
      | some z => [("depths", ofDoubles z.toList)]
      | none => []
    [("points", .array (corners.toList.map ofPoint))] ++ depths ++
      [("accuracy", name accuracy.name)] ++ ofChildren ["a", "b", "c"] children
  | .linearGradient transform start stop ratios extend accuracy =>
    [("transform", ofDoubles transform.toList), ("start", ofPoint start), ("end", ofPoint stop),
      ("stops", ofStops ratios children), ("extend", name extend.name),
      ("accuracy", name accuracy.name)]
  | .radialGradient transform start startRadius stop stopRadius ratios extend accuracy =>
    [("transform", ofDoubles transform.toList), ("start", ofPoint start),
      ("start_radius", ofDouble startRadius), ("end", ofPoint stop),
      ("end_radius", ofDouble stopRadius), ("stops", ofStops ratios children),
      ("extend", name extend.name), ("accuracy", name accuracy.name)]
  | .filter m =>
    [("matrix", ofDoubles m.entries), ("translation", ofDoubles m.shift.toList)] ++
      ofChildren ["child"] children
  | .phong shininess =>
    ("alpha", ofDouble shininess) ::
      ofChildren ["ambient", "diffuse", "specular", "position", "normal"] children ++
      [("lights", .array (ofLights (children.drop 5)))]
  | .blendCompose compose blend =>
    [("compose", name compose.name), ("blend", name blend.name)] ++
      ofChildren ["a", "b"] children
  | .stack => [("layers", .array children)]
  | .pathBoolean path =>
    ("path", .record [("id", ofInt path.id), ("fill_rule", name path.fillRule.name)]) ::
      ofChildren ["inside", "outside"] children

/-- The value that describes a program. -/
def ofTree : Tree Float → Json :=
  Program.fold fun kind children ↦ .record (("type", name kind.name) :: ofKind kind children)

end Json

namespace Tree

/-- The program of a document. -/
def ofText? (text : String) : Option (Tree Float) := do Json.tree? (← Json.parse? text)

/-- The document of a program. -/
def toText (t : Tree Float) : String := (Json.ofTree t).pretty 0

/-- Two plain trees have the same structure. -/
def eq {R : Type} [Scalar R] (s t : Tree R) : Bool := Program.eq (fun _ _ ↦ false) s t

end Tree

namespace Build

variable {R : Type} [Scalar R]

mutual

/-- A plain tree as a program without sharing, each node checked after its children. -/
def ofTree : Tree R → Build R (Except ValidationError (Shared R))
  | .node _ kind children => do
    match ← ofTrees children with
    | .ok children => checked kind children
    | .error cause => return .error cause

def ofTrees : List (Tree R) → Build R (Except ValidationError (List (Shared R)))
  | [] => return .ok []
  | t :: rest => do
    match ← ofTree t with
    | .error cause => return .error cause
    | .ok p =>
      match ← ofTrees rest with
      | .ok ps => return .ok (p :: ps)
      | .error cause => return .error cause

end

end Build

end Shading
