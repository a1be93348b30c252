import Shading.Vec4

/-!
# Filters and lighting

The two operations on colors that use more than one coefficient: an affine map of the four
channels, and Phong lighting from any number of lights.
-/

namespace Shading

variable {K L : Type}

/-- An affine map of the four channels: the rows of a matrix, and a shift. -/
structure ColorFilter (K : Type) where
  row0 : Vec4 K
  row1 : Vec4 K
  row2 : Vec4 K
  row3 : Vec4 K
  shift : Vec4 K
deriving DecidableEq, Repr

namespace ColorFilter

def map (f : K → L) (m : ColorFilter K) : ColorFilter L :=
  ⟨m.row0.map f, m.row1.map f, m.row2.map f, m.row3.map f, m.shift.map f⟩

/-- The rows one after the other. -/
def entries (m : ColorFilter K) : List K :=
  m.row0.toList ++ m.row1.toList ++ m.row2.toList ++ m.row3.toList

variable [Scalar K]

def apply (m : ColorFilter K) (c : Vec4 K) : Vec4 K :=
  ⟨row m.row0, row m.row1, row m.row2, row m.row3⟩ + m.shift
where
  row (r : Vec4 K) : K := Scalar.sum [r.x * c.x, r.y * c.y, r.z * c.z, r.w * c.w]

def isFinite (m : ColorFilter K) : Bool :=
  m.entries.all Scalar.isFinite && m.shift.isFinite

def eq (m n : ColorFilter K) : Bool :=
  m.row0.eq n.row0 && m.row1.eq n.row1 && m.row2.eq n.row2 && m.row3.eq n.row3 &&
    m.shift.eq n.shift

end ColorFilter

/-- A light: where it shines from, and its color. -/
structure Light (K : Type) where
  direction : Vec4 K
  color : Vec4 K

/-- The consecutive pairs of a list as lights; a last single element is dropped. -/
def Light.ofPairs : List (Vec4 K) → List (Light K)
  | direction :: color :: rest => ⟨direction, color⟩ :: ofPairs rest
  | _ => []

/-- The surface that is lit: its three reflectances, its place and its normal. -/
structure Surface (K : Type) where
  ambient : Vec4 K
  diffuse : Vec4 K
  specular : Vec4 K
  position : Vec4 K
  normal : Vec4 K

namespace Surface

variable [Scalar K]

/-- The direction to the viewer, who is at the origin; at the origin itself, straight up. -/
def view (s : Surface K) : Vec4 K :=
  let v := ((-s.position).withW 0).normalized
  if v.eq .zero then ⟨0, 0, 1, 0⟩ else v

/-- What one light adds: nothing from behind, otherwise a diffuse and a specular term. -/
def lit (s : Surface K) (shininess : K) (light : Light K) (sum : Vec4 K) : Vec4 K :=
  let normal := s.normal.withW 0
  let direction := light.direction.withW 0
  let facing := normal.dot3 direction
  if facing ≤ 0 then sum
  else
    let reflected := normal * (2 * facing) - direction
    let gloss := Scalar.pow (Scalar.max (reflected.dot3 s.view) 0) shininess
    sum + (light.color.componentMul (s.diffuse * facing + s.specular * gloss)).withW 0

/-- The ambient color and what all lights add to it, each channel clamped to the unit interval. The
alpha is that of the ambient color. -/
def phong (s : Surface K) (shininess : K) (lights : List (Light K)) : Vec4 K :=
  (lights.foldl (fun sum light ↦ s.lit shininess light sum) s.ambient).clamped 0 1

end Surface

/-- Phong lighting of five surface inputs followed by the directions and colors of lights; none if
there are fewer than five. -/
def phong? [Scalar K] (shininess : K) : List (Vec4 K) → Option (Vec4 K)
  | ambient :: diffuse :: specular :: position :: normal :: lights =>
    some (Surface.phong ⟨ambient, diffuse, specular, position, normal⟩ shininess
      (Light.ofPairs lights))
  | _ => none

end Shading
