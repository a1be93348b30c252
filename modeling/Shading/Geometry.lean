import Shading.Single

/-!
# Plane geometry

Points, displacements, rectangles and affine maps of the plane. A displacement is a `Point` too:
the difference of two points, with `dot` and `length`.
-/

namespace Shading

/-- A point of the plane, or the displacement between two. -/
structure Point (K : Type) where
  x : K
  y : K
deriving DecidableEq, Repr, Inhabited

namespace Point

variable {K L : Type}

def map (f : K → L) (p : Point K) : Point L := ⟨f p.x, f p.y⟩

variable [Scalar K]

def origin : Point K := ⟨0, 0⟩

def sub (p q : Point K) : Point K := ⟨p.x - q.x, p.y - q.y⟩

instance : Sub (Point K) := ⟨sub⟩

def eq (p q : Point K) : Bool := p.x == q.x && p.y == q.y

def dot (p q : Point K) : K := p.x * q.x + p.y * q.y

/-- The square of the length. -/
def normSq (p : Point K) : K := p.dot p

def length (p : Point K) : K := Scalar.sqrt p.normSq

/-- Division by a number, through its reciprocal. -/
def divide (p : Point K) (s : K) : Point K :=
  let r := 1 / s
  ⟨p.x * r, p.y * r⟩

def isFinite (p : Point K) : Bool := Scalar.isFinite p.x && Scalar.isFinite p.y

end Point

/-- An axis-aligned rectangle between two opposite corners, kept as given. -/
structure Rect (K : Type) where
  x0 : K
  y0 : K
  x1 : K
  y1 : K
deriving DecidableEq, Repr, Inhabited

namespace Rect

variable {K L : Type}

def map (f : K → L) (r : Rect K) : Rect L := ⟨f r.x0, f r.y0, f r.x1, f r.y1⟩

variable [Scalar K]

def area (r : Rect K) : K := (r.x1 - r.x0) * (r.y1 - r.y0)

/-- The midpoint of the two corners. -/
def center (r : Rect K) : Point K := ⟨0.5 * (r.x0 + r.x1), 0.5 * (r.y0 + r.y1)⟩

def isFinite (r : Rect K) : Bool :=
  Scalar.isFinite r.x0 && Scalar.isFinite r.y0 && Scalar.isFinite r.x1 && Scalar.isFinite r.y1

end Rect

/-- The affine map that takes `(x, y)` to `(a x + c y + e, b x + d y + f)`. -/
structure Affine (K : Type) where
  a : K
  b : K
  c : K
  d : K
  e : K
  f : K
deriving DecidableEq, Repr, Inhabited

namespace Affine

variable {K L : Type}

def map (g : K → L) (m : Affine K) : Affine L := ⟨g m.a, g m.b, g m.c, g m.d, g m.e, g m.f⟩

def toList (m : Affine K) : List K := [m.a, m.b, m.c, m.d, m.e, m.f]

variable [Scalar K]

def identity : Affine K := ⟨1, 0, 0, 1, 0, 0⟩

/-- The image of a point. -/
def apply (m : Affine K) (p : Point K) : Point K :=
  ⟨m.a * p.x + m.c * p.y + m.e, m.b * p.x + m.d * p.y + m.f⟩

def determinant (m : Affine K) : K := m.a * m.d - m.b * m.c

def inverse (m : Affine K) : Affine K :=
  let i := 1 / m.determinant
  ⟨i * m.d, -i * m.b, -i * m.c, i * m.a, i * (m.c * m.f - m.d * m.e), i * (m.b * m.e - m.a * m.f)⟩

/-- The map that applies the second map first. -/
def compose (m n : Affine K) : Affine K where
  a := m.a * n.a + m.c * n.b
  b := m.b * n.a + m.d * n.b
  c := m.a * n.c + m.c * n.d
  d := m.b * n.c + m.d * n.d
  e := m.a * n.e + m.c * n.f + m.e
  f := m.b * n.e + m.d * n.f + m.f

def eq (m n : Affine K) : Bool :=
  m.a == n.a && m.b == n.b && m.c == n.c && m.d == n.d && m.e == n.e && m.f == n.f

def isFinite (m : Affine K) : Bool := m.toList.all Scalar.isFinite

/-- The determinant is not so small that dividing by it is meaningless. -/
def isInvertible (m : Affine K) : Bool :=
  !(Scalar.abs m.determinant ≤ Scalar.doubleEpsilon : Bool)

end Affine

end Shading
