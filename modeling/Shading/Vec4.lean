import Shading.Single

/-!
# Four-component vectors

Colors are vectors of four channels: red, green, blue and alpha, the first three multiplied by
alpha unless said otherwise. Positions, normals and directions of lighting use the first three.

Each operation fixes the order of its arithmetic, because machine numbers show it.
-/

namespace Shading

/-- Four components; of a color, the last one is alpha. -/
structure Vec4 (K : Type) where
  x : K
  y : K
  z : K
  w : K
deriving DecidableEq, Repr, Inhabited

namespace Vec4

variable {K L : Type}

/-- The function applied to each component. -/
def map (f : K → L) (v : Vec4 K) : Vec4 L := ⟨f v.x, f v.y, f v.z, f v.w⟩

def splat (a : K) : Vec4 K := ⟨a, a, a, a⟩

def withW (v : Vec4 K) (w : K) : Vec4 K := { v with w }

def toList (v : Vec4 K) : List K := [v.x, v.y, v.z, v.w]

theorem map_map {M : Type} (g : L → M) (f : K → L) (v : Vec4 K) :
    (v.map f).map g = v.map fun a ↦ g (f a) := rfl

theorem map_id (v : Vec4 K) : v.map (fun a ↦ a) = v := rfl

variable [Scalar K]

def zero : Vec4 K := splat 0

def add (u v : Vec4 K) : Vec4 K := ⟨u.x + v.x, u.y + v.y, u.z + v.z, u.w + v.w⟩

def sub (u v : Vec4 K) : Vec4 K := ⟨u.x - v.x, u.y - v.y, u.z - v.z, u.w - v.w⟩

/-- Every component multiplied by a number. -/
def scale (v : Vec4 K) (s : K) : Vec4 K := ⟨v.x * s, v.y * s, v.z * s, v.w * s⟩

/-- The opposite vector, by multiplication with minus one. -/
def neg (v : Vec4 K) : Vec4 K := v.scale (-1)

instance : Add (Vec4 K) := ⟨add⟩
instance : Sub (Vec4 K) := ⟨sub⟩
instance : Neg (Vec4 K) := ⟨neg⟩
instance : HMul (Vec4 K) K (Vec4 K) := ⟨scale⟩

/-- All components are numerically equal. -/
def eq (u v : Vec4 K) : Bool := u.x == v.x && u.y == v.y && u.z == v.z && u.w == v.w

def dot (u v : Vec4 K) : K := u.x * v.x + u.y * v.y + u.z * v.z + u.w * v.w

/-- The dot product of the first three components. -/
def dot3 (u v : Vec4 K) : K := u.x * v.x + u.y * v.y + u.z * v.z

def magnitude (v : Vec4 K) : K := Scalar.sqrt (v.dot v)

/-- The vector of length one in the same direction; a vector without length gives zero. -/
def normalized (v : Vec4 K) : Vec4 K :=
  let m := v.magnitude
  if 0 < m then v * (1 / m) else zero

def componentMul (u v : Vec4 K) : Vec4 K := ⟨u.x * v.x, u.y * v.y, u.z * v.z, u.w * v.w⟩

def clamped (v : Vec4 K) (lo hi : K) : Vec4 K := v.map (Scalar.clamp lo hi)

/-- Every component, or the bound if that is smaller. -/
def minEach (v : Vec4 K) (bound : K) : Vec4 K := v.map fun c ↦ Scalar.min c bound

/-- The mixture with weight `1 - t` on the first vector and `t` on the second. -/
def lerp (u v : Vec4 K) (t : K) : Vec4 K := u * (1 - t) + v * t

def isFinite (v : Vec4 K) : Bool :=
  Scalar.isFinite v.x && Scalar.isFinite v.y && Scalar.isFinite v.z && Scalar.isFinite v.w

/-- No component differs by more than the tolerance. -/
def approxEq (u v : Vec4 K) (tolerance : K) : Bool :=
  Scalar.abs (u.x - v.x) ≤ tolerance && Scalar.abs (u.y - v.y) ≤ tolerance &&
    Scalar.abs (u.z - v.z) ≤ tolerance && Scalar.abs (u.w - v.w) ≤ tolerance

end Vec4

end Shading
