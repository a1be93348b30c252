import Std.Data.HashSet
import Shading.Color.Blend
import Shading.Gradient
import Shading.Lighting
import Shading.Path
import Shading.Ramp

/-!
# Programs

A program describes the color of every sample: constants and operations on colors, blends and
gradients that depend on where the sample lies, stacks of layers, and choices between the two sides
of a path. It is a tree of nodes, each with a kind and a list of children.

Shape decisions:

* a node carries a name of type `ι`. Programs that share nodes are named by numbers
  (`Shared`), and a node that occurs twice has the same name twice; a plain tree has the trivial
  name (`Tree`). Meaning, flags, sizes and instructions do not look at names;
* an analysis of programs is a function from a kind and the answers for the children to an answer.
  `Program.fold` extends it to programs, and `fold_node` is the only equation needed of it;
* children are a list of any length. Which lengths a kind accepts is a question of validity, and
  analyses give some answer also for other lengths.
-/

namespace Shading

variable {R : Type}

/-- What a node does with its children. -/
inductive Kind (R : Type) where
  /-- A constant premultiplied color. -/
  | color (value : Vec4 R)
  | premultiply
  | unpremultiply
  | convert (conversion : Conversion)
  /-- All four channels of the child, multiplied. -/
  | alpha (factor : R)
  | normalize
  /-- From the first child to the second, across a strip of the plane. -/
  | linearBlend (ramp : LinearRamp R) (accuracy : Accuracy)
  /-- From the first child to the second, between two distances from the local origin. -/
  | radialBlend (transform : Affine R) (radius0 radius1 : R) (accuracy : Accuracy)
  /-- Three children weighted by the position within a triangle. -/
  | barycentricBlend (corners : Triple (Point R)) (depths : Option (Triple R)) (accuracy : Accuracy)
  /-- One child per stop, along an axis. -/
  | linearGradient (transform : Affine R) (start stop : Point R) (ratios : List R)
      (extend : Extend) (accuracy : Accuracy)
  /-- One child per stop, from one circle to another. -/
  | radialGradient (transform : Affine R) (start : Point R) (startRadius : R) (stop : Point R)
      (stopRadius : R) (ratios : List R) (extend : Extend) (accuracy : Accuracy)
  | filter (filter : ColorFilter R)
  /-- Ambient, diffuse, specular, position and normal, then direction and color of each light. -/
  | phong (shininess : R)
  /-- The first child on the second. -/
  | blendCompose (compose : Compose) (blend : Blend)
  /-- Layers from the bottom to the top. -/
  | stack
  /-- The first child inside a path, the second outside. -/
  | pathBoolean (path : Path)

namespace Kind

/-- The name of a kind in text formats and messages. -/
def name : Kind R → String
  | .color .. => "color"
  | .premultiply => "premultiply"
  | .unpremultiply => "unpremultiply"
  | .convert .. => "color_space_conversion"
  | .alpha .. => "alpha"
  | .normalize => "normalize"
  | .linearBlend .. => "linear_blend"
  | .radialBlend .. => "radial_blend"
  | .barycentricBlend .. => "barycentric_blend"
  | .linearGradient .. => "linear_gradient"
  | .radialGradient .. => "radial_gradient"
  | .filter .. => "filter"
  | .phong .. => "phong"
  | .blendCompose .. => "blend_compose"
  | .stack => "stack"
  | .pathBoolean .. => "path_boolean"

/-- Where a position dependent kind takes its sample. -/
def accuracy? : Kind R → Option Accuracy
  | .linearBlend _ accuracy | .radialBlend _ _ _ accuracy | .barycentricBlend _ _ accuracy
  | .linearGradient _ _ _ _ _ accuracy | .radialGradient _ _ _ _ _ _ _ accuracy => some accuracy
  | _ => none

/-- The value depends on where the sample is taken. -/
def isPositionDependent (kind : Kind R) : Bool := kind.accuracy?.isSome

def isStack : Kind R → Bool
  | .stack => true
  | _ => false

/-- The constant of a color. -/
def color? : Kind R → Option (Vec4 R)
  | .color c => some c
  | _ => none

variable [Scalar R]

/-- The axis of a linear gradient, as it is computed with. -/
def linearAxis (transform : Affine R) (start stop : Point R) : LinearAxis R :=
  ⟨transform.inverse, start, stop - start⟩

/-- The circles of a radial gradient, as they are computed with. -/
def circlePair (transform : Affine R) (start : Point R) (startRadius : R) (stop : Point R)
    (stopRadius : R) : CirclePair R :=
  ⟨transform.inverse, start, startRadius, stop, stopRadius⟩

/-- Numeric equality of lists. -/
def listEq : List R → List R → Bool
  | [], [] => true
  | a :: as, b :: bs => a == b && listEq as bs
  | _, _ => false

/-- Numeric equality of the corners or of the depths of a triangle. -/
def tripleEq {A : Type} (eq : A → A → Bool) (s t : Triple A) : Bool :=
  eq s.a t.a && eq s.b t.b && eq s.c t.c

/-- The kinds agree, numbers compared numerically. -/
def eq : Kind R → Kind R → Bool
  | .color c, .color c' => c.eq c'
  | .premultiply, .premultiply | .unpremultiply, .unpremultiply => true
  | .convert v, .convert v' => v == v'
  | .alpha a, .alpha a' => a == a'
  | .normalize, .normalize => true
  | .linearBlend r k, .linearBlend r' k' =>
    r.normal.eq r'.normal && r.offset == r'.offset && k == k'
  | .radialBlend t r s k, .radialBlend t' r' s' k' => t.eq t' && r == r' && s == s' && k == k'
  | .barycentricBlend p d k, .barycentricBlend p' d' k' =>
    tripleEq Point.eq p p' && depthsEq d d' && k == k'
  | .linearGradient t p q r x k, .linearGradient t' p' q' r' x' k' =>
    t.eq t' && p.eq p' && q.eq q' && listEq r r' && x == x' && k == k'
  | .radialGradient t p r q s l x k, .radialGradient t' p' r' q' s' l' x' k' =>
    t.eq t' && p.eq p' && r == r' && q.eq q' && s == s' && listEq l l' && x == x' && k == k'
  | .filter m, .filter m' => m.eq m'
  | .phong s, .phong s' => s == s'
  | .blendCompose c b, .blendCompose c' b' => c == c' && b == b'
  | .stack, .stack => true
  | .pathBoolean p, .pathBoolean p' => p == p'
  | _, _ => false
where
  depthsEq : Option (Triple R) → Option (Triple R) → Bool
    | none, none => true
    | some s, some t => tripleEq (· == ·) s t
    | _, _ => false

end Kind

/-- A tree of nodes, each with a name, a kind and children. -/
inductive Program (ι R : Type) where
  | node (name : ι) (kind : Kind R) (children : List (Program ι R))

/-- A program whose nodes are numbered, so that one node may occur in several places. -/
abbrev Shared (R : Type) := Program Nat R

/-- A program without names. -/
abbrev Tree (R : Type) := Program Unit R

namespace Program

variable {ι κ α : Type}

def name : Program ι R → ι
  | .node n _ _ => n

def kind : Program ι R → Kind R
  | .node _ k _ => k

def children : Program ι R → List (Program ι R)
  | .node _ _ cs => cs

mutual

/-- What holds of a node whenever it holds of its children holds of every program. -/
theorem induct {motive : Program ι R → Prop}
    (node : ∀ n k cs, (∀ c ∈ cs, motive c) → motive (.node n k cs)) : ∀ p, motive p
  | .node n k cs => node n k cs (inductEach node cs)

theorem inductEach {motive : Program ι R → Prop}
    (node : ∀ n k cs, (∀ c ∈ cs, motive c) → motive (.node n k cs)) :
    ∀ cs : List (Program ι R), ∀ c ∈ cs, motive c
  | [], _, h => by cases h
  | d :: ds, c, h =>
    (List.mem_cons.1 h).elim (fun e ↦ e ▸ induct node d) (inductEach node ds c)

end

mutual

/-- The answer of an analysis: at each node, from its kind and the answers for its children. -/
def fold (f : Kind R → List α → α) : Program ι R → α
  | .node _ k cs => f k (foldEach f cs)

/-- The answers of an analysis for a list of programs. -/
def foldEach (f : Kind R → List α → α) : List (Program ι R) → List α
  | [] => []
  | c :: cs => fold f c :: foldEach f cs

end

theorem foldEach_eq_map (f : Kind R → List α → α) (cs : List (Program ι R)) :
    foldEach f cs = cs.map (fold f) := by
  induction cs with
  | nil => rfl
  | cons c cs ih => rw [foldEach, ih, List.map_cons]

theorem fold_node (f : Kind R → List α → α) (n : ι) (k : Kind R) (cs : List (Program ι R)) :
    fold f (.node n k cs) = f k (cs.map (fold f)) := by
  rw [fold, foldEach_eq_map]

mutual

/-- The same tree with other names. -/
def rename (f : ι → κ) : Program ι R → Program κ R
  | .node n k cs => .node (f n) k (renameEach f cs)

def renameEach (f : ι → κ) : List (Program ι R) → List (Program κ R)
  | [] => []
  | c :: cs => rename f c :: renameEach f cs

end

/-- The tree that a shared program unfolds to. -/
def unfold (p : Shared R) : Tree R := p.rename fun _ ↦ ()

/-- The sum of numbers found for children. -/
def total (counts : List Nat) : Nat := counts.foldr (fun n m ↦ n + m) 0

/-- The number of nodes, shared ones counted once per occurrence. -/
def nodeCount : Program ι R → Nat := fold fun _ counts ↦ 1 + total counts

/-- The constant of a color. -/
def color? (p : Program ι R) : Option (Vec4 R) := p.kind.color?

mutual

/-- The programs agree: by name, if names tell, or else in kind and children. -/
def eq [Scalar R] (sameName : ι → ι → Bool) : Program ι R → Program ι R → Bool
  | .node n k cs, .node n' k' cs' => sameName n n' || (k.eq k' && eqEach sameName cs cs')

def eqEach [Scalar R] (sameName : ι → ι → Bool) :
    List (Program ι R) → List (Program ι R) → Bool
  | [], [] => true
  | c :: cs, c' :: cs' => eq sameName c c' && eqEach sameName cs cs'
  | _, _ => false

end

end Program

namespace Shared

/-- The very same node. -/
def identical (p q : Shared R) : Bool := p.name == q.name

/-- The programs have the same structure; a node always equals itself. -/
def eq [Scalar R] (p q : Shared R) : Bool := Program.eq (· == ·) p q

mutual

/-- The numbers of the nodes of a program, added to those seen already. -/
def collect (seen : Std.HashSet Nat) : Shared R → Std.HashSet Nat
  | .node n _ cs => if seen.contains n then seen else collectEach (seen.insert n) cs

def collectEach (seen : Std.HashSet Nat) : List (Shared R) → Std.HashSet Nat
  | [] => seen
  | c :: cs => collectEach (collect seen c) cs

end

/-- The number of different nodes of a program. -/
def distinctCount (p : Shared R) : Nat := (collect {} p).size

end Shared

end Shading
