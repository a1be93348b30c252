import Shading.Code.Basic

/-!
# Equality of lists

Two lists are equal if they have the same instructions, up to the numbering of locations and the
places of marks: a location counts as the index of the instruction that it marks. Numbers are
compared numerically.

An index has 32 bits where it is stored, with the greatest value for a location that marks nothing.
Here an index is a natural number and a location that marks nothing has none, so the two agree on
lists of fewer than 2^32 - 1 instructions: no index wraps there, and none is the greatest value.
-/

namespace Shading

/-- The index of the instruction that follows the last mark of a location, counted from `index`. -/
def positionOf (location : Nat) (index : Nat) : List Line → Option Nat
  | [] => none
  | .mark l :: rest =>
    match positionOf location index rest with
    | some i => some i
    | none => if l = location then some index else none
  | .op _ :: rest => positionOf location (index + 1) rest

/-- The instructions of a list, with every location replaced by the index that it marks, or by
nothing if it marks none. -/
def canonical (lines : List Line) : List (Instruction (Option Nat)) :=
  (Line.instructions lines).map (·.map fun l ↦ positionOf l 0 lines)

namespace Instruction

/-- The operands and references of two instructions agree, numbers compared numerically. -/
def numericEq {ℓ : Type} [DecidableEq ℓ] : Instruction ℓ → Instruction ℓ → Bool
  | .pushColor c, .pushColor c' => c.eq c'
  | .multiplyScalar s, .multiplyScalar s' => s.numericEq s'
  | .filter m, .filter m' => m.eq m'
  | .phong s n, .phong s' n' => s.numericEq s' && n == n'
  | .linearBlendRatio r k b, .linearBlendRatio r' k' b' =>
    r.normal.eq r'.normal && r.offset.numericEq r'.offset && k == k' && decide (b = b')
  | .radialBlendRatio r k b, .radialBlendRatio r' k' b' =>
    r.inverse.eq r'.inverse && r.radius0.numericEq r'.radius0 && r.radius1.numericEq r'.radius1 &&
      k == k' && decide (b = b')
  | .linearGradientRatio r k x t, .linearGradientRatio r' k' x' t' =>
    r.inverse.eq r'.inverse && r.start.eq r'.start && r.delta.eq r'.delta && k == k' && x == x' &&
      tableEq t t'
  | .radialGradientRatio r k x t, .radialGradientRatio r' k' x' t' =>
    r.inverse.eq r'.inverse && r.start.eq r'.start && r.startRadius.numericEq r'.startRadius &&
      r.stop.eq r'.stop && r.stopRadius.numericEq r'.stopRadius && k == k' && x == x' &&
      tableEq t t'
  | .barycentricBlend t k, .barycentricBlend t' k' => triangleEq t t' && k == k'
  | i, j => decide (i = j)
where
  listEq : List Single → List Single → Bool
    | [], [] => true
    | a :: as, b :: bs => a.numericEq b && listEq as bs
    | _, _ => false
  tableEq (t t' : StopTable ℓ) : Bool :=
    listEq t.ratios t'.ratios && decide (t.stops = t'.stops) && decide (t.blend = t'.blend) &&
      decide (t.done = t'.done)
  triangleEq (t t' : Triangle Single) : Bool :=
    t.corners.a.eq t'.corners.a && t.corners.b.eq t'.corners.b && t.corners.c.eq t'.corners.c &&
      t.inverseDeterminant.numericEq t'.inverseDeterminant &&
      match t.depths, t'.depths with
      | none, none => true
      | some z, some z' => listEq z.toList z'.toList
      | _, _ => false

end Instruction

/-- The instructions of two lists agree one by one. -/
def instructionsEq {ℓ : Type} [DecidableEq ℓ] : List (Instruction ℓ) → List (Instruction ℓ) → Bool
  | [], [] => true
  | i :: is, j :: js => i.numericEq j && instructionsEq is js
  | _, _ => false

/-- The lists agree, however their locations are numbered. -/
def sameInstructions (a b : List Line) : Bool := instructionsEq (canonical a) (canonical b)

end Shading
