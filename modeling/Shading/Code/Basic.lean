import Shading.Color.Blend
import Shading.Gradient
import Shading.Lighting
import Shading.Ramp

/-!
# Instructions

Programs run as flat lists of instructions for a machine with a stack of values and a stack of
return addresses. A line of a list is an instruction or marks a location that instructions jump to.

Shape decisions: an instruction is polymorphic in what its jumps refer to. As it is written, jumps
refer to locations of the list; linked, to indices of instructions; decoded, to addresses of words.
`Instruction.map` passes from one to another, and `Instruction.targets` lists the references in a
fixed order. Operands are single precision numbers, held in the structures that the ramps compute
with.
-/

namespace Shading

/-- The four places that a blend leads to. -/
structure Branches (ℓ : Type) where
  zero : ℓ
  one : ℓ
  /-- Where the two values are blended. -/
  blend : ℓ
  /-- What follows the whole blend. -/
  done : ℓ
deriving DecidableEq, Repr

/-- The ratios and places of the stops of a gradient, and the two places behind them. -/
structure StopTable (ℓ : Type) where
  ratios : List Single
  stops : List ℓ
  blend : ℓ
  done : ℓ
deriving DecidableEq, Repr

/-- One step of the machine. -/
inductive Instruction (ℓ : Type) where
  | exit
  | ret
  | pushColor (color : Vec4 Single)
  /-- Jumps if the value on top is opaque. -/
  | opaqueJump (target : ℓ)
  | stackBlend
  /-- Mixes two values by the ratio below them. -/
  | mix
  | blendCompose (compose : Compose) (blend : Blend)
  | premultiply
  | unpremultiply
  | convert (conversion : Conversion)
  | multiplyScalar (factor : Single)
  | normalize
  | filter (filter : ColorFilter Single)
  | phong (shininess : Single) (lights : Nat)
  | linearBlendRatio (ramp : LinearRamp Single) (accuracy : Accuracy) (branches : Branches ℓ)
  | radialBlendRatio (ramp : RadialRamp Single) (accuracy : Accuracy) (branches : Branches ℓ)
  | linearGradientRatio (axis : LinearAxis Single) (accuracy : Accuracy) (extend : Extend)
      (table : StopTable ℓ)
  | radialGradientRatio (circles : CirclePair Single) (accuracy : Accuracy) (extend : Extend)
      (table : StopTable ℓ)
  | barycentricBlend (triangle : Triangle Single) (accuracy : Accuracy)
deriving DecidableEq, Repr

/-- A line of a list: a mark for a location, or an instruction. -/
inductive Line where
  | mark (location : Nat)
  | op (instruction : Instruction Nat)
deriving DecidableEq, Repr

variable {ℓ ℓ' : Type}

namespace Branches

def map (f : ℓ → ℓ') (b : Branches ℓ) : Branches ℓ' := ⟨f b.zero, f b.one, f b.blend, f b.done⟩

def targets (b : Branches ℓ) : List ℓ := [b.zero, b.one, b.blend, b.done]

end Branches

namespace StopTable

def map (f : ℓ → ℓ') (t : StopTable ℓ) : StopTable ℓ' :=
  ⟨t.ratios, t.stops.map f, f t.blend, f t.done⟩

def targets (t : StopTable ℓ) : List ℓ := t.stops ++ [t.blend, t.done]

end StopTable

namespace Instruction

/-- Every place that the instruction may lead to. -/
def targets : Instruction ℓ → List ℓ
  | .opaqueJump target => [target]
  | .linearBlendRatio _ _ branches | .radialBlendRatio _ _ branches => branches.targets
  | .linearGradientRatio _ _ _ table | .radialGradientRatio _ _ _ table => table.targets
  | _ => []

/-- The instruction with its references passed through a function. -/
def map (f : ℓ → ℓ') : Instruction ℓ → Instruction ℓ'
  | .exit => .exit
  | .ret => .ret
  | .pushColor color => .pushColor color
  | .opaqueJump target => .opaqueJump (f target)
  | .stackBlend => .stackBlend
  | .mix => .mix
  | .blendCompose compose blend => .blendCompose compose blend
  | .premultiply => .premultiply
  | .unpremultiply => .unpremultiply
  | .convert conversion => .convert conversion
  | .multiplyScalar factor => .multiplyScalar factor
  | .normalize => .normalize
  | .filter m => .filter m
  | .phong shininess lights => .phong shininess lights
  | .linearBlendRatio ramp accuracy branches => .linearBlendRatio ramp accuracy (branches.map f)
  | .radialBlendRatio ramp accuracy branches => .radialBlendRatio ramp accuracy (branches.map f)
  | .linearGradientRatio axis accuracy extend table =>
    .linearGradientRatio axis accuracy extend (table.map f)
  | .radialGradientRatio circles accuracy extend table =>
    .radialGradientRatio circles accuracy extend (table.map f)
  | .barycentricBlend triangle accuracy => .barycentricBlend triangle accuracy

/-- Renaming locations renames the targets. -/
theorem targets_map (f : ℓ → ℓ') (i : Instruction ℓ) : (i.map f).targets = i.targets.map f := by
  cases i <;> simp [map, targets, Branches.map, Branches.targets, StopTable.map, StopTable.targets]

/-- The number of words of the encoded instruction. -/
def length : Instruction ℓ → Nat
  | .pushColor _ => 5
  | .opaqueJump _ | .multiplyScalar _ | .phong .. => 2
  | .filter _ => 21
  | .linearBlendRatio .. => 8
  | .radialBlendRatio .. => 13
  | .linearGradientRatio _ _ _ table => 13 + 2 * table.ratios.length
  | .radialGradientRatio _ _ _ table => 15 + 2 * table.ratios.length
  | .barycentricBlend triangle _ => if triangle.depths.isSome then 11 else 8
  | _ => 1

/-- Every instruction takes a word. -/
theorem length_pos (i : Instruction ℓ) : 0 < i.length := by
  cases i with
  | barycentricBlend triangle _ => rw [length]; split <;> decide
  | _ => simp only [length]; omega

/-- Renaming locations changes no length. -/
theorem length_map (f : ℓ → ℓ') (i : Instruction ℓ) : (i.map f).length = i.length := by
  cases i <;> rfl

end Instruction

namespace Line

/-- The instruction on a line. -/
def instruction? : Line → Option (Instruction Nat)
  | .mark _ => none
  | .op i => some i

/-- The number of words of the encoded line; a mark takes no room. -/
def length : Line → Nat
  | .mark _ => 0
  | .op i => i.length

/-- The locations of a line, marked or referred to, passed through a function. -/
def mapLocations (f : Nat → Nat) : Line → Line
  | .mark location => .mark (f location)
  | .op i => .op (i.map f)

/-- The instructions of a list, in order. -/
def instructions (lines : List Line) : List (Instruction Nat) := lines.filterMap instruction?

end Line

end Shading
