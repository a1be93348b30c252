import Shading.Code.Basic

/-!
# Opcodes

The low byte of the first word of an encoded instruction is its opcode; the other three bytes of
that word, its header, carry small operands. The length of an instruction can be told from its
header.
-/

namespace Shading

/-- What an encoded instruction does. -/
inductive Opcode where
  | exit
  | ret
  | pushColor
  | opaqueJump
  | stackBlend
  | mix
  | blendCompose
  | premultiply
  | unpremultiply
  | convert (conversion : Conversion)
  | multiplyScalar
  | normalize
  | filter
  | phong
  | linearBlendRatio
  | radialBlendRatio
  | linearGradientRatio
  | radialGradientRatio
  | barycentricBlend
deriving DecidableEq, Repr

namespace Opcode

/-- All opcodes, in the order of their codes. -/
def all : List Opcode :=
  [.exit, .ret, .pushColor, .opaqueJump, .stackBlend, .mix, .blendCompose, .premultiply,
   .unpremultiply] ++ Conversion.all.map .convert ++
  [.multiplyScalar, .normalize, .filter, .phong, .linearBlendRatio, .radialBlendRatio,
   .linearGradientRatio, .radialGradientRatio, .barycentricBlend]

/-- The position of an opcode in `all`. -/
def code : Opcode → UInt32
  | .exit => 0x00
  | .ret => 0x01
  | .pushColor => 0x02
  | .opaqueJump => 0x03
  | .stackBlend => 0x04
  | .mix => 0x05
  | .blendCompose => 0x06
  | .premultiply => 0x07
  | .unpremultiply => 0x08
  | .convert .srgbToLinear => 0x09
  | .convert .linearToSrgb => 0x0a
  | .convert .linearToOklab => 0x0b
  | .convert .oklabToLinear => 0x0c
  | .convert .displayP3ToLinear => 0x0d
  | .convert .linearToDisplayP3 => 0x0e
  | .multiplyScalar => 0x0f
  | .normalize => 0x10
  | .filter => 0x11
  | .phong => 0x12
  | .linearBlendRatio => 0x13
  | .radialBlendRatio => 0x14
  | .linearGradientRatio => 0x15
  | .radialGradientRatio => 0x16
  | .barycentricBlend => 0x17

/-- The opcode with a code. -/
def ofCode? (n : Nat) : Option Opcode := all[n]?

/-- The opcode in the low byte of a header. -/
def ofWord? (header : UInt32) : Option Opcode := ofCode? (header &&& 0xff).toNat

/-- An opcode is found under its code. -/
theorem ofCode?_code (o : Opcode) : ofCode? o.code.toNat = some o := by
  cases o with
  | convert c => cases c <;> rfl
  | _ => rfl

def name : Opcode → String
  | .exit => "exit"
  | .ret => "return"
  | .pushColor => "push_color"
  | .opaqueJump => "opaque_jump"
  | .stackBlend => "stack_blend"
  | .mix => "blend"
  | .blendCompose => "blend_compose"
  | .premultiply => "premultiply"
  | .unpremultiply => "unpremultiply"
  | .convert conversion => conversion.name
  | .multiplyScalar => "multiply_scalar"
  | .normalize => "normalize"
  | .filter => "filter"
  | .phong => "phong"
  | .linearBlendRatio => "compute_linear_blend_ratio"
  | .radialBlendRatio => "compute_radial_blend_ratio"
  | .linearGradientRatio => "compute_linear_gradient_ratio"
  | .radialGradientRatio => "compute_radial_gradient_ratio"
  | .barycentricBlend => "barycentric_blend"

end Opcode

/-- The bit of a header that says that a triangle has depths. -/
def perspectiveFlag : UInt32 := 0x100

/-- The number of stops in the header of a gradient. -/
def headerStops (header : UInt32) : Nat := (header >>> 16).toNat

/-- The number of words of an instruction from its opcode and its header. -/
def Opcode.length (header : UInt32) : Opcode → Nat
  | .pushColor => 5
  | .opaqueJump | .multiplyScalar | .phong => 2
  | .filter => 21
  | .linearBlendRatio => 8
  | .radialBlendRatio => 13
  | .linearGradientRatio => 13 + 2 * headerStops header
  | .radialGradientRatio => 15 + 2 * headerStops header
  | .barycentricBlend => if header &&& perspectiveFlag != 0 then 11 else 8
  | _ => 1

/-- The opcode of an instruction. -/
def Instruction.opcode {ℓ : Type} : Instruction ℓ → Opcode
  | .exit => .exit
  | .ret => .ret
  | .pushColor _ => .pushColor
  | .opaqueJump _ => .opaqueJump
  | .stackBlend => .stackBlend
  | .mix => .mix
  | .blendCompose .. => .blendCompose
  | .premultiply => .premultiply
  | .unpremultiply => .unpremultiply
  | .convert conversion => .convert conversion
  | .multiplyScalar _ => .multiplyScalar
  | .normalize => .normalize
  | .filter _ => .filter
  | .phong .. => .phong
  | .linearBlendRatio .. => .linearBlendRatio
  | .radialBlendRatio .. => .radialBlendRatio
  | .linearGradientRatio .. => .linearGradientRatio
  | .radialGradientRatio .. => .radialGradientRatio
  | .barycentricBlend .. => .barycentricBlend

/-- Every header announces a word. -/
theorem Opcode.length_pos (header : UInt32) (o : Opcode) : 0 < o.length header := by
  cases o with
  | barycentricBlend => rw [length]; split <;> decide
  | _ => simp only [length]; omega

end Shading
