import Shading.Vec4

/-!
# Color spaces

Conversions of straight colors between sRGB, linear sRGB, Oklab and linear Display P3, and the
passage between straight and premultiplied channels.

Shape decisions: a conversion is a name, and `ColorModel` says which function it names for a type
of numbers. Machine numbers take the standard formulas, whose matrices undo each other only up to
rounding of their decimals; exact reasoning may take any family of functions with the laws it
needs. The same class fixes how far from 1 an alpha may be and still count as opaque.
-/

namespace Shading

/-- A conversion between two color spaces, applied to straight colors. -/
inductive Conversion where
  | srgbToLinear
  | linearToSrgb
  | linearToOklab
  | oklabToLinear
  | displayP3ToLinear
  | linearToDisplayP3
deriving DecidableEq, Repr

namespace Conversion

/-- All cases. -/
def all : List Conversion :=
  [.srgbToLinear, .linearToSrgb, .linearToOklab, .oklabToLinear, .displayP3ToLinear,
   .linearToDisplayP3]

/-- The name of a case in text formats. -/
def name : Conversion → String
  | .srgbToLinear => "srgb_to_linear_srgb"
  | .linearToSrgb => "linear_srgb_to_srgb"
  | .linearToOklab => "linear_srgb_to_oklab"
  | .oklabToLinear => "oklab_to_linear_srgb"
  | .displayP3ToLinear => "linear_display_p3_to_linear_srgb"
  | .linearToDisplayP3 => "linear_srgb_to_linear_display_p3"

/-- The name of a case in listings. -/
def title : Conversion → String
  | .srgbToLinear => "SrgbToLinearSrgb"
  | .linearToSrgb => "LinearSrgbToSrgb"
  | .linearToOklab => "LinearSrgbToOklab"
  | .oklabToLinear => "OklabToLinearSrgb"
  | .displayP3ToLinear => "LinearDisplayP3ToLinearSrgb"
  | .linearToDisplayP3 => "LinearSrgbToLinearDisplayP3"

/-- The conversion in the other direction. -/
def inverse : Conversion → Conversion
  | .srgbToLinear => .linearToSrgb
  | .linearToSrgb => .srgbToLinear
  | .linearToOklab => .oklabToLinear
  | .oklabToLinear => .linearToOklab
  | .displayP3ToLinear => .linearToDisplayP3
  | .linearToDisplayP3 => .displayP3ToLinear

/-- The inverse of an inverse is the conversion itself. -/
theorem inverse_inverse (c : Conversion) : c.inverse.inverse = c := by
  cases c <;> rfl

section Formulas

variable {K : Type} [Scalar K]

/-- A three by three matrix applied to red, green and blue. -/
structure ChannelMatrix (K : Type) where
  red : K × K × K
  green : K × K × K
  blue : K × K × K

def ChannelMatrix.apply (m : ChannelMatrix K) (c : Vec4 K) : Vec4 K :=
  ⟨row m.red, row m.green, row m.blue, c.w⟩
where
  row (r : K × K × K) : K := r.1 * c.x + r.2.1 * c.y + r.2.2 * c.z

/-- The inverse transfer curve of sRGB, odd in its argument. -/
def decodeChannel (c : K) : K :=
  let a := Scalar.abs c
  let v := if a ≤ 0.04045 then a / 12.92 else Scalar.pow ((a + 0.055) / 1.055) 2.4
  Scalar.copysign v c

/-- The transfer curve of sRGB, odd in its argument. -/
def encodeChannel (c : K) : K :=
  let a := Scalar.abs c
  let v := if a ≤ 0.0031308 then a * 12.92 else 1.055 * Scalar.pow a (1 / 2.4) - 0.055
  Scalar.copysign v c

/-- The function applied to red, green and blue. -/
def onChannels (f : K → K) (c : Vec4 K) : Vec4 K := ⟨f c.x, f c.y, f c.z, c.w⟩

def linearToCones : ChannelMatrix K where
  red := (0.4122214708, 0.5363325363, 0.0514459929)
  green := (0.2119034982, 0.6806995451, 0.1073969566)
  blue := (0.0883024619, 0.2817188376, 0.6299787005)

def conesToOklab : ChannelMatrix K where
  red := (0.2104542553, 0.7936177850, -0.0040720468)
  green := (1.9779984951, -2.4285922050, 0.4505937099)
  blue := (0.0259040371, 0.7827717662, -0.8086757660)

def oklabToCones : ChannelMatrix K where
  red := (1.0, 0.3963377774, 0.2158037573)
  green := (1.0, -0.1055613458, -0.0638541728)
  blue := (1.0, -0.0894841775, -1.2914855480)

def conesToLinear : ChannelMatrix K where
  red := (4.0767416621, -3.3077115913, 0.2309699292)
  green := (-1.2684380046, 2.6097574011, -0.3413193965)
  blue := (-0.0041960863, -0.7034186147, 1.7076147010)

def displayP3Matrix : ChannelMatrix K where
  red := (1.2249401763, -0.2249401763, 0.0)
  green := (-0.0420569547, 1.0420569547, 0.0)
  blue := (-0.0196375546, -0.0786360456, 1.0982736002)

def displayP3InverseMatrix : ChannelMatrix K where
  red := (0.8224619687, 0.1775380313, 0.0)
  green := (0.0331941994, 0.9668058006, 0.0)
  blue := (0.0170826306, 0.0723974405, 0.9105199290)

/-- The conversion of a straight color by its standard formula. Alpha is never touched. -/
def formula : Conversion → Vec4 K → Vec4 K
  | .srgbToLinear, c => onChannels decodeChannel c
  | .linearToSrgb, c => onChannels encodeChannel c
  | .linearToOklab, c => conesToOklab.apply (onChannels Scalar.cbrt (linearToCones.apply c))
  | .oklabToLinear, c =>
    conesToLinear.apply (onChannels (fun v ↦ v * v * v) (oklabToCones.apply c))
  | .displayP3ToLinear, c => displayP3Matrix.apply c
  | .linearToDisplayP3, c => displayP3InverseMatrix.apply c

end Formulas

end Conversion

/-- Numbers together with the two choices that rendering adds to arithmetic: what the color
conversions compute and which alphas count as opaque. -/
class ColorModel (K : Type) extends Scalar K where
  convert : Conversion → Vec4 K → Vec4 K
  /-- An alpha is opaque if it differs from 1 by no more than this. -/
  opacityTolerance : K

instance : ColorModel Float where
  convert := Conversion.formula
  opacityTolerance := 1e-8

section Alpha

variable {K : Type}

/-- The color whose first three channels are multiplied by its alpha. -/
def premultiply [Scalar K] (c : Vec4 K) : Vec4 K := ⟨c.x * c.w, c.y * c.w, c.z * c.w, c.w⟩

/-- The color whose first three channels are divided by its alpha; without alpha it is zero. -/
def unpremultiply [Scalar K] (c : Vec4 K) : Vec4 K :=
  if c.w == 0 then .zero
  else
    let inv := 1 / c.w
    ⟨c.x * inv, c.y * inv, c.z * inv, c.w⟩

/-- The alpha covers whatever lies below it. -/
def isOpaqueAlpha [ColorModel K] (alpha : K) : Bool :=
  Scalar.abs (alpha - 1) ≤ (ColorModel.opacityTolerance : K)

end Alpha

end Shading
