import Shading.Color.Space

/-!
# Blending and compositing

A premultiplied source laid on a premultiplied backdrop: first a blend mode mixes the two straight
colors where both are present, then a Porter-Duff operator decides which part of each remains.
-/

namespace Shading

/-- The Porter-Duff operator that combines a source with its backdrop. -/
inductive Compose where
  /-- Source over backdrop. -/
  | over
  /-- The source where the backdrop is. -/
  | inside
  /-- The source where the backdrop is not. -/
  | outside
  /-- The source where the backdrop is, over the backdrop. -/
  | atop
  /-- Each where the other is not. -/
  | xor
  /-- The sum. -/
  | plus
  /-- The sum, cut at one. -/
  | plusLighter
deriving DecidableEq, Repr, Inhabited

namespace Compose

/-- All cases, in the order of their codes. -/
def all : List Compose :=
  [.over, .inside, .outside, .atop, .xor, .plus, .plusLighter]

/-- The name of a case in text formats. -/
def name : Compose → String
  | .over => "over"
  | .inside => "in"
  | .outside => "out"
  | .atop => "atop"
  | .xor => "xor"
  | .plus => "plus"
  | .plusLighter => "plus_lighter"

/-- The name of a case in listings. -/
def title : Compose → String
  | .over => "Over"
  | .inside => "In"
  | .outside => "Out"
  | .atop => "Atop"
  | .xor => "Xor"
  | .plus => "Plus"
  | .plusLighter => "PlusLighter"

/-- The position of a case in `all`, its code in headers of instructions. -/
def code : Compose → Nat
  | .over => 0
  | .inside => 1
  | .outside => 2
  | .atop => 3
  | .xor => 4
  | .plus => 5
  | .plusLighter => 6

/-- The case with a code. -/
def ofCode? (n : Nat) : Option Compose := all[n]?

/-- An operator is found under its code. -/
theorem ofCode?_code (c : Compose) : ofCode? c.code = some c := by
  cases c <;> rfl

theorem code_lt_length (c : Compose) : c.code < all.length := by
  cases c <;> decide

end Compose

/-- The mode by which a source color is mixed with the backdrop color below it. -/
inductive Blend where
  | normal
  | multiply
  | screen
  | overlay
  | darken
  | lighten
  | colorDodge
  | colorBurn
  | hardLight
  | softLight
  | difference
  | exclusion
  | hue
  | saturation
  | color
  | luminosity
deriving DecidableEq, Repr, Inhabited

namespace Blend

/-- All cases, in the order of their codes. -/
def all : List Blend :=
  [.normal, .multiply, .screen, .overlay, .darken, .lighten, .colorDodge, .colorBurn, .hardLight,
   .softLight, .difference, .exclusion, .hue, .saturation, .color, .luminosity]

/-- The name of a case in text formats. -/
def name : Blend → String
  | .normal => "normal"
  | .multiply => "multiply"
  | .screen => "screen"
  | .overlay => "overlay"
  | .darken => "darken"
  | .lighten => "lighten"
  | .colorDodge => "color_dodge"
  | .colorBurn => "color_burn"
  | .hardLight => "hard_light"
  | .softLight => "soft_light"
  | .difference => "difference"
  | .exclusion => "exclusion"
  | .hue => "hue"
  | .saturation => "saturation"
  | .color => "color"
  | .luminosity => "luminosity"

/-- The name of a case in listings. -/
def title : Blend → String
  | .normal => "Normal"
  | .multiply => "Multiply"
  | .screen => "Screen"
  | .overlay => "Overlay"
  | .darken => "Darken"
  | .lighten => "Lighten"
  | .colorDodge => "ColorDodge"
  | .colorBurn => "ColorBurn"
  | .hardLight => "HardLight"
  | .softLight => "SoftLight"
  | .difference => "Difference"
  | .exclusion => "Exclusion"
  | .hue => "Hue"
  | .saturation => "Saturation"
  | .color => "Color"
  | .luminosity => "Luminosity"

/-- The position of a case in `all`, its code in headers of instructions. -/
def code : Blend → Nat
  | .normal => 0
  | .multiply => 1
  | .screen => 2
  | .overlay => 3
  | .darken => 4
  | .lighten => 5
  | .colorDodge => 6
  | .colorBurn => 7
  | .hardLight => 8
  | .softLight => 9
  | .difference => 10
  | .exclusion => 11
  | .hue => 12
  | .saturation => 13
  | .color => 14
  | .luminosity => 15

/-- The case with a code. -/
def ofCode? (n : Nat) : Option Blend := all[n]?

/-- A mode is found under its code. -/
theorem ofCode?_code (c : Blend) : ofCode? c.code = some c := by
  cases c <;> rfl

theorem code_lt_length (c : Blend) : c.code < all.length := by
  cases c <;> decide

end Blend

namespace Blend

variable {K : Type} [Scalar K]

def screenChannel (b s : K) : K := b + s - b * s

def hardLightChannel (b s : K) : K := if s ≤ 0.5 then b * 2 * s else screenChannel b (2 * s - 1)

def colorDodgeChannel (b s : K) : K :=
  if b == 0 then 0 else if 1 ≤ s then 1 else Scalar.min (b / (1 - s)) 1

def colorBurnChannel (b s : K) : K :=
  if 1 ≤ b then 1 else if s ≤ 0 then 0 else 1 - Scalar.min ((1 - b) / s) 1

def softLightChannel (b s : K) : K :=
  if s ≤ 0.5 then b - (1 - 2 * s) * b * (1 - b)
  else
    let d := if b ≤ 0.25 then ((16 * b - 12) * b + 4) * b else Scalar.sqrt b
    b + (2 * s - 1) * (d - b)

def luminosityOf (c : Vec4 K) : K := 0.3 * c.x + 0.59 * c.y + 0.11 * c.z

def leastChannel (c : Vec4 K) : K := Scalar.min (Scalar.min c.x c.y) c.z

def greatestChannel (c : Vec4 K) : K := Scalar.max (Scalar.max c.x c.y) c.z

def saturationOf (c : Vec4 K) : K := greatestChannel c - leastChannel c

/-- The color pulled toward the gray of its luminosity until its channels lie between 0 and 1. -/
def clipColor (c : Vec4 K) : Vec4 K :=
  let l := luminosityOf c
  let n := leastChannel c
  let x := greatestChannel c
  let raised := if n < 0 && 0 < l - n then pull l (l / (l - n)) c else c
  if 1 < x && 0 < x - l then pull l ((1 - l) / (x - l)) raised else raised
where
  pull (l k : K) (v : Vec4 K) : Vec4 K := v.map fun a ↦ l + (a - l) * k

def setLuminosity (c : Vec4 K) (l : K) : Vec4 K :=
  let d := l - luminosityOf c
  clipColor ⟨c.x + d, c.y + d, c.z + d, 0⟩

/-- The color stretched from its least channel so that its saturation is `s`; a gray gives black. -/
def setSaturation (c : Vec4 K) (s : K) : Vec4 K :=
  let lo := leastChannel c
  let hi := greatestChannel c
  if lo < hi then
    let k := s / (hi - lo)
    ⟨(c.x - lo) * k, (c.y - lo) * k, (c.z - lo) * k, 0⟩
  else .zero

/-- The mixture of a straight backdrop color and a straight source color; the fourth component
means nothing. -/
def mix (mode : Blend) (backdrop source : Vec4 K) : Vec4 K :=
  match mode with
  | .normal => source
  | .multiply => separate fun b s ↦ b * s
  | .screen => separate screenChannel
  | .overlay => separate fun b s ↦ hardLightChannel s b
  | .darken => separate Scalar.min
  | .lighten => separate Scalar.max
  | .colorDodge => separate colorDodgeChannel
  | .colorBurn => separate colorBurnChannel
  | .hardLight => separate hardLightChannel
  | .softLight => separate softLightChannel
  | .difference => separate fun b s ↦ Scalar.abs (b - s)
  | .exclusion => separate fun b s ↦ b + s - 2 * b * s
  | .hue => setLuminosity (setSaturation source (saturationOf backdrop)) (luminosityOf backdrop)
  | .saturation =>
    setLuminosity (setSaturation backdrop (saturationOf source)) (luminosityOf backdrop)
  | .color => setLuminosity source (luminosityOf backdrop)
  | .luminosity => setLuminosity backdrop (luminosityOf source)
where
  /-- The same function on each channel. -/
  separate (f : K → K → K) : Vec4 K :=
    ⟨f backdrop.x source.x, f backdrop.y source.y, f backdrop.z source.z, 0⟩

end Blend

section Layers

variable {K : Type} [Scalar K]

/-- A premultiplied foreground over a premultiplied background. -/
def stackBlend (foreground background : Vec4 K) : Vec4 K :=
  foreground + background * (1 - foreground.w)

/-- The premultiplied source with its color mixed into the backdrop where both are present. -/
def blendSource (source backdrop : Vec4 K) : Blend → Vec4 K
  | .normal => source
  | mode =>
    let src := unpremultiply source
    let dst := unpremultiply backdrop
    let rgb := src * (1 - backdrop.w) + mode.mix dst src * backdrop.w
    ⟨rgb.x * source.w, rgb.y * source.w, rgb.z * source.w, source.w⟩

/-- A premultiplied source blended with a premultiplied backdrop, then composed with it. -/
def blendCompose (source backdrop : Vec4 K) (compose : Compose) (blend : Blend) : Vec4 K :=
  let blended := blendSource source backdrop blend
  match compose with
  | .over => blended + backdrop * (1 - source.w)
  | .inside => blended * backdrop.w
  | .outside => blended * (1 - backdrop.w)
  | .atop => blended * backdrop.w + backdrop * (1 - source.w)
  | .xor => blended * (1 - backdrop.w) + backdrop * (1 - source.w)
  | .plus => blended + backdrop
  | .plusLighter => (blended + backdrop).minEach 1

end Layers

end Shading
