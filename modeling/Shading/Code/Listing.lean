import Shading.Code.Opcode
import Shading.Decimal.Layout

/-!
# Listings

The text of a list of instructions, a line for each mark and each instruction.
-/

namespace Shading

/-- A single precision number in a listing. -/
def Single.text (s : Single) : String := Layout.listing.write (.ofSingle s.bits)

/-- A location in a listing. -/
def locationText (location : Nat) : String := s!"L{location}"

namespace Instruction

/-- The ratios of a gradient, each with the place of its stop. -/
def stopsText (table : StopTable Nat) : String :=
  String.join ((table.ratios.zip table.stops).map fun s ↦ s!" {s.1.text}->{locationText s.2}")

def gradientText (accuracy : Accuracy) (extend : Extend) (table : StopTable Nat) : String :=
  s!" {accuracy.title} {extend.title}" ++ stopsText table ++
    s!" blend={locationText table.blend} end={locationText table.done}"

def blendText (accuracy : Accuracy) (b : Branches Nat) : String :=
  s!" {accuracy.title} zero={locationText b.zero} one={locationText b.one}" ++
    s!" blend={locationText b.blend} end={locationText b.done}"

/-- The operands of an instruction in a listing, as far as they are shown. -/
def operandsText : Instruction Nat → String
  | .pushColor c => s!" {c.x.text} {c.y.text} {c.z.text} {c.w.text}"
  | .opaqueJump target => s!" {locationText target}"
  | .blendCompose compose blend => s!" {compose.title} {blend.title}"
  | .multiplyScalar factor => s!" {factor.text}"
  | .phong shininess lights => s!" alpha={shininess.text} lights={lights}"
  | .linearBlendRatio _ accuracy branches | .radialBlendRatio _ accuracy branches =>
    blendText accuracy branches
  | .linearGradientRatio _ accuracy extend table | .radialGradientRatio _ accuracy extend table =>
    gradientText accuracy extend table
  | .barycentricBlend triangle accuracy =>
    s!" {accuracy.title}" ++ if triangle.depths.isSome then " perspective" else ""
  | _ => ""

end Instruction

/-- A line of a listing. -/
def Line.text : Line → String
  | .mark location => s!"{locationText location}:"
  | .op i => s!"  {i.opcode.name}" ++ i.operandsText

/-- The lines of a listing. -/
def listing (lines : List Line) : List String := lines.map Line.text

end Shading
