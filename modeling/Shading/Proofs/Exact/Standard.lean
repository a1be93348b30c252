import Shading.Proofs.Exact.Colors

/-!
# The standard colors, exactly

The conversions by their formulas and the tolerance of rendering, with real numbers in place of
machine numbers. Nothing is rounded here, but an alpha that misses one by no more than the tolerance
counts as opaque. Where conversions have to undo each other, `LosslessConversions` takes precedence.
-/

namespace Shading

noncomputable instance (priority := low) : ColorModel ℝ where
  convert := Conversion.formula
  opacityTolerance := 1e-8

/-- The alpha misses one by no more than the tolerance. -/
theorem isOpaqueAlpha_iff_near (a : ℝ) : isOpaqueAlpha a = true ↔ |a - 1| ≤ 1e-8 := by
  simp [isOpaqueAlpha, ColorModel.opacityTolerance]

namespace Conversion

theorem formula_w (c : Conversion) (v : Vec4 ℝ) : (c.formula v).w = v.w := by
  cases c <;> rfl

theorem decodeChannel_zero : decodeChannel (0 : ℝ) = 0 := by
  have h : (0 : ℝ) ≤ (4045 : Nat) / (10 : Nat) ^ 5 := by positivity
  simp only [decodeChannel, scalar_abs, abs_zero, scalar_le, scalar_ofScientific]
  rw [if_pos h]
  simp [Scalar.copysign]

theorem encodeChannel_zero : encodeChannel (0 : ℝ) = 0 := by
  have h : (0 : ℝ) ≤ (31308 : Nat) / (10 : Nat) ^ 7 := by positivity
  simp only [encodeChannel, scalar_abs, abs_zero, scalar_le, scalar_ofScientific]
  rw [if_pos h]
  simp [Scalar.copysign]

theorem apply_zero (m : ChannelMatrix ℝ) : m.apply .zero = .zero := by
  simp [ChannelMatrix.apply, ChannelMatrix.apply.row]

theorem onChannels_zero {f : ℝ → ℝ} (h : f 0 = 0) : onChannels f .zero = .zero := by
  simp [onChannels, h]

/-- Every conversion fixes the transparent color. -/
theorem formula_zero (c : Conversion) : c.formula (.zero : Vec4 ℝ) = .zero := by
  cases c with
  | srgbToLinear => exact onChannels_zero decodeChannel_zero
  | linearToSrgb => exact onChannels_zero encodeChannel_zero
  | linearToOklab =>
    rw [formula, apply_zero, onChannels_zero (by simp [Scalar.cbrt]), apply_zero]
  | oklabToLinear => rw [formula, apply_zero, onChannels_zero (by simp), apply_zero]
  | displayP3ToLinear | linearToDisplayP3 => exact apply_zero _

end Conversion

end Shading
