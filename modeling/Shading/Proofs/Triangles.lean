import Shading.Proofs.Exact.Motions
import Shading.Proofs.Exact.Ramps

/-!
# Weights in a triangle

A point of the plane is the sum of the corners of a triangle, each times its weight, and the corners
themselves have the unit weights (`Triangle.weights_interpolate`). In perspective the weights are
those of the flat triangle divided by the depths of the corners, and brought back to the sum one by
a factor that all three have in common.

That the sum is one needs none of this. It holds at every point, also outside of the triangle, and
in the cases in which the weights say nothing about the point: those of a triangle without area, of
depths one of which is zero, and of divided weights that cancel.
-/

namespace Shading

/-- The sum of three points, each times its weight. -/
noncomputable def Triple.combine (w : Triple ℝ) (points : Triple (Point ℝ)) : Point ℝ :=
  ⟨w.a * points.a.x + w.b * points.b.x + w.c * points.c.x,
    w.a * points.a.y + w.b * points.b.y + w.c * points.c.y⟩

namespace Triangle

variable {corners : Triple (Point ℝ)}

/-- The corners span an area that is not taken for none. -/
def Spans (corners : Triple (Point ℝ)) : Prop :=
  (Scalar.doubleEpsilon : ℝ) * 16 < |spanned corners.b corners.c corners.a|

/-- Corners span the plane exactly if the inverse of their determinant is kept, and not taken for
zero. -/
theorem spans_iff : Spans corners ↔ inverseDeterminantOf corners ≠ 0 := by
  rw [Spans, ← not_le, Ne, inverseDeterminantOf_eq_zero_iff]

/-- Corners that span the plane span an area. -/
theorem Spans.spanned_ne_zero (h : Spans corners) :
    spanned corners.b corners.c corners.a ≠ 0 := by
  intro hzero
  have hlarge : (Scalar.doubleEpsilon : ℝ) * 16 < |spanned corners.b corners.c corners.a| := h
  rw [hzero, abs_zero] at hlarge
  exact absurd hlarge (not_lt.2 (by simp [Scalar.doubleEpsilon]))

/-- A degenerate triangle is its first corner. -/
theorem weights_of_degenerate (h : inverseDeterminantOf corners = 0)
    (depths : Option (Triple ℝ)) (p : Point ℝ) :
    (ofCorners corners depths).weights p = ⟨1, 0, 0⟩ := by
  have hzero : (ofCorners corners depths).inverseDeterminant = 0 := h
  rw [weights, if_pos (by simpa using hzero)]
  simp only [scalar_ofNat, Nat.cast_one, Nat.cast_zero]

/-! ### Without depths -/

/-- The weights of a flat triangle are quotients of areas. -/
theorem weights_flat (h : Spans corners) (p : Point ℝ) :
    (ofCorners corners none).weights p =
      let la := spanned corners.b corners.c p / spanned corners.b corners.c corners.a
      let lb := -spanned corners.a corners.c p / spanned corners.b corners.c corners.a
      ⟨la, lb, 1 - la - lb⟩ := by
  have hne : (ofCorners corners none).inverseDeterminant ≠ 0 := spans_iff.1 h
  rw [weights, if_neg (by simpa using hne)]
  exact affineWeights_ofCorners none (spans_iff.1 h) p

/-- Without depths, the weights of a point combine the corners to the point. -/
theorem combine_weights_flat (h : Spans corners) (p : Point ℝ) :
    ((ofCorners corners none).weights p).combine corners = p := by
  have hne := h.spanned_ne_zero
  rw [weights_flat h]
  refine Point.ext_real ?_ ?_ <;> simp only [Triple.combine] <;> field_simp <;>
    simp only [spanned] <;> ring

/-- At a corner, the corner has all the weight. -/
theorem weights_corners (h : Spans corners) :
    (ofCorners corners none).weights corners.a = ⟨1, 0, 0⟩ ∧
      (ofCorners corners none).weights corners.b = ⟨0, 1, 0⟩ ∧
      (ofCorners corners none).weights corners.c = ⟨0, 0, 1⟩ := by
  have hne := h.spanned_ne_zero
  -- An area with two equal corners is none; the one that is left is the area of the triangle.
  have hself (b c : Point ℝ) : spanned b c c = 0 ∧ spanned b c b = 0 := by
    simp only [spanned]
    exact ⟨by ring, by ring⟩
  have hother : -spanned corners.a corners.c corners.b = spanned corners.b corners.c corners.a := by
    simp only [spanned]
    ring
  refine ⟨?_, ?_, ?_⟩
  · rw [weights_flat h, (hself corners.a corners.c).2, div_self hne]
    norm_num
  · rw [weights_flat h, (hself corners.b corners.c).2, hother, div_self hne]
    norm_num
  · rw [weights_flat h, (hself corners.b corners.c).1, (hself corners.a corners.c).1]
    norm_num

/-! ### In perspective -/

/-- Depths divide the weights of the flat triangle, and the quotients are divided by their sum. -/
theorem weights_perspective {z : Triple ℝ} (ha : z.a ≠ 0) (hb : z.b ≠ 0) (hc : z.c ≠ 0)
    {p : Point ℝ} {w : Triple ℝ} (plain : (ofCorners corners none).weights p = w) {sum : ℝ}
    (total : w.a / z.a + w.b / z.b + w.c / z.c = sum) (hsum : sum ≠ 0) :
    (ofCorners corners (some z)).weights p =
      ⟨w.a / z.a / sum, w.b / z.b / sum, w.c / z.c / sum⟩ := by
  by_cases h : inverseDeterminantOf corners = 0
  · -- Only the first weight is left, and the factor takes its depth away again.
    rw [weights_of_degenerate h] at plain ⊢
    subst plain total
    simp only [zero_div, add_zero] at hsum ⊢
    rw [div_self hsum]
  · have hne : (ofCorners corners (some z)).inverseDeterminant ≠ 0 := h
    have hplain : (ofCorners corners (some z)).affineWeights p = w := by
      rw [← plain, weights_flat (spans_iff.2 h), affineWeights_ofCorners (some z) h]
    rw [weights, if_neg (by simpa using hne), hplain]
    simp only [ofCorners, scalar_add, scalar_div, total, Triple.map]
    rw [if_neg (by simp [Triple.toList, ha, hb, hc]), if_neg (by simpa using hsum)]

/-- Weights interpolate: their sum is one in every case, those of a flat triangle combine the
corners to the point, and depths divide them up to a common factor. -/
theorem weights_interpolate (corners : Triple (Point ℝ)) (p : Point ℝ) :
    let plain := (ofCorners corners none).weights p
    (∀ depths, let w := (ofCorners corners depths).weights p
      w.a + w.b + w.c = 1) ∧
    (Spans corners → plain.combine corners = p ∧
      (ofCorners corners none).weights corners.a = ⟨1, 0, 0⟩ ∧
      (ofCorners corners none).weights corners.b = ⟨0, 1, 0⟩ ∧
      (ofCorners corners none).weights corners.c = ⟨0, 0, 1⟩) ∧
    ∀ z : Triple ℝ, z.a ≠ 0 → z.b ≠ 0 → z.c ≠ 0 →
      plain.a / z.a + plain.b / z.b + plain.c / z.c ≠ 0 →
        let w := (ofCorners corners (some z)).weights p
        ∃ factor, factor ≠ 0 ∧ w.a * z.a = factor * plain.a ∧ w.b * z.b = factor * plain.b ∧
          w.c * z.c = factor * plain.c := by
  intro plain
  refine ⟨fun depths ↦ weights_sum _ p, fun h ↦ ⟨combine_weights_flat h p, weights_corners h⟩, ?_⟩
  intro z ha hb hc hsum
  have hcommon (x s : ℝ) {d : ℝ} (hd : d ≠ 0) : x / d / s * d = s⁻¹ * x := by
    rw [div_right_comm, div_mul_cancel₀ _ hd, div_eq_inv_mul]
  rw [weights_perspective ha hb hc rfl rfl hsum]
  exact ⟨_, inv_ne_zero hsum, hcommon _ _ ha, hcommon _ _ hb, hcommon _ _ hc⟩

section

-- Numerals in the statement are those of the reals.
attribute [local instance(200)] instOfNatAtLeastTwo

/-- A corner that is far away has less weight than it has in the plane. -/
theorem weights_rightTriangle :
    let corners : Triple (Point ℝ) := ⟨⟨0, 0⟩, ⟨4, 0⟩, ⟨0, 2⟩⟩
    Spans corners ∧ (ofCorners corners none).weights ⟨1, 1⟩ = ⟨1 / 4, 1 / 4, 1 / 2⟩ ∧
      (ofCorners corners (some ⟨1, 2, 4⟩)).weights ⟨1, 1⟩ = ⟨1 / 2, 1 / 4, 1 / 4⟩ := by
  intro corners
  have hspans : Spans corners := by
    rw [Spans, doubleEpsilon_eq, scalar_ofNat]
    norm_num [spanned, corners]
  obtain ⟨hsum, hflat, hdeep⟩ := weights_interpolate corners ⟨1, 1⟩
  have hplain : (ofCorners corners none).weights ⟨1, 1⟩ = ⟨1 / 4, 1 / 4, 1 / 2⟩ := by
    obtain ⟨hx, hy⟩ := Point.mk.inj (hflat hspans).1
    have htotal := hsum none
    simp only [corners] at hx hy
    generalize (ofCorners corners none).weights ⟨1, 1⟩ = w at hx hy htotal ⊢
    obtain ⟨a, b, c⟩ := w
    simp only [Triple.mk.injEq] at hx hy htotal ⊢
    exact ⟨by linarith, by linarith, by linarith⟩
  refine ⟨hspans, hplain, ?_⟩
  rw [hplain] at hdeep
  obtain ⟨factor, -, ha, hb, hc⟩ := hdeep ⟨1, 2, 4⟩ (by norm_num) (by norm_num) (by norm_num)
    (by norm_num)
  have htotal := hsum (some ⟨1, 2, 4⟩)
  generalize (ofCorners corners (some ⟨1, 2, 4⟩)).weights ⟨1, 1⟩ = w at ha hb hc htotal ⊢
  obtain ⟨a, b, c⟩ := w
  simp only [Triple.mk.injEq] at ha hb hc htotal ⊢
  exact ⟨by linarith, by linarith, by linarith⟩

end

end Triangle

end Shading
