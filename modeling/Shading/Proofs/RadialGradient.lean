import Shading.Proofs.Exact.Circles

/-!
# Where radial gradients find a circle

A radial gradient takes the color of a point from the circle through it with the greatest parameter,
if the leading coefficient of its circles is not tiny (`Kind.ratio?_isGreatest`). Computed exactly,
this asks no more of its transform than that the determinant is not zero; that it is not tiny either
is checked when a node is made, but a node that is moved may come to have one that is.

A pair of circles that is said to cover the plane does, but that says less of the gradient: the
coefficient is the product of the margin by which one circle contains the other and the sum of the
distance of the centers and the difference of the radii. So it may be tiny although the margin is
not, if the circles are small. Then a linear equation is solved in place of the quadratic one, and
it has no solution at some points, unless the circles have one center and are not too small either
(`Kind.reaches_iff`). If the radii are not nearly equal, the coefficient is not tiny.
-/

namespace Shading.Kind

variable {transform : Affine ℝ} {start stop p q : Point ℝ} {startRadius stopRadius : ℝ}

/-- A parameter is found exactly if it is the greatest one of a circle through the point, and none
is found exactly if there is no such circle. -/
theorem ratio?_isGreatest (invertible : transform.determinant ≠ 0)
    (image : transform.apply q = p)
    (gap : 1e-12 ≤ |(circlePair transform start startRadius stop stopRadius).leading|) :
    let circles := circlePair transform start startRadius stop stopRadius
    (∀ t, circles.ratio? p = some t ↔ IsGreatest {s | circles.Through q s} t) ∧
      (circles.ratio? p = none ↔ ∀ s, ¬ circles.Through q s) := by
  have hlocal : transform.inverse.apply p = q := by
    rw [← image]
    exact Affine.inverse_apply_apply invertible
  have hgreatest := CirclePair.greatestOf_ratio? gap p
  rw [← hlocal]
  exact ⟨hgreatest.eq_some_iff, hgreatest.eq_none_iff⟩

/-- A transform that shrinks too much to be accepted when a node is made, but can be inverted. -/
noncomputable def shrinking : Affine ℝ := ⟨1e-8, 0, 0, 1e-8, 0, 0⟩

/-- The determinant is far below the margin of the test. -/
theorem determinant_shrinking : shrinking.determinant = 1e-16 := by
  rw [Affine.determinant_eq, shrinking]
  norm_num

theorem determinant_shrinking_ne_zero : shrinking.determinant ≠ 0 := by
  rw [determinant_shrinking]
  norm_num

/-- Circles around one point that shrink to it, under a transform that shrinks as well. Seen from
the first circle there is a second solution behind the center, and it is greater, but it has no
circle. -/
theorem ratio?_shrinkingCircles :
    let circles := circlePair shrinking ⟨0, 0⟩ 1 ⟨0, 0⟩ 0
    shrinking.isInvertible = false ∧ shrinking.determinant ≠ 0 ∧
      shrinking.apply ⟨1, 0⟩ = ⟨1e-8, 0⟩ ∧ 1e-12 ≤ |circles.leading| ∧
      circles.excess ⟨1, 0⟩ (1 + 1) = 0 ∧ circles.ratio? ⟨1e-8, 0⟩ = some 0 := by
  intro circles
  have hrefused : shrinking.isInvertible = false := by
    simp [Affine.isInvertible, determinant_shrinking, Scalar.doubleEpsilon]
    norm_num
  have himage : shrinking.apply ⟨1, 0⟩ = ⟨1e-8, 0⟩ := by
    rw [Affine.apply_eq, shrinking]
    norm_num
  have hleading : circles.leading = -1 := by
    rw [CirclePair.leading_of_concentric rfl]
    norm_num [circles, circlePair]
  have hexcess (t : ℝ) : circles.excess ⟨1, 0⟩ t = t * (1 + 1 - t) := by
    rw [CirclePair.excess_eq, hleading, CirclePair.linear_of_concentric rfl, CirclePair.constant]
    simp only [circles, circlePair]
    ring
  have hgap : 1e-12 ≤ |circles.leading| := by
    rw [hleading]
    norm_num
  obtain ⟨hfound, -⟩ := ratio?_isGreatest determinant_shrinking_ne_zero himage hgap
  have hbehind : circles.excess ⟨1, 0⟩ (1 + 1) = 0 := by
    rw [hexcess, sub_self, mul_zero]
  refine ⟨hrefused, determinant_shrinking_ne_zero, himage, hgap, hbehind, (hfound 0).2 ⟨?_, ?_⟩⟩
  · refine (CirclePair.through_iff ..).2 ⟨?_, by rw [hexcess, zero_mul]⟩
    norm_num [CirclePair.radius, circlePair]
  · intro s hs
    obtain ⟨hradius, hzero⟩ := (CirclePair.through_iff ..).1 hs
    rw [hexcess, mul_eq_zero] at hzero
    have hle : 0 ≤ 1 + s * (0 - 1) := hradius
    rcases hzero with hzero | hzero
    · exact hzero.le
    · linarith only [hle, hzero]

/-- Circles that are said to cover the plane are found at every point exactly if the leading
coefficient is not tiny, or the centers are the same and the linear coefficient is not. The former
is so if the radii are not nearly equal. -/
theorem reaches_iff (invertible : transform.determinant ≠ 0) (nonneg : 0 ≤ startRadius)
    (covers : (circlePair transform start startRadius stop stopRadius).coversPlane = true) :
    let circles := circlePair transform start startRadius stop stopRadius
    ((∀ p, ∃ t, circles.ratio? p = some t) ↔
      1e-12 ≤ |circles.leading| ∨
        start = stop ∧ 1e-12 ≤ |startRadius * (stopRadius - startRadius)|) ∧
      (1e-3 ≤ |stopRadius - startRadius| → ∀ p, ∃ t, circles.ratio? p = some t) := by
  intro circles
  refine ⟨⟨fun h ↦ ?_, ?_⟩, fun apart ↦ CirclePair.exists_ratio covers
    (CirclePair.gap_of_radii covers apart)⟩
  · by_contra hnot
    obtain ⟨htiny, hconcentric⟩ := not_or.1 hnot
    have honto (q : Point ℝ) : ∃ p, circles.inverse.apply p = q :=
      ⟨transform.apply q, Affine.inverse_apply_apply invertible⟩
    obtain ⟨p, hp⟩ := CirclePair.exists_ratio?_eq_none (not_le.1 htiny) honto
      fun hcenters ↦ not_le.1 fun hlinear ↦ hconcentric ⟨hcenters, hlinear⟩
    obtain ⟨t, ht⟩ := h p
    rw [hp] at ht
    cases ht
  · rintro (hgap | ⟨hcenters, hlinear⟩)
    · exact CirclePair.exists_ratio covers hgap
    · rcases lt_or_ge |circles.leading| 1e-12 with htiny | hgap
      · exact CirclePair.exists_ratio_of_concentric hcenters htiny nonneg hlinear
      · exact CirclePair.exists_ratio covers hgap

/-- Nearly equal circles around one point: the leading coefficient is tiny, but every point is
reached. -/
theorem reaches_nearlyEqualCircles :
    let circles := circlePair shrinking ⟨0, 0⟩ 1 ⟨0, 0⟩ (1 + 1e-7)
    shrinking.determinant ≠ 0 ∧ (0 : ℝ) ≤ 1 ∧ circles.coversPlane = true ∧
      |circles.leading| < 1e-12 ∧ ∀ p, ∃ t, circles.ratio? p = some t := by
  intro circles
  have hcovers : circles.coversPlane = true := by
    rw [CirclePair.coversPlane_iff_of_concentric rfl]
    norm_num [circles, circlePair]
  have htiny : |circles.leading| < 1e-12 := by
    rw [CirclePair.leading_of_concentric rfl]
    norm_num [circles, circlePair]
  refine ⟨determinant_shrinking_ne_zero, zero_le_one, hcovers, htiny, ?_⟩
  refine (reaches_iff determinant_shrinking_ne_zero zero_le_one hcovers).1.2 (.inr ⟨rfl, ?_⟩)
  norm_num

/-- Circles around one point, from none to a small one: they are said to cover the plane, and no
point is reached. -/
theorem coversPlane_smallCircles :
    let circles := circlePair (⟨1, 0, 0, 1, 0, 0⟩ : Affine ℝ) ⟨0, 0⟩ 0 ⟨0, 0⟩ 1e-7
    (⟨1, 0, 0, 1, 0, 0⟩ : Affine ℝ).isInvertible = true ∧ (0 : ℝ) ≤ 1e-7 ∧
      circles.coversPlane = true ∧ ∀ p, circles.ratio? p = none := by
  intro circles
  refine ⟨Affine.isInvertible_identity, by norm_num, ?_, fun p ↦ ?_⟩
  · rw [CirclePair.coversPlane_iff_of_concentric rfl]
    norm_num [circles, circlePair]
  · refine CirclePair.ratio?_of_constant ?_ ?_
    · rw [CirclePair.leading_of_concentric rfl]
      norm_num [circles, circlePair]
    · rw [CirclePair.linear_of_concentric rfl]
      norm_num [circles, circlePair]

end Shading.Kind
