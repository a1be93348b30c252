import Mathlib.Tactic.FieldSimp
import Mathlib.Tactic.Ring
import Shading.Program.Replace
import Shading.Proofs.Exact.Scalars

/-!
# Exact motions

Affine maps of the plane with exact numbers, and what they do to positions. An invertible map is
undone by its inverse, so a kind that is moved finds at the image of a point what it found at the
point itself: the ratio of a blend or a gradient, or the weights of the corners of a triangle. All
of the numbers are found anew, so every coefficient of the map has to be in its place.

For a triangle there is a condition. Its determinant is multiplied by that of the map
(`Triangle.spanned_apply`), and whether the product still counts as an area is another question. It
does if the map keeps areas.
-/

namespace Shading

variable {m n : Affine ℝ} {p : Point ℝ}

theorem Point.ext_real {p q : Point ℝ} (hx : p.x = q.x) (hy : p.y = q.y) : p = q := by
  cases p
  cases q
  rw [Point.mk.injEq]
  exact ⟨hx, hy⟩

theorem Point.sub_origin (p : Point ℝ) : p - .origin = p := by
  have horigin : (origin : Point ℝ) = ⟨0, 0⟩ := by
    simp only [origin, scalar_ofNat, Nat.cast_zero]
  rw [horigin]
  exact ext_real (sub_zero p.x) (sub_zero p.y)

namespace Affine

/-- The determinant, in the operations of the reals. -/
theorem determinant_eq (m : Affine ℝ) : m.determinant = m.a * m.d - m.b * m.c :=
  rfl

theorem apply_eq (m : Affine ℝ) (p : Point ℝ) :
    m.apply p = ⟨m.a * p.x + m.c * p.y + m.e, m.b * p.x + m.d * p.y + m.f⟩ :=
  rfl

theorem inverse_eq (m : Affine ℝ) : m.inverse =
    let i := 1 / m.determinant
    ⟨i * m.d, -i * m.b, -i * m.c, i * m.a, i * (m.c * m.f - m.d * m.e),
      i * (m.b * m.e - m.a * m.f)⟩ := by
  simp only [inverse, scalar_mul, scalar_neg, scalar_sub, scalar_div, scalar_ofNat, Nat.cast_one]

/-- The test of invertibility leaves a margin, so the determinant is not zero. -/
theorem determinant_ne_zero_of_isInvertible (h : m.isInvertible = true) : m.determinant ≠ 0 := by
  intro hzero
  simp [isInvertible, hzero, Scalar.doubleEpsilon] at h

/-- The map that moves nothing. -/
theorem isInvertible_identity : (⟨1, 0, 0, 1, 0, 0⟩ : Affine ℝ).isInvertible = true := by
  have hsmall : ((1 : Nat) : ℝ) / ((4503599627370496 : Nat) : ℝ) < 1 := by norm_num
  simpa [isInvertible, determinant_eq, Scalar.doubleEpsilon] using hsmall

theorem identity_eq : (identity : Affine ℝ) = ⟨1, 0, 0, 1, 0, 0⟩ := by
  simp only [identity, scalar_ofNat, Nat.cast_zero, Nat.cast_one]

theorem identity_apply (p : Point ℝ) : identity.apply p = p := by
  rw [identity_eq, apply_eq]
  refine Point.ext_real ?_ ?_ <;> ring

/-- Determinants of motions multiply. -/
theorem determinant_compose : (m.compose n).determinant = m.determinant * n.determinant := by
  simp only [determinant_eq, compose, scalar_add, scalar_mul]
  ring

/-- A composition moves a point twice. -/
theorem compose_apply : (m.compose n).apply p = m.apply (n.apply p) := by
  simp only [apply_eq, compose, scalar_add, scalar_mul]
  refine Point.ext_real ?_ ?_ <;> dsimp only <;> ring

/-- Without a vanishing determinant, a motion is undone by its inverse. -/
theorem inverse_apply_apply (h : m.determinant ≠ 0) : m.inverse.apply (m.apply p) = p := by
  rw [apply_eq, apply_eq, inverse_eq]
  have hdet := h
  rw [determinant_eq] at hdet
  refine Point.ext_real ?_ ?_ <;> dsimp only <;> rw [determinant_eq] <;> field_simp <;> ring

/-- Without a vanishing determinant, a motion undoes its inverse. -/
theorem apply_inverse_apply (h : m.determinant ≠ 0) : m.apply (m.inverse.apply p) = p := by
  rw [apply_eq, apply_eq, inverse_eq]
  have hdet := h
  rw [determinant_eq] at hdet
  refine Point.ext_real ?_ ?_ <;> dsimp only <;> rw [determinant_eq] <;> field_simp <;> ring

theorem inverse_identity_apply (p : Point ℝ) : (identity : Affine ℝ).inverse.apply p = p := by
  have hne : (identity : Affine ℝ).determinant ≠ 0 := by
    rw [identity_eq]
    exact determinant_ne_zero_of_isInvertible isInvertible_identity
  have hinverse := inverse_apply_apply (p := p) hne
  rwa [identity_apply] at hinverse

/-- The local position of a moved point in a moved space is that of the point before. -/
theorem inverse_compose_apply (hm : m.determinant ≠ 0) (hn : n.determinant ≠ 0) :
    (m.compose n).inverse.apply (m.apply p) = n.inverse.apply p := by
  have hne : (m.compose n).determinant ≠ 0 := by
    rw [determinant_compose]
    exact mul_ne_zero hm hn
  calc (m.compose n).inverse.apply (m.apply p)
      = (m.compose n).inverse.apply (m.apply (n.apply (n.inverse.apply p))) := by
        rw [apply_inverse_apply hn]
    _ = (m.compose n).inverse.apply ((m.compose n).apply (n.inverse.apply p)) := by
        rw [compose_apply]
    _ = n.inverse.apply p := inverse_apply_apply hne

end Affine

/-! ### Blends and gradients -/

section Ratios

variable {i j : Affine ℝ} {q : Point ℝ} (h : i.apply p = j.apply q)

include h

/-- A position is only seen in the local space. -/
theorem RadialRamp.ratio_congr (radius0 radius1 : ℝ) :
    RadialRamp.ratio ⟨i, radius0, radius1⟩ p = RadialRamp.ratio ⟨j, radius0, radius1⟩ q := by
  simp only [RadialRamp.ratio, h]

/-- The ratio along an axis depends on a point only through its place on the axis. -/
theorem LinearAxis.ratio_congr (start delta : Point ℝ) :
    LinearAxis.ratio ⟨i, start, delta⟩ p = LinearAxis.ratio ⟨j, start, delta⟩ q := by
  simp only [LinearAxis.ratio, h]

/-- The ratio between circles depends on a point only through its place in their coordinates. -/
theorem CirclePair.ratio?_congr (start : Point ℝ) (startRadius : ℝ) (stop : Point ℝ)
    (stopRadius : ℝ) :
    CirclePair.ratio? ⟨i, start, startRadius, stop, stopRadius⟩ p =
      CirclePair.ratio? ⟨j, start, startRadius, stop, stopRadius⟩ q := by
  simp only [CirclePair.ratio?, h]
  rfl

end Ratios

section Motions

variable {t : Affine ℝ} (hm : m.determinant ≠ 0)

include hm

/-- The normal of a strip goes with the transposed inverse, the offset with its translation. -/
theorem LinearRamp.ratio_moved (ramp : LinearRamp ℝ) :
    LinearRamp.ratio ⟨⟨m.inverse.a * ramp.normal.x + m.inverse.b * ramp.normal.y,
        m.inverse.c * ramp.normal.x + m.inverse.d * ramp.normal.y⟩,
      ramp.offset - ramp.normal.dot ⟨m.inverse.e, m.inverse.f⟩⟩ (m.apply p) = ramp.ratio p := by
  have hpreimage := Affine.inverse_apply_apply (p := p) hm
  generalize m.apply p = q at hpreimage ⊢
  subst hpreimage
  rw [LinearRamp.ratio, LinearRamp.ratio, Affine.apply_eq]
  refine congrArg (Scalar.clamp _ _) ?_
  simp only [Point.dot, scalar_add, scalar_sub, scalar_mul]
  ring

variable (ht : t.determinant ≠ 0)

include ht

/-- A moved radial ramp has at moved points the ratios that it had. -/
theorem RadialRamp.ratio_moved (radius0 radius1 : ℝ) :
    RadialRamp.ratio ⟨(m.compose t).inverse, radius0, radius1⟩ (m.apply p) =
      RadialRamp.ratio ⟨t.inverse, radius0, radius1⟩ p := by
  exact RadialRamp.ratio_congr (Affine.inverse_compose_apply hm ht) ..

/-- A moved axis has at moved points the ratios that it had. -/
theorem linearAxis_ratio_moved (start stop : Point ℝ) :
    (Kind.linearAxis (m.compose t) start stop).ratio (m.apply p) =
      (Kind.linearAxis t start stop).ratio p := by
  exact LinearAxis.ratio_congr (Affine.inverse_compose_apply hm ht) ..

/-- A moved pair of circles has at moved points the ratios that it had. -/
theorem circlePair_ratio?_moved (start : Point ℝ) (startRadius : ℝ) (stop : Point ℝ)
    (stopRadius : ℝ) :
    (Kind.circlePair (m.compose t) start startRadius stop stopRadius).ratio? (m.apply p) =
      (Kind.circlePair t start startRadius stop stopRadius).ratio? p := by
  exact CirclePair.ratio?_congr (Affine.inverse_compose_apply hm ht) ..

end Motions

/-! ### Triangles -/

namespace Triangle

/-- Twice the area of a triangle, with a sign by the order of its corners. -/
noncomputable def spanned (b c p : Point ℝ) : ℝ :=
  (b.y - c.y) * (p.x - c.x) + (c.x - b.x) * (p.y - c.y)

/-- A motion scales what two edges and a point span by its determinant. -/
theorem spanned_apply (m : Affine ℝ) (b c p : Point ℝ) :
    spanned (m.apply b) (m.apply c) (m.apply p) = m.determinant * spanned b c p := by
  simp only [spanned, Affine.apply_eq, Affine.determinant_eq]
  ring

/-- A triangle is degenerate if it hardly spans an area. -/
theorem inverseDeterminantOf_eq_zero_iff {corners : Triple (Point ℝ)} :
    inverseDeterminantOf corners = 0 ↔
      |spanned corners.b corners.c corners.a| ≤ (Scalar.doubleEpsilon : ℝ) * 16 := by
  rw [inverseDeterminantOf]
  split
  · rename_i harea
    simpa [spanned] using harea
  · rename_i harea
    have hlarge : ¬ |spanned corners.b corners.c corners.a| ≤ (Scalar.doubleEpsilon : ℝ) * 16 := by
      simpa [spanned] using harea
    have hne : spanned corners.b corners.c corners.a ≠ 0 := by
      intro hzero
      rw [hzero, abs_zero] at hlarge
      exact hlarge (by simp [Scalar.doubleEpsilon])
    exact iff_of_false (by simpa [spanned] using hne) hlarge

/-- A map that keeps areas keeps degenerate triangles apart from the others. -/
theorem inverseDeterminantOf_map_eq_zero_iff {corners : Triple (Point ℝ)}
    (h : |m.determinant| = 1) :
    inverseDeterminantOf (corners.map m.apply) = 0 ↔ inverseDeterminantOf corners = 0 := by
  rw [inverseDeterminantOf_eq_zero_iff, inverseDeterminantOf_eq_zero_iff, Triple.map,
    spanned_apply, abs_mul, h, one_mul]

/-- A triangle that counts as one has the reciprocal of its determinant. -/
theorem inverseDeterminantOf_eq {corners : Triple (Point ℝ)}
    (h : inverseDeterminantOf corners ≠ 0) :
    inverseDeterminantOf corners = 1 / spanned corners.b corners.c corners.a := by
  rw [inverseDeterminantOf] at h ⊢
  split at h
  · simp at h
  · rename_i harea
    rw [if_neg harea]
    simp only [scalar_add, scalar_sub, scalar_mul, scalar_div, scalar_ofNat, Nat.cast_one, spanned]

/-- The weights of a triangle with an area, without its depths. -/
theorem affineWeights_ofCorners {corners : Triple (Point ℝ)} (depths : Option (Triple ℝ))
    (h : inverseDeterminantOf corners ≠ 0) (p : Point ℝ) :
    (ofCorners corners depths).affineWeights p =
      let la := spanned corners.b corners.c p / spanned corners.b corners.c corners.a
      let lb := -spanned corners.a corners.c p / spanned corners.b corners.c corners.a
      ⟨la, lb, 1 - la - lb⟩ := by
  simp only [affineWeights, ofCorners, inverseDeterminantOf_eq h, scalar_add, scalar_sub,
    scalar_mul, scalar_ofNat, Nat.cast_one, spanned]
  simp only [Triple.mk.injEq]
  refine ⟨by ring, by ring, by ring⟩

/-- Weights depend on the position by the weights without depth only. -/
theorem weights_congr {t t' : Triangle ℝ} {p p' : Point ℝ} (depths : t'.depths = t.depths)
    (degenerate : t.inverseDeterminant = 0 ↔ t'.inverseDeterminant = 0)
    (plain : t.inverseDeterminant ≠ 0 → t'.affineWeights p' = t.affineWeights p) :
    t'.weights p' = t.weights p := by
  rw [weights, weights, depths]
  by_cases h : t.inverseDeterminant = 0
  · have h' := degenerate.1 h
    rw [if_pos (by simpa using h'), if_pos (by simpa using h)]
  · have h' := mt degenerate.2 h
    rw [if_neg (by simpa using h'), if_neg (by simpa using h), plain h]

/-- A triangle moved with the point has the same weights there, unless its area counts before the
motion and not after, or the other way round. -/
theorem weights_moved (hm : m.determinant ≠ 0) {corners : Triple (Point ℝ)}
    (depths : Option (Triple ℝ))
    (degenerate : inverseDeterminantOf corners = 0 ↔
      inverseDeterminantOf (corners.map m.apply) = 0) :
    (ofCorners (corners.map m.apply) depths).weights (m.apply p) =
      (ofCorners corners depths).weights p := by
  refine weights_congr rfl degenerate fun h ↦ ?_
  have h' : inverseDeterminantOf (corners.map m.apply) ≠ 0 := fun hzero ↦ h (degenerate.2 hzero)
  rw [affineWeights_ofCorners depths h, affineWeights_ofCorners depths h']
  simp only [Triple.map, spanned_apply, ← mul_neg, mul_div_mul_left _ _ hm]

end Triangle

end Shading
