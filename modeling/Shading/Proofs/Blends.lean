import Shading.Proofs.Exact.Circles
import Shading.Proofs.Invertibility

/-!
# Blends as gradients

A blend is a padded gradient with two stops (`Build.blend_evaluates_as_gradient`), although the two
are computed in different ways. A linear blend takes the product of a position and a scaled normal,
less an offset, where a gradient projects the position onto its axis. A radial blend measures the
distance from a center, where a gradient looks for the root of a quadratic equation and for a circle
with a radius that is not negative; around one point there is exactly one such circle
(`CirclePair.through_iff_of_concentric`). And a blend compares its ratio with both ends, where a
gradient searches a table of stops.

The radii of a radial blend have to be apart. If they are nearly equal, the equation of the gradient
is taken for a linear one.
-/

namespace Shading

/-! ### Two stops -/

/-- From two stops at the ends, a blend is selected. -/
theorem Selection.select_unit (t : ℝ) : select [0, 1] t =
    if t ≤ 0 then .single 0 else if 1 ≤ t then .single 1 else .between 0 t := by
  rw [select]
  simp only [scalar_le, List.getLast_singleton, List.length_nil, zero_add]
  refine if_congr Iff.rfl rfl (ite_congr rfl (fun _ ↦ rfl) fun h ↦ ?_)
  rw [scan, if_pos ((scalar_lt t 1).2 (not_le.1 h))]
  simp

/-- A table of the two ends selects as a blend does. -/
theorem gradientAt_unit (kind : Kind ℝ) (zero one : Answer ℝ) (t : ℝ) :
    gradientAt kind [zero, one] [0, 1] t = blendBetween t zero one := by
  rw [gradientAt, blendBetween, Selection.select_unit]
  simp only [scalar_le, scalar_ofNat, Nat.cast_zero, Nat.cast_one]
  by_cases hzero : t ≤ 0
  · simp only [if_pos hzero]
    rfl
  by_cases hone : 1 ≤ t
  · simp only [if_neg hzero, if_pos hone]
    rfl
  · simp only [if_neg hzero, if_neg hone]
    rfl

/-! ### Ratios -/

section Ratios

variable {start stop p : Point ℝ}

/-- The product with the scaled normal, less the one at the start, is the part of the axis that the
position projects to. -/
theorem LinearRamp.ratio_between (apart : (stop - start).normSq ≠ 0) :
    let normal := (stop - start).divide (stop - start).normSq
    LinearRamp.ratio ⟨normal, normal.dot start⟩ p =
      Extend.pad.apply ((Kind.linearAxis .identity start stop).ratio p) := by
  intro normal
  have haxis : (Kind.linearAxis .identity start stop).ratio p =
      (p - start).dot (stop - start) / (stop - start).normSq := by
    rw [Kind.linearAxis, LinearAxis.ratio, Affine.inverse_identity_apply]
    exact if_neg (by simpa using apart)
  rw [LinearRamp.ratio, Extend.apply, haxis]
  refine congrArg (Scalar.clamp _ _) ?_
  have hsub : p - start = ⟨p.x - start.x, p.y - start.y⟩ := rfl
  simp only [normal, hsub, Point.divide, Point.dot, scalar_add, scalar_sub, scalar_mul, scalar_div,
    scalar_ofNat, Nat.cast_one]
  ring

/-- If the radii are apart, the circle through a position is found, by the distance that the blend
measures. -/
theorem RadialRamp.ratio_eq {transform : Affine ℝ} {radius0 radius1 : ℝ}
    (apart : 1e-6 ≤ |radius1 - radius0|) : ∃ t,
    (Kind.circlePair transform .origin radius0 .origin radius1).ratio? p = some t ∧
      RadialRamp.ratio ⟨transform.inverse, radius0, radius1⟩ p = Extend.pad.apply t := by
  have hgap := CirclePair.gap_of_concentric
    (r := Kind.circlePair transform .origin radius0 .origin radius1) rfl apart
  refine ⟨_, CirclePair.ratio?_of_concentric rfl hgap p, ?_⟩
  have hne : radius1 - radius0 ≠ 0 := by
    intro hzero
    norm_num [hzero] at apart
  rw [ratio, if_neg (by simpa using hne)]
  show _ = Scalar.clamp _ _
    (((transform.inverse.apply p - .origin).length - radius0) / (radius1 - radius0))
  rw [Point.sub_origin]

end Ratios

/-! ### Programs -/

/-- Nodes with the same children have the same answers if their kinds make the same of them. -/
theorem Program.evaluate_congr {ι R : Type} [ColorModel R] {k k' : Kind R}
    {cs : List (Program ι R)}
    (h : ∀ (sample : Accuracy → Point R) (answers : List (Answer R)),
      answers.length = cs.length → k.evaluate sample answers = k'.evaluate sample answers)
    (n n' : ι) (ctx : Context R) : (node n k cs).evaluate ctx = (node n' k' cs).evaluate ctx := by
  rw [evaluate, evaluate, evaluateAt_node, evaluateAt_node, h _ _ (List.length_map _)]

namespace Kind

/-- A linear blend of two answers is a gradient along an axis. -/
theorem linearBlend_evaluate {start stop : Point ℝ} (apart : (stop - start).normSq ≠ 0)
    (accuracy : Accuracy) (sample : Accuracy → Point ℝ) {answers : List (Answer ℝ)}
    (two : answers.length = 2) :
    let normal := (stop - start).divide (stop - start).normSq
    (Kind.linearBlend ⟨normal, normal.dot start⟩ accuracy).evaluate sample answers =
      (Kind.linearGradient .identity start stop [0, 1] .pad accuracy).evaluate sample answers := by
  intro normal
  obtain ⟨zero, one, rfl⟩ := List.length_eq_two.1 two
  rw [evaluate, evaluate, gradientAt_unit, LinearRamp.ratio_between apart]
  rfl

/-- A radial blend of two answers is a gradient among circles around one point. -/
theorem radialBlend_evaluate {radius0 radius1 : ℝ} (apart : 1e-6 ≤ |radius1 - radius0|)
    (transform : Affine ℝ) (accuracy : Accuracy) (sample : Accuracy → Point ℝ)
    {answers : List (Answer ℝ)} (two : answers.length = 2) :
    (Kind.radialBlend transform radius0 radius1 accuracy).evaluate sample answers =
      (Kind.radialGradient transform .origin radius0 .origin radius1 [0, 1] .pad
        accuracy).evaluate sample answers := by
  obtain ⟨zero, one, rfl⟩ := List.length_eq_two.1 two
  obtain ⟨t, hfound, hratio⟩ := RadialRamp.ratio_eq (p := sample accuracy) apart
  rw [evaluate, evaluate, hfound, hratio]
  exact (gradientAt_unit _ zero one _).symm

/-- A gradient with two stops along a line passes the checks. -/
theorem validate_linearGradient (start stop : Point ℝ) (accuracy : Accuracy) :
    (Kind.linearGradient .identity start stop [0, 1] .pad accuracy).validate 2 = .ok () := by
  rw [validate, Affine.identity_eq, checkTransform_one, checkStops_unit]
  rfl

/-- A gradient with two stops between circles passes the checks of a radial blend. -/
theorem validate_radialGradient {transform : Affine ℝ} {radius0 radius1 : ℝ}
    (invertible : Scalar.doubleEpsilon < |transform.determinant|) (h0 : 0 ≤ radius0)
    (h1 : 0 ≤ radius1) (accuracy : Accuracy) :
    (Kind.radialGradient transform .origin radius0 .origin radius1 [0, 1] .pad
      accuracy).validate 2 = .ok () := by
  rw [validate, checkTransform_eq_ok_iff.2 invertible, checkRadii_of_nonneg h0 h1, checkStops_unit]
  rfl

end Kind

namespace Build

/-- A checked node is made exactly if the checks pass. -/
theorem checked_eq_ok_iff {R : Type} [Scalar R] {k : Kind R} {cs : List (Shared R)}
    {w : Workspace R} {p : Shared R} : (checked k cs w).1 = .ok p ↔
      k.validate cs.length = .ok () ∧ p = .node w.next k cs := by
  rw [checked]
  cases k.validate cs.length with
  | error cause => exact ⟨nofun, nofun⟩
  | ok u =>
    show Except.ok _ = _ ↔ _
    rw [Except.ok.injEq, eq_comm]
    exact (and_iff_right rfl).symm

variable {w : Workspace ℝ} {zero one p : Shared ℝ} {accuracy : Accuracy}

/-- A linear blend between two points is accepted if they are apart. -/
theorem linearBlendBetween_eq_ok_iff {start stop : Point ℝ} :
    let normal := (stop - start).divide (stop - start).normSq
    (linearBlendBetween start stop accuracy zero one w).1 = .ok p ↔
      Scalar.doubleEpsilon < (stop - start).normSq ∧
        p = .node w.next (.linearBlend ⟨normal, normal.dot start⟩ accuracy) [zero, one] := by
  intro normal
  rw [linearBlendBetween]
  split
  · rename_i hlength
    refine iff_of_false nofun fun h ↦ ?_
    rcases hlength with hsmall | hinfinite
    · exact not_le.2 h.1 ((scalar_le ..).1 hsmall)
    · rw [scalar_isFinite] at hinfinite
      cases hinfinite
  · rename_i hlength
    rw [checked_eq_ok_iff]
    refine and_congr_left' (iff_of_true rfl (not_le.1 fun h ↦ hlength (.inl ?_)))
    exact (scalar_le ..).2 h

/-- A blend that is accepted has the same answers as a padded gradient from its first child to its
second, along the axis of a linear blend and among the circles of a radial one, whose radii may grow
or shrink. -/
theorem blend_evaluates_as_gradient (accuracy : Accuracy) (zero one : Shared ℝ)
    (w w' : Workspace ℝ) :
    (∀ start stop p, (linearBlendBetween start stop accuracy zero one w).1 = .ok p →
      ∃ q, (checked (.linearGradient .identity start stop [0, 1] .pad accuracy) [zero, one]
          w').1 = .ok q ∧
        ∀ ctx : Context ℝ, p.evaluate ctx = q.evaluate ctx) ∧
    ∀ transform radius0 radius1 p, 0 ≤ radius0 → 0 ≤ radius1 → 1e-6 ≤ |radius1 - radius0| →
      (checked (.radialBlend transform radius0 radius1 accuracy) [zero, one] w).1 = .ok p →
      ∃ q, (checked (.radialGradient transform .origin radius0 .origin radius1 [0, 1] .pad accuracy)
          [zero, one] w').1 = .ok q ∧
        ∀ ctx : Context ℝ, p.evaluate ctx = q.evaluate ctx := by
  refine ⟨fun start stop p h ↦ ?_, fun transform radius0 radius1 p h0 h1 apart h ↦ ?_⟩
  · obtain ⟨hapart, rfl⟩ := linearBlendBetween_eq_ok_iff.1 h
    have hne : (stop - start).normSq ≠ 0 := by
      rw [doubleEpsilon_eq] at hapart
      exact (lt_trans (by norm_num) hapart).ne'
    have hvalid := Kind.validate_linearGradient start stop accuracy
    refine ⟨_, checked_eq_ok_iff.2 ⟨hvalid, rfl⟩, Program.evaluate_congr ?_ _ _⟩
    exact fun sample answers two ↦ Kind.linearBlend_evaluate hne accuracy sample two
  · obtain ⟨hblend, rfl⟩ := checked_eq_ok_iff.1 h
    have htransform := checkTransform_eq_ok_iff.1 (check_bind_eq_ok_iff.1 hblend).1
    have hvalid := Kind.validate_radialGradient htransform h0 h1 accuracy
    refine ⟨_, checked_eq_ok_iff.2 ⟨hvalid, rfl⟩, Program.evaluate_congr ?_ _ _⟩
    exact fun sample answers two ↦ Kind.radialBlend_evaluate apart transform accuracy sample two

/-- A blend across a pixel, and one that shrinks to a point. -/
theorem blend_redToGreen :
    (∃ p q : Shared ℝ,
      (linearBlendBetween ⟨0, 0⟩ ⟨1, 0⟩ .unsplitCentroid redCorner greenCorner ⟨2, {}⟩).1 = .ok p ∧
      (checked (.linearGradient .identity ⟨0, 0⟩ ⟨1, 0⟩ [0, 1] .pad .unsplitCentroid)
        [redCorner, greenCorner] ⟨3, {}⟩).1 = .ok q ∧
      ∀ ctx : Context ℝ, p.evaluate ctx = q.evaluate ctx) ∧
    (0 : ℝ) ≤ 1 ∧ (0 : ℝ) ≤ 0 ∧ (1e-6 : ℝ) ≤ |0 - 1| ∧
    ∃ p q : Shared ℝ,
      (checked (.radialBlend ⟨1, 0, 0, 1, 0, 0⟩ 1 0 .unsplitCentroid) [redCorner, greenCorner]
        ⟨2, {}⟩).1 = .ok p ∧
      (checked (.radialGradient ⟨1, 0, 0, 1, 0, 0⟩ .origin 1 .origin 0 [0, 1] .pad .unsplitCentroid)
        [redCorner, greenCorner] ⟨3, {}⟩).1 = .ok q ∧
      ∀ ctx : Context ℝ, p.evaluate ctx = q.evaluate ctx := by
  obtain ⟨hlinear, hradial⟩ :=
    blend_evaluates_as_gradient .unsplitCentroid redCorner greenCorner ⟨2, {}⟩ ⟨3, {}⟩
  have hlength : (Scalar.doubleEpsilon : ℝ) < ((⟨1, 0⟩ : Point ℝ) - ⟨0, 0⟩).normSq := by
    show _ < ((1 : ℝ) - 0) * (1 - 0) + (0 - 0) * (0 - 0)
    rw [doubleEpsilon_eq]
    norm_num
  have hshrinks : (1e-6 : ℝ) ≤ |0 - 1| := by norm_num
  have hvalid : (Kind.radialBlend (⟨1, 0, 0, 1, 0, 0⟩ : Affine ℝ) 1 0 .unsplitCentroid).validate 2 =
      .ok () := check_bind_eq_ok_iff.2 ⟨Kind.checkTransform_one, rfl⟩
  obtain ⟨q, hq, hsame⟩ :=
    hlinear ⟨0, 0⟩ ⟨1, 0⟩ _ (linearBlendBetween_eq_ok_iff.2 ⟨hlength, rfl⟩)
  obtain ⟨q', hq', hsame'⟩ := hradial ⟨1, 0, 0, 1, 0, 0⟩ 1 0 _ zero_le_one le_rfl hshrinks
    (checked_eq_ok_iff.2 ⟨hvalid, rfl⟩)
  exact ⟨⟨_, q, linearBlendBetween_eq_ok_iff.2 ⟨hlength, rfl⟩, hq, hsame⟩, zero_le_one, le_rfl,
    hshrinks, _, q', checked_eq_ok_iff.2 ⟨hvalid, rfl⟩, hq', hsame'⟩

end Build

end Shading
