import Shading.Proofs.Exact.Colors
import Shading.Proofs.Exact.Circles
import Shading.Proofs.Exact.Ramps
import Shading.Proofs.Program.Evaluation

/-!
# The exact color of a program

Computed exactly, a valid program without paths has a color at every sample. `Program.shade` is this
color as a total function of the colors of the children, with the sides of paths chosen on the way,
and evaluation succeeds with it (`evaluateAt_eq_shade`).

What kinds that depend on the position have in common is that they mix the colors of their children
with weights of the sum one (`Mixture`), except where no circle of a radial gradient passes through
the sample.
-/

namespace Shading

/-! ### Mixtures -/

/-- A color mixed from up to three colors of a list, with weights of the sum one. -/
inductive Mixture (colors : List (Vec4 ℝ)) : Vec4 ℝ → Prop
  | one {c : Vec4 ℝ} : c ∈ colors → Mixture colors c
  | two {c d : Vec4 ℝ} : c ∈ colors → d ∈ colors → ∀ t : ℝ, Mixture colors (c.lerp d t)
  | three {c d e : Vec4 ℝ} {r s t : ℝ} : c ∈ colors → d ∈ colors → e ∈ colors → r + s + t = 1 →
    Mixture colors (c * r + d * s + e * t)

namespace Mixture

variable {colors : List (Vec4 ℝ)} {v : Vec4 ℝ}

/-- Only one color can be mixed from equal colors. -/
theorem eq_of_forall (h : Mixture colors v) {a : Vec4 ℝ} (all : ∀ c ∈ colors, c = a) : v = a := by
  cases h with
  | one hc => exact all v hc
  | @two c d hc hd t =>
    rw [all c hc, all d hd, Vec4.lerp_eq]
    refine Vec4.ext ?_ ?_ ?_ ?_ <;> ring
  | @three c d e r s t hc hd he hsum =>
    rw [all c hc, all d hd, all e he]
    have hmul : ∀ x : ℝ, x * r + x * s + x * t = x := fun x ↦ by
      rw [← mul_add, ← mul_add, hsum, mul_one]
    exact Vec4.ext (hmul _) (hmul _) (hmul _) (hmul _)

/-- What is mixed from opaque colors is opaque. -/
theorem w_eq_one (h : Mixture colors v) (all : ∀ c ∈ colors, c.w = 1) : v.w = 1 := by
  cases h with
  | one hc => exact all v hc
  | @two c d hc hd t =>
    rw [Vec4.lerp_eq]
    show c.w * (1 - t) + d.w * t = 1
    rw [all c hc, all d hd]
    ring
  | @three c d e r s t hc hd he hsum =>
    show c.w * r + d.w * s + e.w * t = 1
    rw [all c hc, all d hd, all e he, one_mul, one_mul, one_mul, hsum]

end Mixture

/-- What is picked from colors is mixed from them. -/
theorem Picked.mixture {colors : List (Vec4 ℝ)} {fits : ℝ → Prop} {v : Vec4 ℝ}
    (h : Picked fits colors v) : Mixture colors v := by
  cases h with
  | one hc => exact .one hc
  | between hc hd _ => exact .two hc hd _

/-! ### Answers that are all known -/

/-- Answers with known colors. -/
abbrev answersOf (colors : List (Vec4 ℝ)) : List (Answer ℝ) := colors.map fun c _ ↦ .ok c

variable [LosslessConversions] {colors : List (Vec4 ℝ)}

/-- Laid one below the other until the result is opaque, layers have the color of them all. -/
theorem coverLayers_eq_ok (top : Vec4 ℝ) (below : List (Vec4 ℝ)) :
    coverLayers top (answersOf below) = .ok (stackBlend top (layered below.reverse)) := by
  induction below generalizing top with
  | nil =>
    rw [answersOf, List.map_nil, coverLayers, List.reverse_nil, layered, List.foldl_nil,
      stackBlend_zero]
  | cons c below ih =>
    rw [answersOf, List.map_cons, coverLayers, List.reverse_cons, layered_append, layered_singleton,
      ← stackBlend_assoc]
    by_cases h : isOpaqueAlpha top.w = true
    · rw [if_pos h]
      rw [isOpaqueAlpha_iff] at h
      rw [stackBlend_of_w_eq_one c h, stackBlend_of_w_eq_one _ h]
    · rw [if_neg h]
      exact ih (stackBlend top c)

/-! ### One node -/

namespace Kind

/-- Exact arithmetic does not depart from rendering: no sum is cut off, and a radial gradient that
covers the plane is not taken for one whose circles touch each other. -/
def Regular : Kind ℝ → Prop
  | .blendCompose compose _ => compose ≠ .plusLighter
  | .radialGradient transform start startRadius stop stopRadius _ _ _ =>
    let circles := circlePair transform start startRadius stop stopRadius
    circles.coversPlane = true → 1e-12 ≤ |circles.leading|
  | _ => True

/-- The kind has a color at every position. -/
noncomputable def coversPlane : Kind ℝ → Bool
  | .radialGradient transform start startRadius stop stopRadius _ _ _ =>
    (circlePair transform start startRadius stop stopRadius).coversPlane
  | _ => true

variable {kind : Kind ℝ} (sample : Accuracy → Point ℝ)

/-- Kinds that depend on the position mix the colors of their children. -/
theorem exists_mixture (position : kind.isPositionDependent = true)
    (accepts : kind.Accepts colors.length) :
    ∃ v, kind.evaluate sample (answersOf colors) = .ok v ∧
      (Mixture colors v ∨ v = .zero ∧ (kind.Regular → kind.coversPlane = false)) := by
  cases kind with
  | linearBlend ramp accuracy =>
    obtain ⟨v, hv, hmix⟩ := exists_picked_of_blend (.linearBlend ramp accuracy)
      (ramp.ratio (sample accuracy)) accepts
    exact ⟨v, hv, .inl hmix.mixture⟩
  | radialBlend transform radius0 radius1 accuracy =>
    obtain ⟨v, hv, hmix⟩ := exists_picked_of_blend (.radialBlend transform radius0 radius1 accuracy)
      (RadialRamp.ratio ⟨transform.inverse, radius0, radius1⟩ (sample accuracy)) accepts
    exact ⟨v, hv, .inl hmix.mixture⟩
  | barycentricBlend corners depths accuracy =>
    have hlength : colors.length = 3 := accepts
    obtain ⟨a, b, c, rfl⟩ := List.length_eq_three.1 hlength
    have hsum := (Triangle.ofCorners corners depths).weights_sum (sample accuracy)
    exact ⟨_, rfl, .inl (.three (by simp) (by simp) (by simp) hsum)⟩
  | linearGradient transform start stop ratios extend accuracy =>
    obtain ⟨hlength, hpos, -⟩ := accepts
    have hne : ratios ≠ [] := List.ne_nil_of_length_pos (by omega)
    obtain ⟨v, hv, hmix⟩ := exists_picked_of_gradient
      (.linearGradient transform start stop ratios extend accuracy)
      (extend.apply ((linearAxis transform start stop).ratio (sample accuracy))) hlength hne
    exact ⟨v, hv, .inl hmix.mixture⟩
  | radialGradient transform start startRadius stop stopRadius ratios extend accuracy =>
    obtain ⟨hlength, hpos, -⟩ := accepts
    have hne : ratios ≠ [] := List.ne_nil_of_length_pos (by omega)
    rw [evaluate]
    rcases hratio : (circlePair transform start startRadius stop stopRadius).ratio?
      (sample accuracy) with - | t
    -- No circle passes through the sample, so the circles do not cover the plane.
    · refine ⟨.zero, rfl, .inr ⟨rfl, fun regular ↦ ?_⟩⟩
      refine Bool.eq_false_iff.2 fun hcovers ↦ ?_
      obtain ⟨t, ht⟩ := CirclePair.exists_ratio hcovers (regular hcovers) (sample accuracy)
      rw [hratio] at ht
      cases ht
    · obtain ⟨v, hv, hmix⟩ := exists_picked_of_gradient
        (.radialGradient transform start startRadius stop stopRadius ratios extend accuracy)
        (extend.apply t) hlength hne
      exact ⟨v, hv, .inl hmix.mixture⟩
  | _ => cases position

/-- A stack evaluates to its layers. -/
theorem evaluate_stack : stack.evaluate sample (answersOf colors) = .ok (layered colors) := by
  rw [evaluate, ← List.map_reverse]
  rcases hreverse : colors.reverse with - | ⟨top, below⟩
  · rw [List.reverse_eq_nil_iff.1 hreverse]
    rfl
  · have hcolors : colors = below.reverse ++ [top] := by
      rw [← List.reverse_reverse colors, hreverse, List.reverse_cons]
    rw [hcolors, layered_append, layered_singleton]
    exact coverLayers_eq_ok top below

/-- The color of a node from the colors of its children, on the chosen sides of paths. -/
noncomputable def shade (isInside : Path → Bool) (sample : Accuracy → Point ℝ) (kind : Kind ℝ)
    (colors : List (Vec4 ℝ)) : Vec4 ℝ :=
  match kind with
  | .pathBoolean path => colors[if isInside path then 0 else 1]?.getD .zero
  | kind =>
    match kind.evaluate sample (answersOf colors) with
    | .ok v => v
    | .error _ => .zero

variable {kind : Kind ℝ} {isInside : Path → Bool} {sample : Accuracy → Point ℝ}

/-- Where evaluating succeeds, it gives the shade. -/
theorem shade_of_evaluate {v : Vec4 ℝ} (h : kind.evaluate sample (answersOf colors) = .ok v) :
    kind.shade isInside sample colors = v := by
  have hshade : kind.isPathBoolean = false → kind.shade isInside sample colors =
      match kind.evaluate sample (answersOf colors) with
      | .ok v => v
      | .error _ => .zero := by
    cases kind <;> first | exact fun _ ↦ rfl | exact nofun
  cases kind with
  | pathBoolean => cases h
  | _ => rw [hshade rfl, h]

/-- Pointwise kinds have the shade that they compute. -/
theorem shade_of_pointwise {v : Vec4 ℝ} (h : kind.pointwise? colors = some v) :
    kind.shade isInside sample colors = v :=
  shade_of_evaluate (evaluate_of_pointwise sample h)

theorem shade_stack : stack.shade isInside sample colors = layered colors :=
  shade_of_evaluate (evaluate_stack sample)

/-- With as many children as it accepts, a kind evaluates to its shade, unless it chooses a side. -/
theorem evaluate_eq_shade (accepts : kind.Accepts colors.length)
    (pathless : kind.isPathBoolean = false) :
    kind.evaluate sample (answersOf colors) = .ok (kind.shade isInside sample colors) := by
  obtain ⟨v, hv⟩ := exists_evaluate sample accepts pathless
  rw [hv, shade_of_evaluate hv]

end Kind

namespace Program

variable {ι : Type} (isInside : Path → Bool) (sample : Accuracy → Point ℝ)

/-- The color of a program at a sample, on the chosen sides of its paths. -/
noncomputable def shade (p : Program ι ℝ) : Vec4 ℝ := p.fold (Kind.shade isInside sample)

theorem shade_node (n : ι) (k : Kind ℝ) (cs : List (Program ι ℝ)) :
    (node n k cs).shade isInside sample =
      k.shade isInside sample (cs.map (shade isInside sample)) :=
  fold_node ..

variable {p : Program ι ℝ}

/-- A valid program without paths has its color. -/
theorem evaluateAt_eq_shade (valid : p.Valid) (pathFree : p.PathFree) :
    p.evaluateAt sample = .ok (p.shade isInside sample) := by
  induction p using Program.induct with
  | node n k cs ih =>
    obtain ⟨hvalid, hchildren⟩ := valid
    obtain ⟨hpath, hpaths⟩ := pathFree
    have hanswers : (cs.map fun c (_ : Unit) ↦ c.evaluateAt sample) =
        answersOf (cs.map (shade isInside sample)) := by
      rw [answersOf, List.map_map]
      refine List.map_congr_left fun c hc ↦ funext fun _ ↦ ?_
      exact ih c hc (hchildren c hc) (hpaths c hc)
    have haccepts := Kind.accepts_of_validate hvalid
    rw [← List.length_map (shade isInside sample)] at haccepts
    rw [evaluateAt_node, hanswers, shade_node, Kind.evaluate_eq_shade haccepts hpath]

end Program

end Shading
