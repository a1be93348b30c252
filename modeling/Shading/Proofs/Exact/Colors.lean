import Mathlib.Tactic.Ring
import Shading.Lighting
import Shading.Proofs.Exact.Scalars

/-!
# Exact colors

What compositing does to exact colors. Layers one upon the other form a monoid, with the transparent
color as its unit, and an opaque layer hides everything below it; the alpha of a composition depends
on no blend mode.

The color conversions are whatever functions keep alpha, fix the transparent color and undo each
other (`LosslessConversions`), and only an alpha of exactly one counts as opaque.
-/

namespace Shading

/-- Conversions between color spaces that lose nothing. -/
class LosslessConversions where
  convert : Conversion → Vec4 ℝ → Vec4 ℝ
  convert_w (c : Conversion) (v : Vec4 ℝ) : (convert c v).w = v.w
  convert_zero (c : Conversion) : convert c .zero = .zero
  convert_inverse (c : Conversion) (v : Vec4 ℝ) : convert c.inverse (convert c v) = v

noncomputable instance [LosslessConversions] : ColorModel ℝ where
  convert := LosslessConversions.convert
  opacityTolerance := 0

/-- Alpha one, exactly. -/
theorem isOpaqueAlpha_iff [LosslessConversions] (a : ℝ) : isOpaqueAlpha a = true ↔ a = 1 := by
  have h : isOpaqueAlpha a = true ↔ |a - 1| ≤ 0 := by
    simp [isOpaqueAlpha, ColorModel.opacityTolerance]
  rw [h, abs_nonpos_iff, sub_eq_zero]

/-! ### Layers -/

section

variable (a b c : Vec4 ℝ)

/-- What a layer does not cover shows the layers below. -/
theorem stackBlend_eq : stackBlend a b =
    ⟨a.x + b.x * (1 - a.w), a.y + b.y * (1 - a.w), a.z + b.z * (1 - a.w),
      a.w + b.w * (1 - a.w)⟩ := by
  simp [stackBlend]

/-- Nothing below a layer leaves it as it is. -/
theorem stackBlend_zero : stackBlend a .zero = a := by
  simp [stackBlend_eq]

/-- A transparent layer on top changes nothing. -/
theorem zero_stackBlend : stackBlend .zero a = a := by
  simp [stackBlend_eq]

/-- Layers may be stacked in any grouping. -/
theorem stackBlend_assoc : stackBlend (stackBlend a b) c = stackBlend a (stackBlend b c) := by
  simp only [stackBlend_eq]
  refine Vec4.ext ?_ ?_ ?_ ?_ <;> ring

variable {a}

/-- A layer of alpha one hides what is below. -/
theorem stackBlend_of_w_eq_one (h : a.w = 1) : stackBlend a b = a := by
  rw [stackBlend_eq]
  refine Vec4.ext ?_ ?_ ?_ ?_ <;> simp [h]

end

/-- The color of layers from the bottom to the top. -/
noncomputable def layered (colors : List (Vec4 ℝ)) : Vec4 ℝ :=
  colors.foldl (fun below layer ↦ stackBlend layer below) .zero

/-- Layers may be put together in two parts, the later ones on top. -/
theorem layered_append (xs ys : List (Vec4 ℝ)) :
    layered (xs ++ ys) = stackBlend (layered ys) (layered xs) := by
  induction ys using List.reverseRecOn with
  | nil => rw [List.append_nil, layered, layered, List.foldl_nil, zero_stackBlend]
  | append_singleton ys y ih =>
    have hsnoc : ∀ zs : List (Vec4 ℝ), layered (zs ++ [y]) = stackBlend y (layered zs) :=
      fun zs ↦ List.foldl_append
    rw [← List.append_assoc, hsnoc, ih, hsnoc, stackBlend_assoc]

theorem layered_singleton (c : Vec4 ℝ) : layered [c] = c :=
  stackBlend_zero c

theorem layered_cons (c : Vec4 ℝ) (cs : List (Vec4 ℝ)) :
    layered (c :: cs) = stackBlend (layered cs) c := by
  have h := layered_append [c] cs
  rwa [layered_singleton] at h

/-- Transparent layers make a transparent stack. -/
theorem layered_eq_zero {colors : List (Vec4 ℝ)} (h : ∀ c ∈ colors, c = .zero) :
    layered colors = .zero := by
  induction colors with
  | nil => rfl
  | cons c colors ih =>
    rw [List.forall_mem_cons] at h
    rw [layered_cons, ih h.2, h.1, stackBlend_zero]

/-- What lies below an opaque layer does not show. -/
theorem layered_append_of_w_eq_one {c : Vec4 ℝ} (h : c.w = 1) (below above : List (Vec4 ℝ)) :
    layered (below ++ c :: above) = layered (c :: above) := by
  rw [layered_append, layered_cons, stackBlend_assoc, stackBlend_of_w_eq_one _ h]

/-- A stack with an opaque layer is opaque. -/
theorem layered_w {colors : List (Vec4 ℝ)} {c : Vec4 ℝ} (hc : c ∈ colors) (h : c.w = 1) :
    (layered colors).w = 1 := by
  obtain ⟨below, above, rfl⟩ := List.append_of_mem hc
  rw [layered_append_of_w_eq_one h, layered_cons, stackBlend_eq]
  show (layered above).w + c.w * (1 - (layered above).w) = 1
  rw [h]
  ring

/-! ### Operations on one color -/

theorem premultiply_zero : premultiply (.zero : Vec4 ℝ) = .zero := by
  simp [premultiply]

theorem unpremultiply_zero : unpremultiply (.zero : Vec4 ℝ) = .zero := by
  simp [unpremultiply]

/-- Alpha is not divided. -/
theorem unpremultiply_w (c : Vec4 ℝ) : (unpremultiply c).w = c.w := by
  rw [unpremultiply]
  split
  · rename_i h
    simp_all
  · rfl

/-- A vector without a length is not divided by it. -/
theorem normalized_zero : (Vec4.zero : Vec4 ℝ).normalized = .zero := by
  simp [Vec4.normalized, Vec4.magnitude, Vec4.dot]

/-! ### Compositions -/

section

variable (source backdrop : Vec4 ℝ) (blend : Blend)

theorem blendSource_w : (blendSource source backdrop blend).w = source.w := by
  cases blend <;> rfl

theorem blendSource_zero : blendSource .zero backdrop blend = .zero := by
  cases blend <;> simp [blendSource]

end

/-! ### Lighting -/

namespace Surface

variable (s : Surface ℝ) (shininess : ℝ)

/-- Lights add no alpha. -/
theorem lit_w (light : Light ℝ) (sum : Vec4 ℝ) : (s.lit shininess light sum).w = sum.w := by
  rw [lit]
  split
  · rfl
  · simp [Vec4.withW]

/-- Lights add to the channels only, however many there are. -/
theorem foldl_lit_w (lights : List (Light ℝ)) (sum : Vec4 ℝ) :
    (lights.foldl (fun sum light ↦ s.lit shininess light sum) sum).w = sum.w := by
  induction lights generalizing sum with
  | nil => rfl
  | cons light lights ih => rw [List.foldl_cons, ih, lit_w]

/-- A surface of an opaque ambient color is opaque in any light. -/
theorem phong_w (lights : List (Light ℝ)) (h : s.ambient.w = 1) :
    (s.phong shininess lights).w = 1 := by
  have hsum := s.foldl_lit_w shininess lights s.ambient
  show Scalar.clamp _ _ (lights.foldl (fun sum light ↦ s.lit shininess light sum) s.ambient).w = 1
  rw [hsum, h]
  simp [Scalar.clamp]

end Surface

end Shading
