import Shading.Proofs.Exact.Standard
import Shading.Proofs.Program.Shade

/-!
# Alphas near one

How far from one an alpha is after an operation on colors whose alphas miss one by no more than a
tolerance. Mixing with weights that are not negative and moving into the unit interval keep the
tolerance (`near_weighted`, `near_clamp`), and so does one layer over another if the other one has
an alpha between 0 and 2 (`near_over`).

A stack leaves out layers below others that count as opaque together, so its color is that of the
upper layers which it shows (`exists_shows`). Those are near one as soon as any upper layers are
(`Shows.near`).
-/

namespace Shading

section

variable {tolerance a b : ℝ}

/-- Weights that are not negative and have the sum one. -/
theorem near_weighted {c r s t : ℝ} (ha : |a - 1| ≤ tolerance) (hb : |b - 1| ≤ tolerance)
    (hc : |c - 1| ≤ tolerance) (hr : 0 ≤ r) (hs : 0 ≤ s) (ht : 0 ≤ t) (hsum : r + s + t = 1) :
    |a * r + b * s + c * t - 1| ≤ tolerance := by
  calc |a * r + b * s + c * t - 1| = |(a - 1) * r + (b - 1) * s + (c - 1) * t| := by
        congr 1
        linear_combination hsum
    _ ≤ |(a - 1) * r| + |(b - 1) * s| + |(c - 1) * t| := abs_add_three _ _ _
    _ = |a - 1| * r + |b - 1| * s + |c - 1| * t := by
        rw [abs_mul, abs_mul, abs_mul, abs_of_nonneg hr, abs_of_nonneg hs, abs_of_nonneg ht]
    _ ≤ tolerance * r + tolerance * s + tolerance * t := by gcongr
    _ = tolerance := by rw [← mul_add, ← mul_add, hsum, mul_one]

/-- A mixture of two alphas, as between two stops. -/
theorem near_between {t : ℝ} (ha : |a - 1| ≤ tolerance) (hb : |b - 1| ≤ tolerance) (ht : 0 ≤ t)
    (ht' : t ≤ 1) : |a * (1 - t) + b * t - 1| ≤ tolerance := by
  simpa using near_weighted ha hb hb (sub_nonneg.2 ht') ht le_rfl (by ring)

/-- Which of two alphas lies over the other does not matter. -/
theorem over_comm (a b : ℝ) : a + b * (1 - a) = b + a * (1 - b) := by
  ring

/-- An alpha between 0 and 2 over one near one, or below it. -/
theorem near_over (ha : |a - 1| ≤ tolerance) (hb : |b - 1| ≤ 1) :
    |a + b * (1 - a) - 1| ≤ tolerance := by
  calc |a + b * (1 - a) - 1| = |a - 1| * |b - 1| := by rw [← abs_mul, ← abs_neg]; ring_nf
    _ ≤ |a - 1| * 1 := by gcongr
    _ ≤ tolerance := by rwa [mul_one]

/-- What is below one or above it comes closer to it, or stays. -/
theorem near_clamp (h : |a - 1| ≤ tolerance) : |Scalar.clamp 0 1 a - 1| ≤ tolerance := by
  refine le_trans ?_ h
  rcases lt_or_ge a 0 with hneg | hpos
  · have hone : 1 ≤ |a - 1| := by
      rw [abs_of_neg (by linarith)]
      linarith
    simpa [Scalar.clamp, hneg, zero_le_one.not_gt] using hone
  · rcases le_or_gt a 1 with hle | hgt
    · simp [Scalar.clamp, hpos.not_gt, hle.not_gt]
    · simp [Scalar.clamp, hpos.not_gt, hgt]

/-- A surface keeps the alpha of its ambient color, moved between 0 and 1. -/
theorem Surface.phong_near (s : Surface ℝ) (shininess : ℝ) (lights : List (Light ℝ))
    (h : |s.ambient.w - 1| ≤ tolerance) : |(s.phong shininess lights).w - 1| ≤ tolerance := by
  have hsum := s.foldl_lit_w shininess lights s.ambient
  show |Scalar.clamp _ _ (lights.foldl (fun sum light ↦ s.lit shininess light sum) s.ambient).w -
    1| ≤ tolerance
  rw [hsum]
  simpa using near_clamp h

end

/-- A color between two others misses alpha one by no more than they do. -/
theorem Picked.near {tolerance : ℝ} {colors : List (Vec4 ℝ)} {v : Vec4 ℝ}
    (h : Picked (fun t : ℝ ↦ 0 ≤ t ∧ t ≤ 1) colors v) (all : ∀ c ∈ colors, |c.w - 1| ≤ tolerance) :
    |v.w - 1| ≤ tolerance := by
  cases h with
  | one hc => exact all v hc
  | between hc hd ht =>
    rw [Vec4.lerp_eq]
    exact near_between (all _ hc) (all _ hd) ht.1 ht.2

/-- A color between others with a ratio of one kind is so with a ratio of any wider kind. -/
theorem Picked.imp {fits fits' : ℝ → Prop} {colors : List (Vec4 ℝ)} {v : Vec4 ℝ}
    (h : Picked fits colors v) (hfits : ∀ t, fits t → fits' t) : Picked fits' colors v := by
  cases h with
  | one hc => exact .one hc
  | between hc hd ht => exact .between hc hd (hfits _ ht)

/-! ### Layers -/

/-- All layers show: none of them lies below others that count as opaque together. -/
def Reached (colors : List (Vec4 ℝ)) : Prop :=
  ∀ lower upper, colors = lower ++ upper → lower ≠ [] → isOpaqueAlpha (layered upper).w = false

/-- The upper layers that a stack shows; it leaves out others only below layers that count as opaque
together. -/
structure Shows (colors shown : List (Vec4 ℝ)) : Prop where
  reached : Reached shown
  left_out : ∃ hidden, colors = hidden ++ shown ∧
    (hidden ≠ [] → isOpaqueAlpha (layered shown).w = true)

/-- Below layers that all show, the stack goes on through the others until it stops. -/
theorem exists_shows_of_coverLayers (below : List (Vec4 ℝ)) {above : List (Vec4 ℝ)}
    (reached : Reached above) :
    ∃ shown, Shows (below.reverse ++ above) shown ∧
      coverLayers (layered above) (answersOf below) = .ok (layered shown) := by
  induction below generalizing above with
  | nil => exact ⟨above, ⟨reached, [], rfl, fun h ↦ absurd rfl h⟩, rfl⟩
  | cons c below ih =>
    rw [answersOf, List.map_cons, coverLayers]
    by_cases h : isOpaqueAlpha (layered above).w = true
    · rw [if_pos h]
      exact ⟨above, ⟨reached, _, rfl, fun _ ↦ h⟩, rfl⟩
    · rw [if_neg h, List.reverse_cons, List.append_assoc]
      have hreached : Reached (c :: above) := by
        intro lower upper happend hne
        obtain ⟨rest, rfl, habove⟩ :=
          (List.cons_eq_append_iff.1 happend).resolve_left fun h ↦ hne h.1
        rcases rest with - | ⟨d, rest⟩
        · rw [List.nil_append] at habove
          rw [← habove]
          exact Bool.eq_false_iff.2 h
        · exact reached _ _ habove (List.cons_ne_nil d rest)
      have hcover := ih hreached
      rwa [layered_cons] at hcover

/-- No layers at all are not opaque. -/
theorem isOpaqueAlpha_layered_nil : isOpaqueAlpha (layered []).w = false := by
  rw [Bool.eq_false_iff, Ne, isOpaqueAlpha_iff_near]
  norm_num [layered]

/-- A stack has the color of the layers that it shows. -/
theorem exists_shows (sample : Accuracy → Point ℝ) (colors : List (Vec4 ℝ)) :
    ∃ shown, Shows colors shown ∧
      Kind.stack.evaluate sample (answersOf colors) = .ok (layered shown) := by
  have hreached : Reached [] := fun lower upper h hne ↦
    absurd (List.append_eq_nil_iff.1 h.symm).1 hne
  have hzero := isOpaqueAlpha_layered_nil
  obtain ⟨shown, hshows, hcover⟩ := exists_shows_of_coverLayers colors.reverse hreached
  rw [List.reverse_reverse, List.append_nil] at hshows
  refine ⟨shown, hshows, ?_⟩
  rw [← hcover, Kind.evaluate, ← List.map_reverse]
  rcases colors.reverse with - | ⟨top, below⟩
  · rfl
  · rw [List.map_cons, answersOf, List.map_cons, coverLayers, hzero, if_neg Bool.false_ne_true]
    show coverLayers top _ = coverLayers (stackBlend .zero top) _
    rw [zero_stackBlend]

/-- Some upper layers that are near one together leave the whole stack near one, since it is left
there if not before. -/
theorem Shows.near {colors shown lower upper : List (Vec4 ℝ)} (h : Shows colors shown)
    (append : colors = lower ++ upper) (near : |(layered upper).w - 1| ≤ 1e-8) :
    |(layered shown).w - 1| ≤ 1e-8 := by
  obtain ⟨hreached, hidden, hcolors, hstops⟩ := h
  by_cases hne : hidden = []
  · rw [hne, List.nil_append] at hcolors
    rw [hcolors] at append
    by_cases hlower : lower = []
    · rwa [append, hlower]
    -- The upper layers count as opaque already, so the lower ones would have been left out.
    · have hstop := (isOpaqueAlpha_iff_near _).2 near
      rw [hreached lower upper append hlower] at hstop
      cases hstop
  · exact (isOpaqueAlpha_iff_near _).1 (hstops hne)

end Shading
