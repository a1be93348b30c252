import Mathlib.Order.Bounds.Basic
import Mathlib.Tactic.FieldSimp
import Mathlib.Tactic.Linarith
import Mathlib.Tactic.Ring
import Shading.Proofs.Exact.Motions

/-!
# Exact circles

The circles of a radial gradient through a point. Whether the circle at a parameter passes through a
point is a matter of geometry (`CirclePair.Through`); how far it is from doing so is a quadratic
polynomial in the parameter (`CirclePair.excess_eq`). If its leading coefficient is not tiny, the
parameter that is found is the greatest one of a circle through the point, and none is found only if
there is no such circle (`CirclePair.greatestOf_ratio?`).

Of two circles, one strictly within the other, some circle of their family passes through every
point of the plane (`CirclePair.exists_through`): the parameter at which the radius vanishes lies
between the two roots, so one of them has a radius that is not negative. This is no longer found if
the leading coefficient is tiny, which is possible for small circles
(`CirclePair.ratio?_of_constant`). Circles around one point do not meet, so the distance from it
tells which of them is found (`CirclePair.ratio?_of_concentric`).
-/

namespace Shading

/-! ### Quadratic equations -/

section

variable {a b c : ℝ}

/-- The quadratic formula, with half of the linear coefficient. -/
theorem solves_iff (ha : a ≠ 0) (t : ℝ) :
    a * t * t - (b * t + b * t) + c = 0 ↔
      0 ≤ b * b - a * c ∧ (t = (b + √(b * b - a * c)) / a ∨ t = (b - √(b * b - a * c)) / a) := by
  -- Completing the square.
  have hsquare : a * (a * t * t - (b * t + b * t) + c) =
      (t * a - b) * (t * a - b) - (b * b - a * c) := by ring
  have hiff : a * t * t - (b * t + b * t) + c = 0 ↔
      (t * a - b) * (t * a - b) = b * b - a * c := by
    rw [← mul_eq_zero_iff_left ha, hsquare, sub_eq_zero]
  rw [hiff]
  generalize b * b - a * c = d
  constructor
  · intro h
    have hd : 0 ≤ d := h ▸ mul_self_nonneg (t * a - b)
    refine ⟨hd, ?_⟩
    rw [← Real.mul_self_sqrt hd, mul_self_eq_mul_self_iff] at h
    rcases h with h | h
    · left
      rw [eq_div_iff ha]
      linarith only [h]
    · right
      rw [eq_div_iff ha]
      linarith only [h]
  · rintro ⟨hd, rfl | rfl⟩
    · rw [div_mul_cancel₀ _ ha, add_sub_cancel_left, Real.mul_self_sqrt hd]
    · rw [div_mul_cancel₀ _ ha, sub_sub_cancel_left, neg_mul_neg, Real.mul_self_sqrt hd]

/-- Between the roots, where `a` is negative, lies every parameter at which the polynomial is not
negative. -/
theorem roots_around {s : ℝ} (ha : a < 0) (hs : 0 ≤ a * s * s - (b * s + b * s) + c) :
    0 ≤ b * b - a * c ∧ (b + √(b * b - a * c)) / a ≤ s ∧ s ≤ (b - √(b * b - a * c)) / a := by
  have hmul : a * (a * s * s - (b * s + b * s) + c) ≤ 0 := mul_nonpos_of_nonpos_of_nonneg ha.le hs
  have hdisc : (s * a - b) ^ 2 ≤ b * b - a * c := by
    calc (s * a - b) ^ 2 = a * (a * s * s - (b * s + b * s) + c) + (b * b - a * c) := by ring
      _ ≤ b * b - a * c := by linarith only [hmul]
  obtain ⟨hlo, hhi⟩ := abs_le.1 (Real.abs_le_sqrt hdisc)
  refine ⟨le_trans (sq_nonneg _) hdisc, ?_, ?_⟩
  · rw [div_le_iff_of_neg ha]
    linarith only [hhi]
  · rw [le_div_iff_of_neg ha]
    linarith only [hlo]

end

/-- The number is the greatest of the set, or there is none and the set is empty. -/
def GreatestOf (s : Set ℝ) : Option ℝ → Prop
  | some t => IsGreatest s t
  | none => s = ∅

/-- A search that finds the greatest element finds this number exactly if it is the greatest one. -/
theorem GreatestOf.eq_some_iff {s : Set ℝ} {x : Option ℝ} (h : GreatestOf s x) (t : ℝ) :
    x = some t ↔ IsGreatest s t := by
  cases x with
  | none =>
    refine iff_of_false nofun fun ht ↦ ?_
    exact Set.eq_empty_iff_forall_notMem.1 h t ht.1
  | some u =>
    rw [Option.some.injEq]
    exact ⟨fun heq ↦ heq ▸ h, fun ht ↦ IsGreatest.unique h ht⟩

/-- A search that finds the greatest element finds nothing exactly if there is none. -/
theorem GreatestOf.eq_none_iff {s : Set ℝ} {x : Option ℝ} (h : GreatestOf s x) :
    x = none ↔ ∀ t, t ∉ s := by
  cases x with
  | none => exact iff_of_true rfl (Set.eq_empty_iff_forall_notMem.1 h)
  | some u => exact iff_of_false nofun fun hempty ↦ hempty u h.1

/-- The greater one of two numbers, if it fits, or else the other one, if that fits. -/
theorem greatestOf_pair (fits : ℝ → Bool) {lo hi : ℝ} (h : lo ≤ hi) :
    GreatestOf {t | fits t = true ∧ (t = hi ∨ t = lo)}
      (if fits hi then some hi else if fits lo then some lo else none) := by
  split_ifs with hhi hlo
  · refine ⟨⟨hhi, .inl rfl⟩, ?_⟩
    rintro t ⟨-, rfl | rfl⟩
    · exact le_rfl
    · exact h
  · refine ⟨⟨hlo, .inr rfl⟩, ?_⟩
    rintro t ⟨ht, rfl | rfl⟩
    · exact absurd ht hhi
    · exact le_rfl
  · refine Set.eq_empty_iff_forall_notMem.2 ?_
    rintro t ⟨ht, rfl | rfl⟩
    · exact hhi ht
    · exact hlo ht

theorem Point.normSq_nonneg (p : Point ℝ) : 0 ≤ p.normSq :=
  add_nonneg (mul_self_nonneg p.x) (mul_self_nonneg p.y)

namespace CirclePair

/-! ### Circles through a point -/

section Geometry

variable (r : CirclePair ℝ) (q : Point ℝ) (t : ℝ)

noncomputable def radius : ℝ := r.startRadius + t * (r.stopRadius - r.startRadius)

noncomputable def center : Point ℝ :=
  ⟨r.start.x + t * (r.stop.x - r.start.x), r.start.y + t * (r.stop.y - r.start.y)⟩

/-- The circle at the parameter passes through the point of the local space. -/
def Through : Prop := 0 ≤ r.radius t ∧ (q - r.center t).length = r.radius t

/-- The square of the distance of the point from the center, less the square of the radius. -/
noncomputable def excess : ℝ := (q - r.center t).normSq - r.radius t * r.radius t

/-- The square of the distance between the centers, less the square of the difference of the radii:
the leading coefficient of the excess. -/
noncomputable def leading : ℝ :=
  (r.stop.x - r.start.x) * (r.stop.x - r.start.x) +
    (r.stop.y - r.start.y) * (r.stop.y - r.start.y) -
    (r.stopRadius - r.startRadius) * (r.stopRadius - r.startRadius)

/-- Half of the linear coefficient of the excess, with the other sign. -/
noncomputable def linear : ℝ :=
  (q.x - r.start.x) * (r.stop.x - r.start.x) + (q.y - r.start.y) * (r.stop.y - r.start.y) +
    r.startRadius * (r.stopRadius - r.startRadius)

/-- The excess over the first circle. -/
noncomputable def constant : ℝ :=
  (q.x - r.start.x) * (q.x - r.start.x) + (q.y - r.start.y) * (q.y - r.start.y) -
    r.startRadius * r.startRadius

theorem normSq_sub_center : (q - r.center t).normSq =
    (q.x - (r.start.x + t * (r.stop.x - r.start.x))) *
        (q.x - (r.start.x + t * (r.stop.x - r.start.x))) +
      (q.y - (r.start.y + t * (r.stop.y - r.start.y))) *
        (q.y - (r.start.y + t * (r.stop.y - r.start.y))) :=
  rfl

/-- How far a point is beyond the circle of a parameter is quadratic in the parameter. -/
theorem excess_eq : r.excess q t =
    r.leading * t * t - (r.linear q * t + r.linear q * t) + r.constant q := by
  rw [excess, normSq_sub_center, radius, leading, linear, constant]
  ring

/-- A circle through a point has a radius that is not negative, and leaves no excess. -/
theorem through_iff : r.Through q t ↔ 0 ≤ r.radius t ∧ r.excess q t = 0 := by
  refine and_congr_right fun h ↦ ?_
  rw [excess, sub_eq_zero]
  exact Real.sqrt_eq_iff_mul_self_eq (Point.normSq_nonneg _) h

theorem hasCircle_iff : r.hasCircle t = true ↔ 0 ≤ r.radius t := by
  simp [hasCircle, radius]

end Geometry

/-! ### The search for a root -/

/-- The search of `ratio?` for a root of `a t² - 2 b t + c` that fits, apart from where the
coefficients come from. -/
def search {K : Type} [Scalar K] (fits : K → Bool) (a b c : K) : Option K :=
  if Scalar.abs a < 1e-12 then
    if Scalar.abs b < 1e-12 then none
    else
      let t := c / (2 * b)
      if fits t then some t else none
  else
    let disc := b * b - a * c
    if disc < 0 then none
    else
      let root := Scalar.sqrt disc
      let t1 := (b + root) / a
      let t2 := (b - root) / a
      let hi := if t2 ≤ t1 then t1 else t2
      let lo := if t2 ≤ t1 then t2 else t1
      if fits hi then some hi else if fits lo then some lo else none

/-- The ratio is looked for among the roots of the excess, in the coordinates of the gradient. -/
theorem ratio?_eq_search (r : CirclePair ℝ) (p : Point ℝ) :
    let q := r.inverse.apply p
    r.ratio? p = search r.hasCircle r.leading (r.linear q) (r.constant q) :=
  rfl

section Search

variable {fits : ℝ → Bool} {a b c : ℝ}

/-- The bound that the search puts on coefficients. -/
theorem tiny_iff (x : ℝ) :
    @LT.lt ℝ Scalar.instLT (Scalar.abs x)
        (@OfScientific.ofScientific ℝ Scalar.instOfScientific 1 true 12) ↔
      |x| < 1e-12 := by
  rw [scalar_lt, scalar_abs, scalar_ofScientific]
  norm_num

/-- An excess that hardly varies is taken for one without roots. -/
theorem search_of_constant (ha : |a| < 1e-12) (hb : |b| < 1e-12) : search fits a b c = none := by
  rw [search, if_pos ((tiny_iff a).2 ha), if_pos ((tiny_iff b).2 hb)]

/-- An excess that is hardly quadratic has one root. -/
theorem search_of_linear (ha : |a| < 1e-12) (hb : 1e-12 ≤ |b|) :
    search fits a b c = if fits (c / (b + b)) then some (c / (b + b)) else none := by
  rw [search, if_pos ((tiny_iff a).2 ha), if_neg (mt (tiny_iff b).1 (not_lt.2 hb))]
  simp only [scalar_div, scalar_ofNat, Nat.cast_ofNat, two_mul]

/-- What is found is the greatest root that fits. -/
theorem greatestOf_search (ha : 1e-12 ≤ |a|) :
    GreatestOf {t | fits t = true ∧ a * t * t - (b * t + b * t) + c = 0} (search fits a b c) := by
  have hne : a ≠ 0 := by
    rintro rfl
    norm_num at ha
  rw [search, if_neg (mt (tiny_iff a).1 (not_lt.2 ha))]
  simp only [scalar_add, scalar_sub, scalar_mul, scalar_div, scalar_sqrt, scalar_lt, scalar_le,
    scalar_ofNat, Nat.cast_zero, solves_iff hne]
  generalize b * b - a * c = d
  generalize (b + √d) / a = t1
  generalize (b - √d) / a = t2
  by_cases hd : d < 0
  · rw [if_pos hd]
    exact Set.eq_empty_iff_forall_notMem.2 fun t ht ↦ absurd ht.2.1 (not_le.2 hd)
  · rw [if_neg hd]
    simp only [not_lt.1 hd, true_and]
    by_cases h : t2 ≤ t1
    · simp only [if_pos h]
      exact greatestOf_pair fits h
    · simp only [if_neg h, or_comm (a := _ = t1)]
      exact greatestOf_pair fits (not_le.1 h).le

end Search

/-! ### Circles that are found -/

variable {r : CirclePair ℝ} {p q : Point ℝ}

/-- What is found is the greatest parameter of a circle through the point. -/
theorem greatestOf_ratio? (gap : 1e-12 ≤ |r.leading|) (p : Point ℝ) :
    GreatestOf {t | r.Through (r.inverse.apply p) t} (r.ratio? p) := by
  have hset : {t | r.Through (r.inverse.apply p) t} = {t | r.hasCircle t = true ∧
      r.leading * t * t - (r.linear (r.inverse.apply p) * t + r.linear (r.inverse.apply p) * t) +
        r.constant (r.inverse.apply p) = 0} := by
    refine Set.ext fun t ↦ (r.through_iff (r.inverse.apply p) t).trans ?_
    rw [excess_eq, ← hasCircle_iff]
    rfl
  rw [hset, ratio?_eq_search]
  exact greatestOf_search gap

/-! ### Circles within one another -/

/-- The leading coefficient compares the distance of the centers with the difference of the radii.
-/
theorem leading_eq (r : CirclePair ℝ) : r.leading = (r.stop - r.start).normSq -
    (r.stopRadius - r.startRadius) * (r.stopRadius - r.startRadius) :=
  rfl

/-- One circle lies well within the other. -/
theorem coversPlane_iff : r.coversPlane = true ↔
    1e-9 < |r.stopRadius - r.startRadius| - (r.stop - r.start).length := by
  simp only [coversPlane, scalar_lt, scalar_sub, scalar_abs, scalar_ofScientific,
    decide_eq_true_eq]
  norm_num

/-- With one circle within the other, the radii differ by more than the centers do. -/
theorem leading_neg (h : r.coversPlane = true) : r.leading < 0 := by
  have hlt : √(r.stop - r.start).normSq < |r.stopRadius - r.startRadius| :=
    sub_pos.1 (lt_trans (by norm_num) (coversPlane_iff.1 h))
  have hsq := Real.lt_sq_of_sqrt_lt hlt
  rw [sq_abs, sq] at hsq
  rw [leading_eq]
  exact sub_neg.2 hsq

/-- With one circle within the other, the radii differ. -/
theorem radii_ne (h : r.coversPlane = true) : r.stopRadius - r.startRadius ≠ 0 := by
  intro hzero
  have hneg := leading_neg h
  rw [leading_eq, hzero, zero_mul, sub_zero] at hneg
  exact absurd hneg (not_lt.2 (Point.normSq_nonneg _))

/-- A radius that vanishes at a parameter is not negative on one side of it. -/
theorem radius_nonneg_around {s lo hi : ℝ} (hs : r.radius s = 0) (hlo : lo ≤ s) (hhi : s ≤ hi) :
    0 ≤ r.radius lo ∨ 0 ≤ r.radius hi := by
  rw [radius] at hs
  rw [radius, radius]
  rcases le_total (r.stopRadius - r.startRadius) 0 with h | h
  · left
    nlinarith only [hs, mul_nonneg_of_nonpos_of_nonpos (sub_nonpos.2 hlo) h]
  · right
    nlinarith only [hs, mul_nonneg (sub_nonneg.2 hhi) h]

/-- Some circle of the family passes through the point. -/
theorem exists_through (covers : r.coversPlane = true) (q : Point ℝ) : ∃ t, r.Through q t := by
  have hneg := leading_neg covers
  obtain ⟨s, hs⟩ : ∃ s, r.radius s = 0 :=
    ⟨-r.startRadius / (r.stopRadius - r.startRadius), by
      rw [radius, div_mul_cancel₀ _ (radii_ne covers), add_neg_cancel]⟩
  have hexcess : 0 ≤ r.excess q s := by
    rw [excess, hs, zero_mul, sub_zero]
    exact Point.normSq_nonneg _
  rw [excess_eq] at hexcess
  -- So this parameter lies between the two roots, and one of them has a radius to show.
  obtain ⟨hdisc, hlo, hhi⟩ := roots_around hneg hexcess
  rcases radius_nonneg_around hs hlo hhi with hcircle | hcircle
  · refine ⟨_, (through_iff ..).2 ⟨hcircle, ?_⟩⟩
    rw [excess_eq]
    exact (solves_iff hneg.ne _).2 ⟨hdisc, .inl rfl⟩
  · refine ⟨_, (through_iff ..).2 ⟨hcircle, ?_⟩⟩
    rw [excess_eq]
    exact (solves_iff hneg.ne _).2 ⟨hdisc, .inr rfl⟩

/-- It is found if the leading coefficient is not tiny. -/
theorem exists_ratio (covers : r.coversPlane = true) (gap : 1e-12 ≤ |r.leading|) (p : Point ℝ) :
    ∃ t, r.ratio? p = some t := by
  obtain ⟨s, hs⟩ := exists_through covers (r.inverse.apply p)
  refine Option.ne_none_iff_exists'.1 fun hnone ↦ ?_
  exact (greatestOf_ratio? gap p).eq_none_iff.1 hnone s hs

/-- It is not tiny unless the radii are nearly equal. -/
theorem gap_of_radii (covers : r.coversPlane = true)
    (apart : 1e-3 ≤ |r.stopRadius - r.startRadius|) : 1e-12 ≤ |r.leading| := by
  have hdistance := Real.mul_self_sqrt (r.stop - r.start).normSq_nonneg
  have hnonneg := Real.sqrt_nonneg (r.stop - r.start).normSq
  have hcovers : 1e-9 < |r.stopRadius - r.startRadius| - √(r.stop - r.start).normSq :=
    coversPlane_iff.1 covers
  rw [abs_of_neg (leading_neg covers), leading_eq, ← abs_mul_abs_self (_ - _), ← hdistance, neg_sub,
    mul_self_sub_mul_self]
  generalize √(r.stop - r.start).normSq = distance at hnonneg hcovers ⊢
  generalize |r.stopRadius - r.startRadius| = difference at apart hcovers ⊢
  calc (1e-12 : ℝ) = 1e-3 * 1e-9 := by norm_num
    _ ≤ (difference + distance) * (difference - distance) := by
      have hpos : 0 ≤ difference := le_trans (by norm_num) apart
      exact mul_le_mul (le_add_of_le_of_nonneg apart hnonneg) hcovers.le (by norm_num)
        (add_nonneg hpos hnonneg)

/-! ### Circles with a tiny leading coefficient -/

/-- Where the excess hardly varies, a point has no ratio. -/
theorem ratio?_of_constant (tiny : |r.leading| < 1e-12)
    (h : |r.linear (r.inverse.apply p)| < 1e-12) : r.ratio? p = none := by
  rw [ratio?_eq_search]
  exact search_of_constant tiny h

/-- There is a point at which the excess does not change with the parameter, unless the centers are
the same. -/
theorem exists_linear_eq_zero (h : r.start ≠ r.stop) : ∃ q, r.linear q = 0 := by
  have hne : (r.stop.x - r.start.x) * (r.stop.x - r.start.x) +
      (r.stop.y - r.start.y) * (r.stop.y - r.start.y) ≠ 0 := by
    intro hzero
    obtain ⟨hx, hy⟩ := mul_self_add_mul_self_eq_zero.1 hzero
    exact h (Point.ext_real (sub_eq_zero.1 hx).symm (sub_eq_zero.1 hy).symm)
  generalize hn : (r.stop.x - r.start.x) * (r.stop.x - r.start.x) +
    (r.stop.y - r.start.y) * (r.stop.y - r.start.y) = n at hne
  let s := r.startRadius * (r.stopRadius - r.startRadius) / n
  refine ⟨⟨r.start.x - s * (r.stop.x - r.start.x), r.start.y - s * (r.stop.y - r.start.y)⟩, ?_⟩
  have hs : s * n = r.startRadius * (r.stopRadius - r.startRadius) := div_mul_cancel₀ _ hne
  rw [linear, ← hs, ← hn]
  ring

section Concentric

variable (concentric : r.start = r.stop)

include concentric

/-- Around one center, the linear coefficient is the same for all points. -/
theorem linear_of_concentric (q : Point ℝ) :
    r.linear q = r.startRadius * (r.stopRadius - r.startRadius) := by
  rw [linear, concentric, sub_self, sub_self, mul_zero, mul_zero, add_zero, zero_add]

theorem leading_of_concentric :
    r.leading = -((r.stopRadius - r.startRadius) * (r.stopRadius - r.startRadius)) := by
  rw [leading, concentric, sub_self, sub_self, mul_zero, add_zero, zero_sub]

/-- Around one center, the plane is covered as soon as the radii differ enough. -/
theorem coversPlane_iff_of_concentric :
    r.coversPlane = true ↔ 1e-9 < |r.stopRadius - r.startRadius| := by
  have hlength : (r.stop - r.start).length = 0 := by
    show √((r.stop.x - r.start.x) * (r.stop.x - r.start.x) +
      (r.stop.y - r.start.y) * (r.stop.y - r.start.y)) = 0
    rw [concentric, sub_self, sub_self, mul_zero, add_zero, Real.sqrt_zero]
  rw [coversPlane_iff, hlength, sub_zero]

/-- Circles around one point do not meet, so exactly one of them passes through a point. -/
theorem through_iff_of_concentric (radii : r.stopRadius - r.startRadius ≠ 0) (q : Point ℝ)
    (t : ℝ) : r.Through q t ↔
      t = ((q - r.start).length - r.startRadius) / (r.stopRadius - r.startRadius) := by
  have hcenter : r.center t = r.start := by
    rw [center, concentric, sub_self, sub_self, mul_zero, add_zero, add_zero]
  have hlength : 0 ≤ (q - r.start).length := Real.sqrt_nonneg _
  rw [Through, hcenter, radius, eq_div_iff radii, eq_sub_iff_add_eq']
  refine ⟨fun h ↦ h.2.symm, fun h ↦ ⟨?_, h.symm⟩⟩
  rw [h]
  exact hlength

/-- Radii that are not nearly equal make an excess that is quadratic. -/
theorem gap_of_concentric (apart : 1e-6 ≤ |r.stopRadius - r.startRadius|) :
    1e-12 ≤ |r.leading| := by
  rw [leading_of_concentric concentric, abs_neg, abs_mul]
  calc (1e-12 : ℝ) = 1e-6 * 1e-6 := by norm_num
    _ ≤ |r.stopRadius - r.startRadius| * |r.stopRadius - r.startRadius| :=
      mul_self_le_mul_self (by norm_num) apart

/-- It is found by the distance from that point. -/
theorem ratio?_of_concentric (gap : 1e-12 ≤ |r.leading|) (p : Point ℝ) : r.ratio? p =
    some (((r.inverse.apply p - r.start).length - r.startRadius) /
      (r.stopRadius - r.startRadius)) := by
  have hradii : r.stopRadius - r.startRadius ≠ 0 := by
    intro hzero
    rw [leading_of_concentric concentric, hzero] at gap
    norm_num at gap
  rw [(greatestOf_ratio? gap p).eq_some_iff]
  simp only [through_iff_of_concentric concentric hradii]
  exact isGreatest_singleton

/-- Circles around one point are found by an equation that is linear, and not by the right one, but
with a radius that is not negative. -/
theorem exists_ratio_of_concentric (tiny : |r.leading| < 1e-12) (nonneg : 0 ≤ r.startRadius)
    (h : 1e-12 ≤ |r.startRadius * (r.stopRadius - r.startRadius)|) (p : Point ℝ) :
    ∃ t, r.ratio? p = some t := by
  have hlinear := linear_of_concentric concentric (r.inverse.apply p)
  rw [ratio?_eq_search, hlinear, search_of_linear tiny h]
  have hne : r.startRadius * (r.stopRadius - r.startRadius) ≠ 0 := by
    intro hzero
    rw [hzero] at h
    norm_num at h
  obtain ⟨hstart, hradii⟩ := mul_ne_zero_iff.1 hne
  have hconstant : r.constant (r.inverse.apply p) + r.startRadius * r.startRadius =
      (r.inverse.apply p - r.start).normSq := sub_add_cancel _ _
  have hradius : r.radius (r.constant (r.inverse.apply p) /
      (r.startRadius * (r.stopRadius - r.startRadius) +
        r.startRadius * (r.stopRadius - r.startRadius))) =
      (r.startRadius * r.startRadius + (r.constant (r.inverse.apply p) +
        r.startRadius * r.startRadius)) / (r.startRadius + r.startRadius) := by
    rw [radius, ← add_mul]
    field_simp
    ring
  refine ⟨_, if_pos ((hasCircle_iff ..).2 ?_)⟩
  rw [hradius, hconstant]
  exact div_nonneg (add_nonneg (mul_self_nonneg _) (Point.normSq_nonneg _))
    (add_nonneg nonneg nonneg)

end Concentric

/-- Some point is not reached by circles that are not far enough apart, if every point of the local
space is the place of some point. -/
theorem exists_ratio?_eq_none (tiny : |r.leading| < 1e-12)
    (onto : ∀ q, ∃ p, r.inverse.apply p = q)
    (h : r.start = r.stop → |r.startRadius * (r.stopRadius - r.startRadius)| < 1e-12) :
    ∃ p, r.ratio? p = none := by
  by_cases hcenters : r.start = r.stop
  · refine ⟨r.start, ratio?_of_constant tiny ?_⟩
    rw [linear_of_concentric hcenters]
    exact h hcenters
  · obtain ⟨q, hq⟩ := exists_linear_eq_zero hcenters
    obtain ⟨p, hp⟩ := onto q
    refine ⟨p, ratio?_of_constant tiny ?_⟩
    rw [hp, hq]
    norm_num

end CirclePair

/-! ### Gradients that are accepted -/

/-- Two stops at the ends pass the checks of a gradient. -/
theorem checkStops_unit : checkStops ([0, 1] : List ℝ) = .ok () := by
  simp [checkStops, checkStops.sorted, require, bind, Except.bind]

theorem Kind.checkRadii_of_nonneg {radius0 radius1 : ℝ} (h0 : 0 ≤ radius0) (h1 : 0 ≤ radius1) :
    checkRadii [radius0, radius1] = .ok () := by
  simp [checkRadii, require, bind, Except.bind, h0, h1]

end Shading
