import Mathlib.Tactic.FieldSimp
import Mathlib.Tactic.Linarith
import Mathlib.Topology.UnitInterval
import Shading.Proofs.Exact.Colors

/-!
# Exact colors in gamut

A premultiplied color is in gamut if none of its channels is negative, none exceeds its alpha, and
its alpha is at most one. A straight color is in the cube if its channels lie between 0 and 1.

Every blend mode keeps straight colors in the cube (`InCube.mix`). For most modes this is a matter
of one channel. The four modes of hue, saturation, color and luminosity set the luminosity of a
color whose channels may be anything: what `clipColor` pulls toward the gray of a luminosity between
0 and 1 ends in the cube, since the gray lies between the least and the greatest channel, and both
pulls together are one pull that is strong enough at either end (`inCube_of_pull`).

What a Porter-Duff operator makes of a source and a backdrop is a sum with weights. It stays in
gamut as long as the sum of the alphas does (`InGamut.weighted`), which only the unlimited sum can
fail.
-/

namespace Shading

open Set unitInterval

-- Numerals in statements are those of the reals, as in the library's tactics.
attribute [local instance(200)] instOfNatAtLeastTwo

/-- No channel of the premultiplied color is negative or exceeds its alpha, and the alpha is at most
one. -/
structure InGamut (c : Vec4 ℝ) : Prop where
  x_nonneg : 0 ≤ c.x
  y_nonneg : 0 ≤ c.y
  z_nonneg : 0 ≤ c.z
  x_le : c.x ≤ c.w
  y_le : c.y ≤ c.w
  z_le : c.z ≤ c.w
  w_le : c.w ≤ 1

/-- The channels of the straight color lie between 0 and 1. -/
structure InCube (c : Vec4 ℝ) : Prop where
  x : c.x ∈ I
  y : c.y ∈ I
  z : c.z ∈ I

/-! ### The unit interval -/

section

variable {a b t : ℝ}

/-- What lies between two numbers of the interval is in it. -/
theorem between_mem (ha : a ∈ I) (hb : b ∈ I) (ht : t ∈ I) : a * (1 - t) + b * t ∈ I := by
  obtain ⟨ht', -⟩ := Icc.one_sub_mem ht
  refine ⟨add_nonneg (mul_nonneg ha.1 ht') (mul_nonneg hb.1 ht.1), ?_⟩
  calc a * (1 - t) + b * t ≤ 1 * (1 - t) + 1 * t :=
        add_le_add (mul_le_mul_of_nonneg_right ha.2 ht') (mul_le_mul_of_nonneg_right hb.2 ht.1)
    _ = 1 := by ring

theorem min_one_mem (ha : 0 ≤ a) : min a 1 ∈ I :=
  ⟨le_min ha zero_le_one, min_le_right a 1⟩

end

namespace Blend

/-! ### Channels -/

section

variable {b s : ℝ}

/-- Screen keeps channels of the unit interval in it. -/
theorem screenChannel_mem (hb : b ∈ I) (hs : s ∈ I) : screenChannel b s ∈ I := by
  have h : screenChannel b s = 1 - (1 - b) * (1 - s) := by
    simp only [screenChannel, scalar_add, scalar_sub, scalar_mul]
    ring
  rw [h]
  exact Icc.one_sub_mem (mul_mem (Icc.one_sub_mem hb) (Icc.one_sub_mem hs))

/-- Hard light multiplies or screens, by the source. -/
theorem hardLightChannel_mem (hb : b ∈ I) (hs : s ∈ I) : hardLightChannel b s ∈ I := by
  simp only [hardLightChannel, scalar_le, scalar_ofScientific, scalar_mul, scalar_sub,
    scalar_ofNat]
  split
  · rename_i hhalf
    have hdouble : 2 * s ∈ I := ⟨by linarith [hs.1], by norm_num at hhalf ⊢; linarith⟩
    have h := mul_mem hb hdouble
    rw [← mul_assoc] at h
    exact_mod_cast h
  · rename_i hhalf
    refine screenChannel_mem hb ⟨?_, ?_⟩
    · norm_num at hhalf ⊢
      linarith
    · norm_num
      linarith [hs.2]

/-- Dodging brightens at most to one, whatever the source. -/
theorem colorDodgeChannel_mem (hb : b ∈ I) : colorDodgeChannel b s ∈ I := by
  simp only [colorDodgeChannel, scalar_beq, scalar_le, scalar_div, scalar_sub, scalar_min,
    scalar_ofNat, Nat.cast_zero, Nat.cast_one]
  split
  · exact zero_mem
  · split
    · exact one_mem
    · rename_i hs
      exact min_one_mem (div_nonneg hb.1 (by linarith))

/-- Burning darkens at most to zero, whatever the source. -/
theorem colorBurnChannel_mem (hb : b ∈ I) : colorBurnChannel b s ∈ I := by
  simp only [colorBurnChannel, scalar_le, scalar_div, scalar_sub, scalar_min, scalar_ofNat,
    Nat.cast_zero, Nat.cast_one]
  split
  · exact one_mem
  · split
    · exact zero_mem
    · rename_i hs
      exact Icc.one_sub_mem (min_one_mem (div_nonneg (Icc.one_sub_mem hb).1 (by linarith)))

/-- The dark part of the curve that soft light moves the backdrop toward. -/
theorem softLightCurve_mem (hb : 0 ≤ b) (hquarter : b ≤ 1 / 4) :
    ((16 * b - 12) * b + 4) * b ∈ I := by
  constructor
  · have hfactor : 0 ≤ (16 * b - 12) * b + 4 := by nlinarith [sq_nonneg (4 * b - 1.5)]
    exact mul_nonneg hfactor hb
  · have hfactor : (16 * b - 12) * b + 4 ≤ 4 := by nlinarith
    nlinarith

/-- Soft light moves the backdrop no further than to its bounds. -/
theorem softLightChannel_mem (hb : b ∈ I) (hs : s ∈ I) : softLightChannel b s ∈ I := by
  simp only [softLightChannel, scalar_le, scalar_ofScientific, scalar_add, scalar_sub, scalar_mul,
    scalar_ofNat, scalar_sqrt]
  split
  · rename_i hhalf
    norm_num at hhalf
    have hfactor : (1 - 2 * s) * (1 - b) ∈ I :=
      mul_mem ⟨by linarith, by linarith [hs.1]⟩ (Icc.one_sub_mem hb)
    have h := mul_mem hb (Icc.one_sub_mem hfactor)
    have heq : b * (1 - (1 - 2 * s) * (1 - b)) = b - (1 - 2 * s) * b * (1 - b) := by ring
    rw [heq] at h
    exact_mod_cast h
  · rename_i hhalf
    norm_num at hhalf
    have hmove : ∀ d ∈ I, b + (2 * s - 1) * (d - b) ∈ I := fun d hd ↦ by
      have h := between_mem hb hd (t := 2 * s - 1) ⟨by linarith, by linarith [hs.2]⟩
      have heq : b * (1 - (2 * s - 1)) + d * (2 * s - 1) = b + (2 * s - 1) * (d - b) := by ring
      rwa [heq] at h
    split
    · rename_i hquarter
      norm_num at hquarter
      have h := hmove _ (softLightCurve_mem hb.1 (by linarith))
      exact_mod_cast h
    · have h := hmove _ ⟨Real.sqrt_nonneg b, Real.sqrt_le_one.2 hb.2⟩
      exact_mod_cast h

theorem difference_mem (hb : b ∈ I) (hs : s ∈ I) : |b - s| ∈ I :=
  ⟨abs_nonneg _, abs_le.2 ⟨by linarith [hb.1, hs.2], by linarith [hb.2, hs.1]⟩⟩

theorem exclusion_mem (hb : b ∈ I) (hs : s ∈ I) : b + s - 2 * b * s ∈ I := by
  have h := between_mem hb (Icc.one_sub_mem hb) hs
  have heq : b * (1 - s) + (1 - b) * s = b + s - 2 * b * s := by ring
  rwa [heq] at h

end

/-! ### Luminosity -/

section

variable {c : Vec4 ℝ}

theorem luminosityOf_eq (c : Vec4 ℝ) :
    luminosityOf c = 3 / 10 * c.x + 59 / 100 * c.y + 11 / 100 * c.z := by
  norm_num [luminosityOf]

theorem leastChannel_eq (c : Vec4 ℝ) : leastChannel c = min (min c.x c.y) c.z := by
  simp [leastChannel]

theorem greatestChannel_eq (c : Vec4 ℝ) : greatestChannel c = max (max c.x c.y) c.z := by
  simp [greatestChannel]

/-- The least channel is below all three. -/
theorem leastChannel_le (c : Vec4 ℝ) :
    leastChannel c ≤ c.x ∧ leastChannel c ≤ c.y ∧ leastChannel c ≤ c.z := by
  rw [leastChannel_eq]
  exact ⟨(min_le_left _ _).trans (min_le_left _ _), (min_le_left _ _).trans (min_le_right _ _),
    min_le_right _ _⟩

/-- The greatest channel is above all three. -/
theorem le_greatestChannel (c : Vec4 ℝ) :
    c.x ≤ greatestChannel c ∧ c.y ≤ greatestChannel c ∧ c.z ≤ greatestChannel c := by
  rw [greatestChannel_eq]
  exact ⟨(le_max_left _ _).trans (le_max_left _ _), (le_max_right _ _).trans (le_max_left _ _),
    le_max_right _ _⟩

/-- Luminosity is a mean of the channels. -/
theorem leastChannel_le_luminosityOf (c : Vec4 ℝ) : leastChannel c ≤ luminosityOf c := by
  obtain ⟨hx, hy, hz⟩ := leastChannel_le c
  rw [luminosityOf_eq]
  linarith

/-- A weighted mean is at most the greatest of the channels. -/
theorem luminosityOf_le_greatestChannel (c : Vec4 ℝ) : luminosityOf c ≤ greatestChannel c := by
  obtain ⟨hx, hy, hz⟩ := le_greatestChannel c
  rw [luminosityOf_eq]
  linarith

/-- The luminosity of a color in the cube. -/
theorem luminosityOf_mem (hc : InCube c) : luminosityOf c ∈ I := by
  rw [luminosityOf_eq]
  constructor
  · linarith [hc.x.1, hc.y.1, hc.z.1]
  · linarith [hc.x.2, hc.y.2, hc.z.2]

theorem pull_eq (l k : ℝ) (c : Vec4 ℝ) :
    clipColor.pull l k c = ⟨l + (c.x - l) * k, l + (c.y - l) * k, l + (c.z - l) * k,
      l + (c.w - l) * k⟩ := by
  simp [clipColor.pull, Vec4.map]

theorem pull_one (l : ℝ) (c : Vec4 ℝ) : clipColor.pull l 1 c = c := by
  simp [pull_eq]

/-- One pull after another. -/
theorem pull_pull (l k k' : ℝ) (c : Vec4 ℝ) :
    clipColor.pull l k' (clipColor.pull l k c) = clipColor.pull l (k * k') c := by
  simp [pull_eq, mul_assoc]

/-- A pull toward a gray that brings the least channel up to 0 and the greatest one down to 1. -/
theorem inCube_of_pull {l k : ℝ} (hk : 0 ≤ k) (hleast : (l - leastChannel c) * k ≤ l)
    (hgreatest : (greatestChannel c - l) * k ≤ 1 - l) : InCube (clipColor.pull l k c) := by
  have hchannel : ∀ a, leastChannel c ≤ a → a ≤ greatestChannel c → l + (a - l) * k ∈ I := by
    intro a hlo hhi
    constructor
    · have h := mul_le_mul_of_nonneg_right (sub_le_sub_left hlo l) hk
      linarith
    · have h := mul_le_mul_of_nonneg_right (sub_le_sub_right hhi l) hk
      linarith
  obtain ⟨hx, hy, hz⟩ := leastChannel_le c
  obtain ⟨hx', hy', hz'⟩ := le_greatestChannel c
  rw [pull_eq]
  exact ⟨hchannel _ hx hx', hchannel _ hy hy', hchannel _ hz hz'⟩

/-- How strong a pull brings a channel at a distance from the gray to a limit, if it lies beyond. -/
noncomputable def strength (limit distance : ℝ) : ℝ :=
  if limit < distance then limit / distance else 1

/-- The strength lies in the unit interval, so pulling never moves past the luminosity. -/
theorem strength_mem {limit : ℝ} (h : 0 ≤ limit) (distance : ℝ) : strength limit distance ∈ I := by
  rw [strength]
  split
  · rename_i hbeyond
    exact div_mem h (h.trans hbeyond.le) hbeyond.le
  · exact one_mem

/-- After pulling with this strength, a channel is no further from the luminosity than the limit. -/
theorem mul_strength_le {limit : ℝ} (h : 0 ≤ limit) (distance : ℝ) :
    distance * strength limit distance ≤ limit := by
  rw [strength]
  split
  · rename_i hbeyond
    exact (mul_div_cancel₀ limit (h.trans_lt hbeyond).ne').le
  · rename_i hwithin
    rwa [mul_one, ← not_lt]

/-- The two pulls of a color whose luminosity lies between 0 and 1 are one. -/
theorem clipColor_eq (hl : luminosityOf c ∈ I) :
    clipColor c = clipColor.pull (luminosityOf c)
      (strength (luminosityOf c) (luminosityOf c - leastChannel c) *
        strength (1 - luminosityOf c) (greatestChannel c - luminosityOf c)) c := by
  rw [← pull_pull]
  simp only [clipColor, strength, scalar_lt, scalar_sub, scalar_div, scalar_ofNat, Nat.cast_zero,
    Nat.cast_one, Bool.and_eq_true, decide_eq_true_eq]
  generalize luminosityOf c = l at hl
  have hraised : (leastChannel c < 0 ∧ 0 < l - leastChannel c) ↔ l < l - leastChannel c :=
    ⟨fun h ↦ by linarith [h.1], fun h ↦ ⟨by linarith, by linarith [hl.1]⟩⟩
  have hlowered : (1 < greatestChannel c ∧ 0 < greatestChannel c - l) ↔
      1 - l < greatestChannel c - l :=
    ⟨fun h ↦ by linarith [h.1], fun h ↦ ⟨by linarith, by linarith [hl.2]⟩⟩
  simp only [hraised, hlowered]
  split_ifs <;> simp only [pull_one]

/-- Clipping brings every color of a luminosity in the unit interval into the cube. -/
theorem inCube_clipColor (hl : luminosityOf c ∈ I) : InCube (clipColor c) := by
  have hleast := leastChannel_le_luminosityOf c
  have hgreatest := luminosityOf_le_greatestChannel c
  rw [clipColor_eq hl]
  generalize luminosityOf c = l at hl hleast hgreatest ⊢
  have hraise := mul_strength_le hl.1 (l - leastChannel c)
  have hlower := mul_strength_le (Icc.one_sub_mem hl).1 (greatestChannel c - l)
  have hk := strength_mem hl.1 (l - leastChannel c)
  have hk' := strength_mem (Icc.one_sub_mem hl).1 (greatestChannel c - l)
  -- Each pull is strong enough for its own end, and the other one makes it no weaker.
  refine inCube_of_pull (mul_mem hk hk').1 ?_ ?_
  · rw [← mul_assoc]
    exact (mul_le_of_le_one_right (mul_nonneg (sub_nonneg.2 hleast) hk.1) hk'.2).trans hraise
  · rw [mul_left_comm]
    have hnonneg := mul_nonneg (sub_nonneg.2 hgreatest) hk'.1
    exact (mul_le_of_le_one_left hnonneg hk.2).trans hlower

/-- Whatever the color was, it is in the cube with a luminosity between 0 and 1. -/
theorem inCube_setLuminosity (c : Vec4 ℝ) {l : ℝ} (hl : l ∈ I) : InCube (setLuminosity c l) := by
  refine inCube_clipColor ?_
  have h : luminosityOf (⟨c.x + (l - luminosityOf c), c.y + (l - luminosityOf c),
      c.z + (l - luminosityOf c), 0⟩ : Vec4 ℝ) = l := by
    rw [luminosityOf_eq, luminosityOf_eq c]
    ring
  exact mem_of_eq_of_mem h hl

end

end Blend

/-! ### Straight colors -/

section

variable {b s : Vec4 ℝ}

/-- A mode that treats channels one by one keeps the cube, if it keeps the interval. -/
theorem InCube.separate (hb : InCube b) (hs : InCube s) {f : ℝ → ℝ → ℝ}
    (hf : ∀ x ∈ I, ∀ y ∈ I, f x y ∈ I) : InCube (Blend.mix.separate b s f) :=
  ⟨hf _ hb.x _ hs.x, hf _ hb.y _ hs.y, hf _ hb.z _ hs.z⟩

theorem InCube.between {t : ℝ} (hb : InCube b) (hs : InCube s) (ht : t ∈ I) :
    InCube (b * (1 - t) + s * t) :=
  ⟨between_mem hb.x hs.x ht, between_mem hb.y hs.y ht, between_mem hb.z hs.z ht⟩

/-- Every blend mode mixes straight colors in the cube to one in the cube. -/
theorem InCube.mix (hb : InCube b) (hs : InCube s) (mode : Blend) : InCube (mode.mix b s) := by
  have hlum := Blend.luminosityOf_mem hb
  cases mode with
  | normal => exact hs
  | multiply => exact hb.separate hs fun x hx y hy ↦ mul_mem hx hy
  | screen => exact hb.separate hs fun x hx y hy ↦ Blend.screenChannel_mem hx hy
  | overlay => exact hb.separate hs fun x hx y hy ↦ Blend.hardLightChannel_mem hy hx
  | darken =>
    refine hb.separate hs fun x hx y hy ↦ ?_
    rw [scalar_min]
    exact min_rec' (· ∈ I) hx hy
  | lighten =>
    refine hb.separate hs fun x hx y hy ↦ ?_
    rw [scalar_max]
    exact max_rec' (· ∈ I) hx hy
  | colorDodge => exact hb.separate hs fun x hx y _ ↦ Blend.colorDodgeChannel_mem hx
  | colorBurn => exact hb.separate hs fun x hx y _ ↦ Blend.colorBurnChannel_mem hx
  | hardLight => exact hb.separate hs fun x hx y hy ↦ Blend.hardLightChannel_mem hx hy
  | softLight => exact hb.separate hs fun x hx y hy ↦ Blend.softLightChannel_mem hx hy
  | difference => exact hb.separate hs fun x hx y hy ↦ Blend.difference_mem hx hy
  | exclusion =>
    rw [Blend.mix]
    refine hb.separate hs fun x hx y hy ↦ ?_
    have h := Blend.exclusion_mem hx hy
    simp only [scalar_add, scalar_sub, scalar_mul, scalar_ofNat]
    exact_mod_cast h
  | hue | saturation | color => exact Blend.inCube_setLuminosity _ hlum
  | luminosity => exact Blend.inCube_setLuminosity _ (Blend.luminosityOf_mem hs)

end

/-! ### Premultiplied colors -/

namespace InGamut

variable {a b : Vec4 ℝ} {s t : ℝ}

theorem w_mem (ha : InGamut a) : a.w ∈ I :=
  ⟨ha.x_nonneg.trans ha.x_le, ha.w_le⟩

theorem zero : InGamut (.zero : Vec4 ℝ) := by
  rw [Vec4.zero_eq]
  exact ⟨le_rfl, le_rfl, le_rfl, le_rfl, le_rfl, le_rfl, zero_le_one⟩

/-- A straight color in the cube, multiplied by an alpha. -/
theorem of_inCube {c : Vec4 ℝ} (hc : InCube c) (ht : t ∈ I) :
    InGamut ⟨c.x * t, c.y * t, c.z * t, t⟩ where
  x_nonneg := mul_nonneg hc.x.1 ht.1
  y_nonneg := mul_nonneg hc.y.1 ht.1
  z_nonneg := mul_nonneg hc.z.1 ht.1
  x_le := mul_le_of_le_one_left ht.1 hc.x.2
  y_le := mul_le_of_le_one_left ht.1 hc.y.2
  z_le := mul_le_of_le_one_left ht.1 hc.z.2
  w_le := ht.2

/-- Channels that are at most alpha are at most one. -/
theorem inCube (ha : InGamut a) : InCube a where
  x := ⟨ha.x_nonneg, ha.x_le.trans ha.w_le⟩
  y := ⟨ha.y_nonneg, ha.y_le.trans ha.w_le⟩
  z := ⟨ha.z_nonneg, ha.z_le.trans ha.w_le⟩

/-- A sum with weights is in gamut if its alpha is. -/
theorem weighted (ha : InGamut a) (hb : InGamut b) (hs : 0 ≤ s) (ht : 0 ≤ t)
    (hw : a.w * s + b.w * t ≤ 1) : InGamut (a * s + b * t) where
  x_nonneg := add_nonneg (mul_nonneg ha.x_nonneg hs) (mul_nonneg hb.x_nonneg ht)
  y_nonneg := add_nonneg (mul_nonneg ha.y_nonneg hs) (mul_nonneg hb.y_nonneg ht)
  z_nonneg := add_nonneg (mul_nonneg ha.z_nonneg hs) (mul_nonneg hb.z_nonneg ht)
  x_le := add_le_add (mul_le_mul_of_nonneg_right ha.x_le hs) (mul_le_mul_of_nonneg_right hb.x_le ht)
  y_le := add_le_add (mul_le_mul_of_nonneg_right ha.y_le hs) (mul_le_mul_of_nonneg_right hb.y_le ht)
  z_le := add_le_add (mul_le_mul_of_nonneg_right ha.z_le hs) (mul_le_mul_of_nonneg_right hb.z_le ht)
  w_le := hw

/-- Fading a color keeps it in the gamut. -/
theorem scale (ha : InGamut a) (ht : t ∈ I) : InGamut (a * t) := by
  have h := ha.weighted zero ht.1 le_rfl (s := t) (t := 0) ?_
  · simpa using h
  · simpa using (mul_mem ha.w_mem ht).2

/-- A color between two in gamut. -/
theorem lerp (ha : InGamut a) (hb : InGamut b) (ht : t ∈ I) : InGamut (a.lerp b t) := by
  have h := ha.weighted hb (Icc.one_sub_mem ht).1 ht.1 (between_mem ha.w_mem hb.w_mem ht).2
  simpa using h

/-- Premultiplying a premultiplied color darkens it, within the gamut. -/
theorem premultiply (ha : InGamut a) : InGamut (premultiply a) :=
  of_inCube ha.inCube ha.w_mem

/-- Channels of at most alpha, divided by alpha, are at most one. -/
theorem inCube_unpremultiply (ha : InGamut a) : InCube (unpremultiply a) := by
  rw [unpremultiply]
  split
  · rw [Vec4.zero_eq]
    exact ⟨zero_mem, zero_mem, zero_mem⟩
  · simp only [scalar_div, scalar_ofNat, Nat.cast_one, mul_one_div]
    exact ⟨div_mem ha.x_nonneg ha.w_mem.1 ha.x_le, div_mem ha.y_nonneg ha.w_mem.1 ha.y_le,
      div_mem ha.z_nonneg ha.w_mem.1 ha.z_le⟩

/-- Brought to length one, a color keeps its proportions, and its alpha is at most its length. -/
theorem normalized (ha : InGamut a) : InGamut a.normalized := by
  have hlength : a.w ≤ a.magnitude := by
    refine Real.le_sqrt_of_sq_le ?_
    simp only [Vec4.dot, scalar_add, scalar_mul]
    nlinarith [mul_self_nonneg a.x, mul_self_nonneg a.y, mul_self_nonneg a.z]
  simp only [Vec4.normalized, scalar_lt, scalar_ofNat, Nat.cast_zero]
  split
  · rename_i hpos
    rw [Vec4.scale_eq]
    simp only [scalar_div, Nat.cast_one, mul_one_div]
    have hx := div_le_div_of_nonneg_right ha.x_le hpos.le
    have hy := div_le_div_of_nonneg_right ha.y_le hpos.le
    have hz := div_le_div_of_nonneg_right ha.z_le hpos.le
    exact ⟨div_nonneg ha.x_nonneg hpos.le, div_nonneg ha.y_nonneg hpos.le,
      div_nonneg ha.z_nonneg hpos.le, hx, hy, hz, (div_le_one hpos).2 hlength⟩
  · exact zero

/-- One layer over another. -/
theorem stackBlend (ha : InGamut a) (hb : InGamut b) : InGamut (stackBlend a b) := by
  have hcovered := Icc.one_sub_mem ha.w_mem
  have hw : a.w * 1 + b.w * (1 - a.w) ≤ 1 := by
    linarith [mul_le_of_le_one_left hcovered.1 hb.w_le]
  have h := ha.weighted hb zero_le_one hcovered.1 hw
  rw [stackBlend_eq]
  simpa using h

/-- A blended source is premultiplied by its own alpha again, so it is in the gamut. -/
theorem blendSource (ha : InGamut a) (hb : InGamut b) (mode : Blend) :
    InGamut (blendSource a b mode) := by
  have hstraight := ha.inCube_unpremultiply
  have hmix := hb.inCube_unpremultiply.mix hstraight mode
  have h := of_inCube (hstraight.between hmix hb.w_mem) ha.w_mem
  cases mode with
  | normal => exact ha
  | _ => simpa [Shading.blendSource] using h

end InGamut

/-! ### Compositions -/

namespace Compose

/-- The part of the source that remains, by the alpha of the backdrop. -/
noncomputable def sourcePart (backdrop : ℝ) : Compose → ℝ
  | .over | .plus | .plusLighter => 1
  | .inside | .atop => backdrop
  | .outside | .xor => 1 - backdrop

/-- The part of the backdrop that remains, by the alpha of the source. -/
noncomputable def backdropPart (source : ℝ) : Compose → ℝ
  | .plus | .plusLighter => 1
  | .over | .atop | .xor => 1 - source
  | .inside | .outside => 0

variable (compose : Compose) {source backdrop : ℝ}

/-- Each operator takes a share of the source that depends on the alpha of the backdrop. -/
theorem sourcePart_mem (h : backdrop ∈ I) : compose.sourcePart backdrop ∈ I := by
  cases compose with
  | inside | atop => exact h
  | outside | xor => exact Icc.one_sub_mem h
  | _ => exact one_mem

/-- The share of the backdrop depends on the alpha of the source in the same way. -/
theorem backdropPart_mem (h : source ∈ I) : compose.backdropPart source ∈ I := by
  cases compose with
  | plus | plusLighter => exact one_mem
  | inside | outside => exact zero_mem
  | _ => exact Icc.one_sub_mem h

/-- Unless source and backdrop are added, their parts have an alpha of at most one together. -/
theorem parts_le (hsource : source ∈ I) (hbackdrop : backdrop ∈ I) (h : compose ≠ .plus)
    (h' : compose ≠ .plusLighter) :
    source * compose.sourcePart backdrop + backdrop * compose.backdropPart source ≤ 1 := by
  have hmul := mul_mem hsource hbackdrop
  have hneither := mul_mem (Icc.one_sub_mem hsource) (Icc.one_sub_mem hbackdrop)
  cases compose with
  | plus => exact absurd rfl h
  | plusLighter => exact absurd rfl h'
  | _ =>
    simp only [sourcePart, backdropPart]
    linarith [hsource.2, hbackdrop.2, hmul.1, hmul.2, hneither.1]

end Compose

/-- A Porter-Duff operator adds a part of the source, mixed into the backdrop, and a part of the
backdrop. -/
theorem blendCompose_eq (a b : Vec4 ℝ) {compose : Compose} (h : compose ≠ .plusLighter)
    (mode : Blend) : blendCompose a b compose mode =
      blendSource a b mode * compose.sourcePart b.w + b * compose.backdropPart a.w := by
  cases compose with
  | plusLighter => exact absurd rfl h
  | _ => simp [blendCompose, Compose.sourcePart, Compose.backdropPart]

/-- A sum of colors in gamut, cut at one. -/
theorem InGamut.minEach {a b : Vec4 ℝ} (ha : InGamut a) (hb : InGamut b) :
    InGamut ((a + b).minEach 1) := by
  rw [Vec4.add_eq, Vec4.minEach, Vec4.map]
  simp only [scalar_min]
  exact {
    x_nonneg := le_min (add_nonneg ha.x_nonneg hb.x_nonneg) zero_le_one
    y_nonneg := le_min (add_nonneg ha.y_nonneg hb.y_nonneg) zero_le_one
    z_nonneg := le_min (add_nonneg ha.z_nonneg hb.z_nonneg) zero_le_one
    x_le := min_le_min_right 1 (add_le_add ha.x_le hb.x_le)
    y_le := min_le_min_right 1 (add_le_add ha.y_le hb.y_le)
    z_le := min_le_min_right 1 (add_le_add ha.z_le hb.z_le)
    w_le := min_le_right _ 1 }

/-- Every composition but the unlimited sum stays in gamut. -/
theorem InGamut.blendCompose {a b : Vec4 ℝ} (ha : InGamut a) (hb : InGamut b) {compose : Compose}
    (limited : compose ≠ .plus) (mode : Blend) :
    InGamut (blendCompose a b compose mode) := by
  have hsource := ha.blendSource hb mode
  by_cases hsum : compose = .plusLighter
  · subst hsum
    simpa [Shading.blendCompose] using hsource.minEach hb
  · rw [blendCompose_eq a b hsum]
    refine hsource.weighted hb (compose.sourcePart_mem hb.w_mem).1
      (compose.backdropPart_mem ha.w_mem).1 ?_
    rw [blendSource_w]
    exact compose.parts_le ha.w_mem hb.w_mem limited hsum

end Shading
