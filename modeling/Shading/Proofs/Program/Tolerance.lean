import Shading.Proofs.Exact.Stops
import Shading.Proofs.Program.Coverage
import Shading.Proofs.Program.Nearness
import Shading.Proofs.Program.Parts

/-!
# What flags say of rendering

Rendering takes an alpha for opaque that misses one by no more than a tolerance: there a stack
leaves out the layers below. What flags say of a color then holds up to this tolerance. A
transparent program still has the transparent color, and an opaque one has an alpha near one
(`Program.Truthful`).

Most nodes keep the tolerance (`Kind.coverage_within`). The others are known by their kinds, their
flags and the colors of their children. A sum that is cut off may have a negative operand, and a
radial gradient may have no ratio at its sample (`Kind.Ordinary`). A node may also take the alpha of
a child that is flagged as opaque as a factor, or have weights or alphas out of the ordinary
(`Kind.Amplifies`). Then the tolerance may grow, but only if that alpha is not exactly one.

Flags come from the leaves to the root. Wherever the flags of a program are wrong there is therefore
a part of it which is the first to go wrong, one of these nodes (`Program.truthful_or_exists`).
-/

namespace Shading

section

variable {colors : List (Vec4 ℝ)}

/-- The coverage is true of a color, up to the tolerance of rendering for its alpha. -/
structure Coverage.Within (coverage : Coverage) (c : Vec4 ℝ) : Prop where
  eq_zero : coverage.transparent = true → c = .zero
  near : coverage.covers = true → |c.w - 1| ≤ 1e-8

/-- What is true exactly is true up to the tolerance. -/
theorem Coverage.Describes.within {coverage : Coverage} {c : Vec4 ℝ} (h : coverage.Describes c) :
    coverage.Within c := by
  refine ⟨h.eq_zero, fun hc ↦ ?_⟩
  rw [h.w_eq_one hc, sub_self, abs_zero]
  norm_num

/-- The coverages of children are true of their colors, one by one, up to the tolerance. -/
abbrev WithinEach : List Flags → List (Vec4 ℝ) → Prop :=
  List.Forall₂ fun f c ↦ f.coverage.Within c

/-- The alphas of opaque children are exactly one. -/
abbrev ExactEach : List Flags → List (Vec4 ℝ) → Prop :=
  List.Forall₂ fun f c ↦ f.covers = true → c.w = 1

/-- Only an alpha can make use of the tolerance. -/
theorem WithinEach.describeEach {fs : List Flags} (each : WithinEach fs colors)
    (exact : ExactEach fs colors) : DescribeEach fs colors := by
  induction each with
  | nil => exact .nil
  | cons hf _ ih =>
    obtain - | ⟨hone, hrest⟩ := exact
    exact .cons ⟨hf.eq_zero, hone⟩ (ih hrest)

/-- The alpha of a composition. -/
noncomputable def Compose.alpha (source backdrop : ℝ) : Compose → ℝ
  | .over => source + backdrop * (1 - source)
  | .inside => source * backdrop
  | .outside => source * (1 - backdrop)
  | .atop => backdrop
  | .xor => source * (1 - backdrop) + backdrop * (1 - source)
  | .plus => source + backdrop
  | .plusLighter => min (source + backdrop) 1

/-- No blend mode changes the alpha of a composition. -/
theorem blendCompose_w (source backdrop : Vec4 ℝ) (compose : Compose) (blend : Blend) :
    (blendCompose source backdrop compose blend).w = compose.alpha source.w backdrop.w := by
  have hw := blendSource_w source backdrop blend
  cases compose with
  | atop =>
    simp only [blendCompose, Vec4.add_eq, Vec4.scale_eq, hw, scalar_sub, scalar_ofNat,
      Compose.alpha]
    ring
  | plusLighter =>
    simp [blendCompose, Compose.alpha, hw, Vec4.minEach, Vec4.map]
  | _ => simp [blendCompose, Compose.alpha, hw]

namespace Compose

/-- The alphas of source and backdrop may be farther from one than each of them alone, or a color
may remain that should be none. Inside a backdrop, two alphas near one are multiplied. Outside of
it, a color is multiplied with what an alpha near one leaves of it. Over a backdrop, the distance
from one is multiplied with that of the other alpha, and grows if this is not between 0 and 2. -/
def Amplifies (a b : Flags) (source backdrop : Vec4 ℝ) : Compose → Prop
  | .over => (a.covers = true ∨ b.covers = true) ∧ (1 < |source.w - 1| ∨ 1 < |backdrop.w - 1|)
  | .inside | .xor => a.covers = true ∧ b.covers = true
  | .outside => a.transparent = false ∧ b.covers = true
  | .atop | .plus | .plusLighter => False

variable {a b : Flags} {source backdrop : Vec4 ℝ} {compose : Compose}

/-- What is transparent because a layer is transparent does not depend on the tolerance. -/
theorem eq_zero_of_coverage (ha : a.coverage.Within source) (hb : b.coverage.Within backdrop)
    (blend : Blend) (tame : ¬ compose.Amplifies a b source backdrop)
    (h : (compose.coverage a b).transparent = true) :
    blendCompose source backdrop compose blend = .zero := by
  rcases eq_or_ne compose .plusLighter with rfl | hne
  · obtain ⟨hta, htb⟩ := Bool.and_eq_true_iff.1 h
    have hsource : source = .zero := ha.eq_zero hta
    have hbackdrop : backdrop = .zero := hb.eq_zero htb
    rw [blendCompose, hsource, hbackdrop, blendSource_zero]
    simp [Vec4.minEach, Vec4.map]
  -- Nothing is said of opaque layers here, so what is said holds without any tolerance.
  · have hsource : ({ a with covers := false } : Flags).coverage.Describes source :=
      ⟨ha.eq_zero, fun hc ↦ absurd hc Bool.false_ne_true⟩
    have hbackdrop : ({ b with covers := false } : Flags).coverage.Describes backdrop :=
      ⟨hb.eq_zero, fun hc ↦ absurd hc Bool.false_ne_true⟩
    refine (coverage_describes hsource hbackdrop hne blend).eq_zero ?_
    cases compose
    case outside =>
      have hta : a.transparent = true := by
        rcases Bool.or_eq_true_iff.1 h with hta | hcb
        · exact hta
        · exact by_contra fun hne ↦ tame ⟨Bool.eq_false_iff.2 hne, hcb⟩
      simp [Compose.coverage, hta]
    case xor =>
      have hta : a.transparent = true ∧ b.transparent = true := by
        rcases Bool.or_eq_true_iff.1 h with h | h
        · exact Bool.and_eq_true_iff.1 h
        · exact absurd (Bool.and_eq_true_iff.1 h) tame
      simp [Compose.coverage, hta]
    case plusLighter => exact absurd rfl hne
    all_goals exact h

/-- A sum that is cut off is near one, if one of the alphas is and the other one is not negative. -/
theorem near_min {s b : ℝ} (hs : |s - 1| ≤ 1e-8) (hb : 0 ≤ b) :
    |min (s + b) 1 - 1| ≤ 1e-8 := by
  obtain ⟨hlo, -⟩ := abs_le.1 hs
  rw [abs_sub_comm, abs_of_nonneg (sub_nonneg.2 (min_le_right _ _)), sub_le_comm]
  exact le_min (by linarith) (by linarith [abs_nonneg (s - 1)])

/-- What is opaque because of one layer is as near to one as this layer. -/
theorem near_of_coverage (ha : a.coverage.Within source) (hb : b.coverage.Within backdrop)
    (blend : Blend) (tame : ¬ compose.Amplifies a b source backdrop)
    (alphas : compose = .plusLighter → 0 ≤ source.w ∧ 0 ≤ backdrop.w)
    (h : (compose.coverage a b).covers = true) :
    |(blendCompose source backdrop compose blend).w - 1| ≤ 1e-8 := by
  have hsource := ha.near
  have hbackdrop := hb.near
  have hzero : ∀ {v : Vec4 ℝ}, v = .zero → v.w = 0 := fun h ↦ by simp [h]
  rw [blendCompose_w]
  match compose with
  | .over =>
    have hcovers := Bool.or_eq_true_iff.1 h
    have hordinary : |source.w - 1| ≤ 1 ∧ |backdrop.w - 1| ≤ 1 := by
      simpa [Amplifies, hcovers] using tame
    rcases hcovers with hca | hcb
    · exact near_over (hsource hca) hordinary.2
    · rw [alpha, over_comm]
      exact near_over (hbackdrop hcb) hordinary.1
  | .inside => exact absurd (Bool.and_eq_true_iff.1 h) tame
  | .outside =>
    obtain ⟨hca, htb⟩ := Bool.and_eq_true_iff.1 h
    rw [alpha, hzero (hb.eq_zero htb), sub_zero, mul_one]
    exact hsource hca
  | .atop => exact hbackdrop h
  | .xor =>
    rcases Bool.or_eq_true_iff.1 h with h | h
    · obtain ⟨hca, htb⟩ := Bool.and_eq_true_iff.1 h
      rw [alpha, hzero (hb.eq_zero htb), sub_zero, mul_one, zero_mul, add_zero]
      exact hsource hca
    · obtain ⟨hta, hcb⟩ := Bool.and_eq_true_iff.1 h
      rw [alpha, hzero (ha.eq_zero hta), sub_zero, mul_one, zero_mul, zero_add]
      exact hbackdrop hcb
  | .plus =>
    rcases Bool.or_eq_true_iff.1 h with h | h
    · obtain ⟨hca, htb⟩ := Bool.and_eq_true_iff.1 h
      rw [alpha, hzero (hb.eq_zero htb), add_zero]
      exact hsource hca
    · obtain ⟨hta, hcb⟩ := Bool.and_eq_true_iff.1 h
      rw [alpha, hzero (ha.eq_zero hta), zero_add]
      exact hbackdrop hcb
  | .plusLighter =>
    obtain ⟨hs, hb⟩ := alphas rfl
    rcases Bool.or_eq_true_iff.1 h with hca | hcb
    · exact near_min (hsource hca) hb
    · rw [alpha, add_comm]
      exact near_min (hbackdrop hcb) hs

end Compose

namespace Kind

/-- The result may be farther from what its coverage says than the colors of the children are from
what theirs say: for a composition as its operator says, for a triangle at a sample where a weight
is negative, and for a stack if the layers above each opaque one have an alpha together that is not
between 0 and 2. -/
def Amplifies (sample : Accuracy → Point ℝ) (fs : List Flags) (colors : List (Vec4 ℝ)) :
    Kind ℝ → Prop
  | .blendCompose compose _ => ∃ a b source backdrop, fs = [a, b] ∧ colors = [source, backdrop] ∧
    compose.Amplifies a b source backdrop
  | .barycentricBlend corners depths accuracy => fs.all (·.covers) = true ∧
    ∃ w ∈ ((Triangle.ofCorners corners depths).weights (sample accuracy)).toList, w < 0
  | .stack => fs.any (·.covers) = true ∧ ∀ i, ∀ h : i < fs.length, fs[i].covers = true →
    1 < |(layered (colors.drop (i + 1))).w - 1|
  | _ => False

/-- What the coverage takes for granted of an opaque node: no operand of a sum that is cut off has a
negative alpha, and a radial gradient has a ratio at its sample. -/
def Ordinary (sample : Accuracy → Point ℝ) (coverage : Coverage) (colors : List (Vec4 ℝ)) :
    Kind ℝ → Prop
  | .blendCompose .plusLighter _ => coverage.covers = true → ∀ c ∈ colors, 0 ≤ c.w
  | .radialGradient transform start startRadius stop stopRadius _ _ accuracy =>
    coverage.covers = true → ∃ t,
      (circlePair transform start startRadius stop stopRadius).ratio? (sample accuracy) = some t
  | _ => True

variable {fs : List Flags} {sample : Accuracy → Point ℝ} {kind : Kind ℝ} {v : Vec4 ℝ}

/-- What is picked or mixed from colors in bounds is covered as all of them are. -/
theorem within_of_picked {fits : ℝ → Prop} (picked : Picked fits colors v)
    (hfits : ∀ t, fits t → 0 ≤ t ∧ t ≤ 1) (each : WithinEach fs colors) :
    Coverage.Within ⟨fs.all (·.transparent), fs.all (·.covers)⟩ v where
  eq_zero all := picked.mixture.eq_of_forall (forall_of_all each (fun _ _ hf ↦ hf.eq_zero) all)
  near all := (picked.imp hfits).near (forall_of_all each (fun _ _ hf ↦ hf.near) all)

/-- A pointwise kind evaluates to what it computes. -/
theorem eq_of_pointwise {w : Vec4 ℝ} (h : kind.evaluate sample (answersOf colors) = .ok v)
    (pointwise : kind.pointwise? colors = some w) : v = w :=
  Except.ok.inj (h.symm.trans (evaluate_of_pointwise sample pointwise))

/-- A blend is covered as both of its operands are. -/
theorem within_blend (kind : Kind ℝ) {t : ℝ} (length : colors.length = 2)
    (h : blendBetween t (answerAt kind (answersOf colors) 0)
      (answerAt kind (answersOf colors) 1) = .ok v) (each : WithinEach fs colors) :
    Coverage.Within ⟨fs.all (·.transparent), fs.all (·.covers)⟩ v := by
  obtain ⟨w, hw, hpicked⟩ := exists_picked_of_blend kind t length
  obtain rfl := Except.ok.inj (hw.symm.trans h)
  refine within_of_picked hpicked (fun t ht ↦ ?_) each
  simp only [scalar_le, scalar_ofNat, Nat.cast_zero, Nat.cast_one, not_le] at ht
  exact ⟨ht.1.le, ht.2.le⟩

/-- A gradient is covered as all of its stops are. -/
theorem within_gradient (kind : Kind ℝ) {ratios : List ℝ} {t : ℝ}
    (length : colors.length = ratios.length) (pos : 1 ≤ colors.length)
    (h : gradientAt kind (answersOf colors) ratios t = .ok v)
    (each : WithinEach fs colors) :
    Coverage.Within ⟨fs.all (·.transparent), fs.all (·.covers)⟩ v := by
  obtain ⟨w, hw, hpicked⟩ := exists_picked_of_gradient kind t length
    (List.ne_nil_of_length_pos (by omega))
  obtain rfl := Except.ok.inj (hw.symm.trans h)
  exact within_of_picked hpicked (fun _ ⟨_, ht⟩ ↦ Selection.select_ratio ht) each

/-- A triangle is covered as its corners are, if no weight enlarges their tolerance. -/
theorem within_barycentricBlend {corners : Triple (Point ℝ)} {depths : Option (Triple ℝ)}
    {accuracy : Accuracy} (hkind : kind = .barycentricBlend corners depths accuracy)
    (accepts : colors.length = 3)
    (h : kind.evaluate sample (answersOf colors) = .ok v) (each : WithinEach fs colors)
    (exact : kind.Amplifies sample fs colors → DescribeEach fs colors) :
    (kind.coverage fs).Within v := by
  subst hkind
  obtain ⟨a, b, c, rfl⟩ := List.length_eq_three.1 accepts
  have hv : a * _ + b * _ + c * _ = v := Except.ok.inj h
  have hsum := (Triangle.ofCorners corners depths).weights_sum (sample accuracy)
  have hmix : Mixture [a, b, c] v := hv ▸ .three (by simp) (by simp) (by simp) hsum
  refine ⟨fun ht ↦ hmix.eq_of_forall (forall_of_all each (fun _ _ hf ↦ hf.eq_zero) ht),
    fun hc ↦ ?_⟩
  by_cases hneg :
    ∃ w ∈ ((Triangle.ofCorners corners depths).weights (sample accuracy)).toList, w < 0
  · have hone := hmix.w_eq_one (w_eq_one_of_all (exact ⟨hc, hneg⟩) hc)
    norm_num [hone]
  · have hnear := forall_of_all each (fun _ _ hf ↦ hf.near) hc
    simp only [Triple.toList, List.mem_cons, List.not_mem_nil, or_false, not_exists, not_and,
      forall_eq_or_imp, forall_eq, not_lt] at hneg hnear
    obtain ⟨hr, hs, ht⟩ := hneg
    rw [← hv]
    exact near_weighted hnear.1 hnear.2.1 hnear.2.2 hr hs ht hsum

/-- Each opaque layer is near one, and so is the stack from there on if the layers above are
ordinary. -/
theorem within_stack (hkind : kind = .stack)
    (h : kind.evaluate sample (answersOf colors) = .ok v) (each : WithinEach fs colors)
    (exact : kind.Amplifies sample fs colors → DescribeEach fs colors) :
    (kind.coverage fs).Within v := by
  subst hkind
  obtain ⟨shown, hshows, hshown⟩ := exists_shows sample colors
  obtain rfl := Except.ok.inj (hshown.symm.trans h)
  refine ⟨fun ht ↦ ?_, fun hc ↦ ?_⟩
  · obtain ⟨-, hidden, rfl, -⟩ := hshows
    have hall := forall_of_all each (fun _ _ hf ↦ hf.eq_zero) ht
    exact layered_eq_zero fun c hc ↦ hall c (List.mem_append_right _ hc)
  · by_cases hamplifies : (stack : Kind ℝ).Amplifies sample fs colors
    · obtain ⟨c, hmem, hw⟩ := exists_of_any (exact hamplifies) (fun _ _ hf ↦ hf.w_eq_one) hc
      refine hshows.near (List.nil_append _).symm ?_
      norm_num [layered_w hmem hw]
    · obtain ⟨i, hi, hcovers, hordinary⟩ : ∃ i, ∃ h : i < fs.length, fs[i].covers = true ∧
          |(layered (colors.drop (i + 1))).w - 1| ≤ 1 := by
        simpa [Amplifies, show fs.any (·.covers) = true from hc] using hamplifies
      have hlt : i < colors.length := each.length_eq ▸ hi
      refine hshows.near (List.take_append_drop i colors).symm ?_
      rw [List.drop_eq_getElem_cons hlt, layered_cons, stackBlend_eq, over_comm]
      exact near_over ((each.get hi hlt).near hcovers) hordinary

/-- A composition is covered as its operator says, if it does not enlarge the tolerance. -/
theorem within_blendCompose {compose : Compose} {blend : Blend}
    (hkind : kind = .blendCompose compose blend) (accepts : colors.length = 2)
    (h : kind.evaluate sample (answersOf colors) = .ok v)
    (each : WithinEach fs colors)
    (exact : kind.Amplifies sample fs colors → DescribeEach fs colors)
    (ordinary : kind.Ordinary sample (kind.coverage fs) colors) :
    (kind.coverage fs).Within v := by
  subst hkind
  obtain ⟨f, g, a, b, rfl, rfl, hf, hg⟩ := exists_of_length_two each accepts
  obtain rfl := eq_of_pointwise h rfl
  by_cases hamplifies : compose.Amplifies f g a b
  · have hne : compose ≠ .plusLighter := by
      rintro rfl
      exact hamplifies
    obtain - | ⟨hf, - | ⟨hg, -⟩⟩ := exact ⟨f, g, a, b, rfl, rfl, hamplifies⟩
    exact (Compose.coverage_describes hf hg hne blend).within
  · refine ⟨Compose.eq_zero_of_coverage hf hg blend hamplifies, fun hc ↦ ?_⟩
    refine Compose.near_of_coverage hf hg blend hamplifies (fun hlighter ↦ ?_) hc
    subst hlighter
    simpa using ordinary hc

/-- A radial gradient is covered as all of its stops are, if it has a ratio at the sample. -/
theorem within_radialGradient {transform : Affine ℝ} {start stop : Point ℝ}
    {startRadius stopRadius : ℝ} {ratios : List ℝ} {extend : Extend} {accuracy : Accuracy}
    (hkind : kind =
      .radialGradient transform start startRadius stop stopRadius ratios extend accuracy)
    (length : colors.length = ratios.length) (pos : 1 ≤ colors.length)
    (h : kind.evaluate sample (answersOf colors) = .ok v) (each : WithinEach fs colors)
    (ordinary : kind.Ordinary sample (kind.coverage fs) colors) :
    (kind.coverage fs).Within v := by
  subst hkind
  rw [evaluate] at h
  rcases hratio : (circlePair transform start startRadius stop stopRadius).ratio?
    (sample accuracy) with - | t
  · rw [hratio] at h
    obtain rfl := Except.ok.inj h
    refine ⟨fun _ ↦ rfl, fun hc ↦ ?_⟩
    obtain ⟨t, ht⟩ := ordinary hc
    rw [hratio] at ht
    cases ht
  · rw [hratio] at h
    obtain ⟨hzero, hnear⟩ := within_gradient _ length pos h each
    exact ⟨hzero, fun hc ↦ hnear (Bool.and_eq_true_iff.1 hc).1⟩

/-- Lighting keeps the alpha of its surface. -/
theorem within_phong {shininess : ℝ} (hkind : kind = .phong shininess) (accepts : 5 ≤ colors.length)
    (h : kind.evaluate sample (answersOf colors) = .ok v) (each : WithinEach fs colors) :
    (kind.coverage fs).Within v := by
  subst hkind
  refine ⟨fun ht ↦ absurd ht Bool.false_ne_true, fun hc ↦ ?_⟩
  match colors, accepts, each with
  | ambient :: diffuse :: specular :: position :: normal :: lights, _, .cons hf _ =>
    obtain rfl := eq_of_pointwise h rfl
    exact Surface.phong_near ⟨ambient, diffuse, specular, position, normal⟩ shininess
      (Light.ofPairs lights) (hf.near hc)

/-- The coverage of a node is true of its color up to a tolerance, if the coverages of its children
are true of theirs. -/
theorem coverage_within (accepts : kind.Accepts colors.length)
    (h : kind.evaluate sample (answersOf colors) = .ok v) (each : WithinEach fs colors)
    (exact : kind.Amplifies sample fs colors → DescribeEach fs colors)
    (ordinary : kind.Ordinary sample (kind.coverage fs) colors) :
    (kind.coverage fs).Within v := by
  cases kind with
  | linearBlend | radialBlend => exact within_blend _ accepts h each
  | linearGradient => exact within_gradient _ accepts.1 accepts.2.1 h each
  | radialGradient => exact within_radialGradient rfl accepts.1 accepts.2.1 h each ordinary
  | barycentricBlend => exact within_barycentricBlend rfl accepts h each exact
  | blendCompose => exact within_blendCompose rfl accepts h each exact ordinary
  | stack => exact within_stack rfl h each exact
  | pathBoolean => cases h
  | filter =>
    exact ⟨fun ht ↦ absurd ht Bool.false_ne_true, fun hc ↦ absurd hc Bool.false_ne_true⟩
  | color c =>
    obtain rfl := eq_of_pointwise h rfl
    refine ⟨(Vec4.eq_iff _ .zero).1, fun hc ↦ ?_⟩
    have hw : v.w = 1 := by simpa [coverage] using hc
    norm_num [hw]
  | premultiply =>
    obtain ⟨f, a, rfl, rfl, hf⟩ := exists_of_length_one each accepts
    obtain rfl := eq_of_pointwise h rfl
    exact ⟨fun ht ↦ by rw [hf.eq_zero ht, premultiply_zero], hf.near⟩
  | unpremultiply =>
    obtain ⟨f, a, rfl, rfl, hf⟩ := exists_of_length_one each accepts
    obtain rfl := eq_of_pointwise h rfl
    exact ⟨fun ht ↦ by rw [hf.eq_zero ht, unpremultiply_zero],
      fun hc ↦ by rw [unpremultiply_w]; exact hf.near hc⟩
  | convert conversion =>
    obtain ⟨f, a, rfl, rfl, hf⟩ := exists_of_length_one each accepts
    obtain rfl := eq_of_pointwise h rfl
    refine ⟨fun ht ↦ ?_, fun hc ↦ ?_⟩
    · rw [hf.eq_zero ht]
      exact conversion.formula_zero
    · rw [show (ColorModel.convert conversion a).w = a.w from conversion.formula_w a]
      exact hf.near hc
  | alpha factor =>
    obtain ⟨f, a, rfl, rfl, hf⟩ := exists_of_length_one each accepts
    obtain rfl := eq_of_pointwise h rfl
    refine ⟨fun ht ↦ ?_, fun hc ↦ ?_⟩
    · rcases Bool.or_eq_true_iff.1 ht with hzero | ht
      · have hfactor : factor = 0 := by simpa using hzero
        simp [hfactor]
      · simp [hf.eq_zero ht]
    · obtain ⟨hone, hc⟩ := Bool.and_eq_true_iff.1 hc
      have hfactor : factor = 1 := by simpa using hone
      simpa [hfactor] using hf.near hc
  | normalize =>
    obtain ⟨f, a, rfl, rfl, hf⟩ := exists_of_length_one each accepts
    obtain rfl := eq_of_pointwise h rfl
    exact ⟨fun ht ↦ by rw [hf.eq_zero ht, normalized_zero],
      fun hc ↦ absurd hc Bool.false_ne_true⟩
  | phong => exact within_phong rfl accepts.1 h each

end Kind

end

namespace Program

variable {ι : Type} (sample : Accuracy → Point ℝ)

/-- The flags of a program are true of a color: it is the transparent color if the program is
flagged as transparent, and its alpha is near one if the program is flagged as opaque. -/
structure Truthful (p : Program ι ℝ) (v : Vec4 ℝ) : Prop where
  eq_zero : p.isTransparent = true → v = .zero
  near : p.isOpaque = true → |v.w - 1| ≤ 1e-8

/-- The program is where the flags go wrong. They are true of its children but not of itself, and
either it is not as its coverage takes for granted, or it enlarges how far the alpha of an opaque
child is from one. -/
structure Misled (q : Program ι ℝ) : Prop where
  children : ∀ c ∈ q.children, c.Truthful (c.colorAt sample)
  wrong : ¬ q.Truthful (q.colorAt sample)
  cause : ¬ q.kind.Ordinary sample q.flags.coverage (q.children.map (colorAt sample)) ∨
    q.kind.Amplifies sample (q.children.map flags) (q.children.map (colorAt sample)) ∧
      ∃ c ∈ q.children, c.isOpaque = true ∧ (c.colorAt sample).w ≠ 1

variable {sample} {n : ι} {k : Kind ℝ} {cs : List (Program ι ℝ)}

/-- The coverage of a node is that of its kind over the flags of its children. -/
theorem coverage_node : (node n k cs).flags.coverage = k.coverage (cs.map flags) := by
  rw [flags_node]
  rfl

/-- Flags are truthful if the result is within what they say. -/
theorem truthful_iff {p : Program ι ℝ} {v : Vec4 ℝ} : p.Truthful v ↔ p.flags.coverage.Within v :=
  ⟨fun h ↦ ⟨h.eq_zero, h.near⟩, fun h ↦ ⟨h.eq_zero, h.near⟩⟩

/-- If the flags of the children are true, those of the node are, or it leads them astray. -/
theorem truthful_or_misled_node (valid : (node n k cs).Valid) (pathFree : (node n k cs).PathFree)
    (children : ∀ c ∈ cs, c.Truthful (c.colorAt sample)) :
    (node n k cs).Truthful ((node n k cs).colorAt sample) ∨ (node n k cs).Misled sample := by
  refine or_iff_not_imp_left.2 fun wrong ↦ ⟨children, wrong, ?_⟩
  by_contra hcause
  obtain ⟨hordinary, hexact⟩ := not_or.1 hcause
  have hnode : k.evaluate sample (answersOf (cs.map (colorAt sample))) = _ :=
    evaluate_colorAt valid pathFree
  obtain ⟨hvalid, -⟩ := valid
  have haccepts := Kind.accepts_of_validate hvalid
  rw [← List.length_map (colorAt sample)] at haccepts
  have heach : WithinEach (cs.map flags) (cs.map (colorAt sample)) := by
    refine List.forall₂_map_left_iff.2 (List.forall₂_map_right_iff.2 (List.forall₂_same.2 ?_))
    exact fun c hc ↦ truthful_iff.1 (children c hc)
  refine wrong (truthful_iff.2 ?_)
  rw [coverage_node]
  refine Kind.coverage_within haccepts hnode heach
    (fun hamplifies ↦ heach.describeEach ?_) ?_
  · refine List.forall₂_map_left_iff.2 (List.forall₂_map_right_iff.2 (List.forall₂_same.2 ?_))
    exact fun c hc hopaque ↦ by_contra fun hne ↦ hexact ⟨hamplifies, c, hc, hopaque, hne⟩
  · rw [← coverage_node (n := n)]
    exact not_not.1 hordinary

/-- The flags of a program are true of its color, or some part of it leads them astray. -/
theorem truthful_or_exists {p : Program ι ℝ} (valid : p.Valid) (pathFree : p.PathFree) :
    p.Truthful (p.colorAt sample) ∨ ∃ q, Part q p ∧ q.Misled sample := by
  induction p using Program.induct with
  | node n k cs ih =>
    by_cases hcs : ∀ c ∈ cs, c.Truthful (c.colorAt sample)
    · exact (truthful_or_misled_node valid pathFree hcs).imp_right fun h ↦ ⟨_, .refl _, h⟩
    -- The part that leads a child astray is part of the program as well.
    · push Not at hcs
      obtain ⟨c, hc, hwrong⟩ := hcs
      obtain ⟨-, hvalids⟩ := valid
      obtain ⟨-, hpaths⟩ := pathFree
      obtain ⟨q, hq, hmisled⟩ := (ih c hc (hvalids c hc) (hpaths c hc)).resolve_left hwrong
      exact .inr ⟨q, .child hc hq, hmisled⟩

end Program

end Shading
