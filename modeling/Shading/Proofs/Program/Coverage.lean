import Mathlib.Data.List.Forall2
import Shading.Program.Flags
import Shading.Proofs.Program.Shade

/-!
# What flags say

The flags of a program are true of its exact color: a program that is flagged as transparent has the
transparent color everywhere, one that is flagged as opaque has alpha one everywhere
(`Program.flags_describe`). Each kind keeps this relation between flags and colors
(`Kind.coverage_describes`), and the operators of a composition do, with any blend mode.
-/

namespace Shading

/-- The coverage is true of a color. -/
structure Coverage.Describes (coverage : Coverage) (c : Vec4 ℝ) : Prop where
  eq_zero : coverage.transparent = true → c = .zero
  w_eq_one : coverage.covers = true → c.w = 1

def Flags.coverage (f : Flags) : Coverage := ⟨f.transparent, f.covers⟩

/-- The flags of children are true of their colors, one by one. -/
abbrev DescribeEach : List Flags → List (Vec4 ℝ) → Prop :=
  List.Forall₂ fun f c ↦ f.coverage.Describes c

variable {fs : List Flags} {colors : List (Vec4 ℝ)}

section

variable {tells : Flags → Vec4 ℝ → Prop} {holds : Vec4 ℝ → Prop} {flag : Flags → Bool}

/-- What a flag tells of a color holds of all colors, if every child has the flag. -/
theorem forall_of_all (h : List.Forall₂ tells fs colors)
    (imp : ∀ f c, tells f c → flag f = true → holds c) (all : fs.all flag = true) :
    ∀ c ∈ colors, holds c := by
  induction h with
  | nil => exact nofun
  | cons hf _ ih =>
    rw [List.all_cons, Bool.and_eq_true] at all
    exact List.forall_mem_cons.2 ⟨imp _ _ hf all.1, ih all.2⟩

/-- A flag of some child tells of its color. -/
theorem exists_of_any (h : List.Forall₂ tells fs colors)
    (imp : ∀ f c, tells f c → flag f = true → holds c) (any : fs.any flag = true) :
    ∃ c ∈ colors, holds c := by
  induction h with
  | nil => cases any
  | @cons f c fs colors hf _ ih =>
    rw [List.any_cons, Bool.or_eq_true] at any
    rcases any with hflag | any
    · exact ⟨c, List.mem_cons_self, imp f c hf hflag⟩
    · obtain ⟨d, hd, hw⟩ := ih any
      exact ⟨d, List.mem_cons_of_mem _ hd, hw⟩

/-- With one child there is one flag, told of one color. -/
theorem exists_of_length_one (h : List.Forall₂ tells fs colors) (length : colors.length = 1) :
    ∃ f c, fs = [f] ∧ colors = [c] ∧ tells f c := by
  obtain ⟨c, rfl⟩ := List.length_eq_one_iff.1 length
  rcases h with - | ⟨hf, - | -⟩
  exact ⟨_, c, rfl, rfl, hf⟩

/-- With two children there are two flags, each told of its color. -/
theorem exists_of_length_two (h : List.Forall₂ tells fs colors) (length : colors.length = 2) :
    ∃ f g c d, fs = [f, g] ∧ colors = [c, d] ∧ tells f c ∧ tells g d := by
  obtain ⟨c, d, rfl⟩ := List.length_eq_two.1 length
  rcases h with - | ⟨hf, - | ⟨hg, - | -⟩⟩
  exact ⟨_, _, c, d, rfl, rfl, hf, hg⟩

end

/-- If all children are flagged as transparent, so are all colors. -/
theorem eq_zero_of_all (h : DescribeEach fs colors) (all : fs.all (·.transparent) = true) :
    ∀ c ∈ colors, c = .zero :=
  forall_of_all h (fun _ _ hf ↦ hf.eq_zero) all

/-- If all children are flagged as opaque, all colors have alpha one. -/
theorem w_eq_one_of_all (h : DescribeEach fs colors) (all : fs.all (·.covers) = true) :
    ∀ c ∈ colors, c.w = 1 :=
  forall_of_all h (fun _ _ hf ↦ hf.w_eq_one) all

/-- A composition keeps what is known of source and backdrop. -/
theorem Compose.coverage_describes {a b : Flags} {source backdrop : Vec4 ℝ}
    (ha : a.coverage.Describes source) (hb : b.coverage.Describes backdrop) {compose : Compose}
    (hne : compose ≠ .plusLighter) (blend : Blend) :
    (compose.coverage a b).Describes (blendCompose source backdrop compose blend) := by
  have hblend : source = .zero → blendSource source backdrop blend = .zero := fun h ↦ by
    rw [h, blendSource_zero]
  have hw := blendSource_w source backdrop blend
  simp only [blendCompose]
  generalize blendSource source backdrop blend = blended at hblend hw
  obtain ⟨hsource, hsource'⟩ := ha
  obtain ⟨hbackdrop, hbackdrop'⟩ := hb
  match compose with
  | .over =>
    refine ⟨fun h ↦ ?_, fun h ↦ ?_⟩
    · obtain ⟨hta, htb⟩ := Bool.and_eq_true_iff.1 h
      simp [hblend (hsource hta), hbackdrop htb]
    · rcases Bool.or_eq_true_iff.1 h with hca | hcb
      · simp [hw, hsource' hca]
      · simp [hw, hbackdrop' hcb]
  | .inside =>
    refine ⟨fun h ↦ ?_, fun h ↦ ?_⟩
    · rcases Bool.or_eq_true_iff.1 h with hta | htb
      · simp [hblend (hsource hta)]
      · simp [hbackdrop htb]
    · obtain ⟨hca, hcb⟩ := Bool.and_eq_true_iff.1 h
      simp [hw, hsource' hca, hbackdrop' hcb]
  | .outside =>
    refine ⟨fun h ↦ ?_, fun h ↦ ?_⟩
    · rcases Bool.or_eq_true_iff.1 h with hta | hcb
      · simp [hblend (hsource hta)]
      · simp [hbackdrop' hcb]
    · obtain ⟨hca, htb⟩ := Bool.and_eq_true_iff.1 h
      simp [hw, hsource' hca, hbackdrop htb]
  | .atop =>
    refine ⟨fun h ↦ ?_, fun h ↦ ?_⟩
    · simp [hbackdrop h]
    · simp [hw, hbackdrop' h]
  | .xor =>
    refine ⟨fun h ↦ ?_, fun h ↦ ?_⟩
    · rcases Bool.or_eq_true_iff.1 h with h | h
      · obtain ⟨hta, htb⟩ := Bool.and_eq_true_iff.1 h
        simp [hblend (hsource hta), hbackdrop htb]
      · obtain ⟨hca, hcb⟩ := Bool.and_eq_true_iff.1 h
        simp [hsource' hca, hbackdrop' hcb]
    · rcases Bool.or_eq_true_iff.1 h with h | h
      · obtain ⟨hca, htb⟩ := Bool.and_eq_true_iff.1 h
        simp [hw, hsource' hca, hbackdrop htb]
      · obtain ⟨hta, hcb⟩ := Bool.and_eq_true_iff.1 h
        simp [hw, hsource hta, hbackdrop' hcb]
  | .plus =>
    refine ⟨fun h ↦ ?_, fun h ↦ ?_⟩
    · obtain ⟨hta, htb⟩ := Bool.and_eq_true_iff.1 h
      simp [hblend (hsource hta), hbackdrop htb]
    · rcases Bool.or_eq_true_iff.1 h with h | h
      · obtain ⟨hca, htb⟩ := Bool.and_eq_true_iff.1 h
        simp [hw, hsource' hca, hbackdrop htb]
      · obtain ⟨hta, hcb⟩ := Bool.and_eq_true_iff.1 h
        simp [hw, hsource hta, hbackdrop' hcb]
  | .plusLighter => exact absurd rfl hne

variable [LosslessConversions]

namespace Kind

variable {kind : Kind ℝ} (isInside : Path → Bool) (sample : Accuracy → Point ℝ)

/-- A mixture is transparent or opaque if all its colors are, and a position without a color is
transparent. -/
theorem coverage_describes_mixture (position : kind.isPositionDependent = true)
    (accepts : kind.Accepts colors.length) (regular : kind.Regular) (h : DescribeEach fs colors) :
    (kind.coverage fs).Describes (kind.shade isInside sample colors) := by
  obtain ⟨v, hv, hmix⟩ := exists_mixture sample position accepts
  rw [shade_of_evaluate hv]
  have htransparent : (kind.coverage fs).transparent = fs.all (·.transparent) := by
    cases kind <;> first | rfl | cases position
  have hcovers : (kind.coverage fs).covers = true →
      fs.all (·.covers) = true ∧ kind.coversPlane = true := by
    cases kind with
    | linearBlend | radialBlend | barycentricBlend | linearGradient => exact fun h ↦ ⟨h, rfl⟩
    | radialGradient => exact Bool.and_eq_true_iff.1
    | _ => cases position
  refine ⟨fun ht ↦ ?_, fun hc ↦ ?_⟩
  · rw [htransparent] at ht
    rcases hmix with hmix | ⟨hzero, -⟩
    · exact hmix.eq_of_forall (eq_zero_of_all h ht)
    · exact hzero
  · obtain ⟨hall, hplane⟩ := hcovers hc
    rcases hmix with hmix | ⟨-, hgap⟩
    · exact hmix.w_eq_one (w_eq_one_of_all h hall)
    · rw [hgap regular] at hplane
      cases hplane

/-- The coverage of a node is true of its color, if the flags of its children are true of theirs. -/
theorem coverage_describes (accepts : kind.Accepts colors.length) (regular : kind.Regular)
    (h : DescribeEach fs colors) :
    (kind.coverage fs).Describes (kind.shade isInside sample colors) := by
  cases kind with
  | linearBlend | radialBlend | barycentricBlend | linearGradient | radialGradient =>
    exact coverage_describes_mixture isInside sample rfl accepts regular h
  | color c =>
    rw [shade_of_pointwise rfl]
    exact ⟨(Vec4.eq_iff c .zero).1, fun hw ↦ by simpa [coverage] using hw⟩
  | premultiply =>
    obtain ⟨f, a, rfl, rfl, hf⟩ := exists_of_length_one h accepts
    rw [shade_of_pointwise rfl]
    exact ⟨fun ht ↦ by rw [hf.eq_zero ht, premultiply_zero], hf.w_eq_one⟩
  | unpremultiply =>
    obtain ⟨f, a, rfl, rfl, hf⟩ := exists_of_length_one h accepts
    rw [shade_of_pointwise rfl]
    exact ⟨fun ht ↦ by rw [hf.eq_zero ht, unpremultiply_zero],
      fun hc ↦ by rw [unpremultiply_w, hf.w_eq_one hc]⟩
  | convert conversion =>
    obtain ⟨f, a, rfl, rfl, hf⟩ := exists_of_length_one h accepts
    rw [shade_of_pointwise rfl]
    exact ⟨fun ht ↦ by rw [hf.eq_zero ht]; exact LosslessConversions.convert_zero conversion,
      fun hc ↦ (LosslessConversions.convert_w conversion a).trans (hf.w_eq_one hc)⟩
  | alpha factor =>
    obtain ⟨f, a, rfl, rfl, hf⟩ := exists_of_length_one h accepts
    rw [shade_of_pointwise rfl]
    refine ⟨fun ht ↦ ?_, fun hc ↦ ?_⟩
    · rcases Bool.or_eq_true_iff.1 ht with hzero | ht
      · have hfactor : factor = 0 := by simpa using hzero
        simp [hfactor]
      · simp [hf.eq_zero ht]
    · obtain ⟨hone, hc⟩ := Bool.and_eq_true_iff.1 hc
      have hfactor : factor = 1 := by simpa using hone
      simp [hfactor, hf.w_eq_one hc]
  | normalize =>
    obtain ⟨f, a, rfl, rfl, hf⟩ := exists_of_length_one h accepts
    rw [shade_of_pointwise rfl]
    exact ⟨fun ht ↦ by rw [hf.eq_zero ht, normalized_zero], nofun⟩
  | filter m => exact ⟨nofun, nofun⟩
  | phong shininess =>
    refine ⟨nofun, fun hc ↦ ?_⟩
    match colors, accepts.1, h with
    | ambient :: diffuse :: specular :: position :: normal :: lights, _, .cons hf _ =>
      rw [shade_of_pointwise rfl]
      exact Surface.phong_w ⟨ambient, diffuse, specular, position, normal⟩ shininess
        (Light.ofPairs lights) (hf.w_eq_one hc)
  | blendCompose compose blend =>
    obtain ⟨f, g, a, b, rfl, rfl, hf, hg⟩ := exists_of_length_two h accepts
    rw [shade_of_pointwise rfl]
    exact Compose.coverage_describes hf hg regular blend
  | stack =>
    rw [shade_stack]
    refine ⟨fun ht ↦ layered_eq_zero (eq_zero_of_all h ht), fun hc ↦ ?_⟩
    obtain ⟨c, hmem, hw⟩ := exists_of_any h (fun _ _ hf ↦ hf.w_eq_one) hc
    exact layered_w hmem hw
  | pathBoolean path =>
    obtain ⟨f, g, a, b, rfl, rfl, hf, hg⟩ := exists_of_length_two h accepts
    have hside : (pathBoolean path).shade isInside sample [a, b] = a ∨
        (pathBoolean path).shade isInside sample [a, b] = b := by
      rw [shade]
      split
      · exact .inl rfl
      · exact .inr rfl
    refine ⟨fun ht ↦ ?_, fun hc ↦ ?_⟩
    · have hall := eq_zero_of_all h ht
      rcases hside with hside | hside <;> rw [hside] <;> exact hall _ (by simp)
    · have hall := w_eq_one_of_all h hc
      rcases hside with hside | hside <;> rw [hside] <;> exact hall _ (by simp)

end Kind

namespace Program

variable {ι : Type} (isInside : Path → Bool) (sample : Accuracy → Point ℝ)

/-- Every node is valid and regular. -/
structure Proper (p : Program ι ℝ) : Prop where
  valid : p.Valid
  regular : p.Everywhere Kind.Regular

omit [LosslessConversions] in
/-- A node is proper if it is valid and regular, and its children are proper. -/
theorem proper_node {n : ι} {k : Kind ℝ} {cs : List (Program ι ℝ)} :
    (node n k cs).Proper ↔
      k.validate cs.length = .ok () ∧ k.Regular ∧ ∀ c ∈ cs, c.Proper := by
  refine ⟨fun ⟨⟨hvalid, hvalids⟩, ⟨hregular, hregulars⟩⟩ ↦
    ⟨hvalid, hregular, fun c hc ↦ ⟨hvalids c hc, hregulars c hc⟩⟩, fun ⟨hvalid, hregular, h⟩ ↦ ?_⟩
  exact ⟨.node hvalid fun c hc ↦ (h c hc).valid, .node hregular fun c hc ↦ (h c hc).regular⟩

/-- The flags of a program are true of its color. -/
theorem flags_describe {p : Program ι ℝ} (proper : p.Proper) :
    p.flags.coverage.Describes (p.shade isInside sample) := by
  induction p using Program.induct with
  | node n k cs ih =>
    obtain ⟨hvalid, hregular, hproper⟩ := proper_node.1 proper
    have haccepts := Kind.accepts_of_validate hvalid
    rw [← List.length_map (shade isInside sample)] at haccepts
    have heach : DescribeEach (cs.map flags) (cs.map (shade isInside sample)) := by
      refine List.forall₂_map_left_iff.2 (List.forall₂_map_right_iff.2 (List.forall₂_same.2 ?_))
      exact fun c hc ↦ ih c hc (hproper c hc)
    rw [flags_node, shade_node]
    exact Kind.coverage_describes isInside sample haccepts hregular heach

variable {p : Program ι ℝ} {isInside sample}

/-- A proper program that is flagged as transparent has the transparent shade. -/
theorem shade_of_isTransparent (proper : p.Proper) (h : p.isTransparent = true) :
    p.shade isInside sample = .zero :=
  (flags_describe isInside sample proper).eq_zero h

/-- A proper program that is flagged as opaque has a shade of alpha one. -/
theorem shade_w_of_isOpaque (proper : p.Proper) (h : p.isOpaque = true) :
    (p.shade isInside sample).w = 1 :=
  (flags_describe isInside sample proper).w_eq_one h

end Program

end Shading
