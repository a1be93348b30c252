import Shading.Proofs.Exact.Gamut
import Shading.Proofs.Opacity

/-!
# Colors stay in gamut

Computed exactly, a valid program of colors in gamut has a color in gamut in every context with
premultiplied output, whatever it blends, interpolates, stacks or composes (`evaluate_inGamut`).
`Kind.KeepsGamut` says of which kinds: those that only mix colors with weights between 0 and 1,
those that scale them down, and all compositions but the unlimited sum.

The other kinds are left out because they do not keep it. Straight colors, converted or not, are not
bounded by their alpha, filters and lights may add anything, and outside of a triangle its weights
are negative.
-/

namespace Shading

open unitInterval

/-- The kind makes colors in gamut of such colors. -/
def Kind.KeepsGamut : Kind ℝ → Prop
  | .color c => InGamut c
  | .alpha factor => factor ∈ I
  | .blendCompose compose _ => compose ≠ .plus
  | .premultiply | .normalize | .linearBlend .. | .radialBlend .. | .linearGradient ..
  | .radialGradient .. | .stack => True
  | .unpremultiply | .convert _ | .filter _ | .phong _ | .barycentricBlend .. | .pathBoolean _ =>
    False

variable {colors : List (Vec4 ℝ)} {v : Vec4 ℝ}

/-- A color picked from others, or from between two of them. -/
theorem Picked.inGamut (h : Picked (· ∈ I) colors v) (all : ∀ c ∈ colors, InGamut c) :
    InGamut v := by
  cases h with
  | one hc => exact all v hc
  | between hc hd ht => exact (all _ hc).lerp (all _ hd) ht

/-- Layers, down to the first opaque result. -/
theorem inGamut_of_coverLayers {top : Vec4 ℝ} (htop : InGamut top) (all : ∀ c ∈ colors, InGamut c)
    (h : coverLayers top (answersOf colors) = .ok v) : InGamut v := by
  induction colors generalizing top with
  | nil =>
    obtain rfl := Except.ok.inj h
    exact htop
  | cons c colors ih =>
    rw [List.forall_mem_cons] at all
    rw [answersOf, List.map_cons, coverLayers] at h
    split at h
    · obtain rfl := Except.ok.inj h
      exact htop
    · exact ih (htop.stackBlend all.1) all.2 h

namespace Kind

variable {kind : Kind ℝ} (sample : Accuracy → Point ℝ)

/-- The sides of a blend meet at a ratio between 0 and 1. -/
theorem inGamut_of_blend {t : ℝ} (hlength : colors.length = 2) (all : ∀ c ∈ colors, InGamut c)
    (h : blendBetween t (answerAt kind (answersOf colors) 0) (answerAt kind (answersOf colors) 1) =
      .ok v) : InGamut v := by
  obtain ⟨w, hw, hpicked⟩ := exists_picked_of_blend kind t hlength
  obtain rfl := Except.ok.inj (hw.symm.trans h)
  refine (hpicked.imp fun s hs ↦ ?_).inGamut all
  simp only [scalar_le, scalar_ofNat, Nat.cast_zero, Nat.cast_one, not_le] at hs
  exact ⟨hs.1.le, hs.2.le⟩

/-- A gradient over colors in the gamut stays in it. -/
theorem inGamut_of_gradient {ratios : List ℝ} {t : ℝ} (hlength : colors.length = ratios.length)
    (hne : ratios ≠ []) (all : ∀ c ∈ colors, InGamut c)
    (h : gradientAt kind (answersOf colors) ratios t = .ok v) : InGamut v := by
  obtain ⟨w, hw, hpicked⟩ := exists_picked_of_gradient kind t hlength hne
  obtain rfl := Except.ok.inj (hw.symm.trans h)
  exact (hpicked.imp fun s ⟨i, hi⟩ ↦ Selection.select_ratio hi).inGamut all

/-- One node, from colors in gamut. -/
theorem KeepsGamut.inGamut (keeps : kind.KeepsGamut) (accepts : kind.Accepts colors.length)
    (all : ∀ c ∈ colors, InGamut c) (h : kind.evaluate sample (answersOf colors) = .ok v) :
    InGamut v := by
  have hvalue : ∀ {w}, kind.pointwise? colors = some w → v = w := fun hw ↦
    Except.ok.inj (h.symm.trans (evaluate_of_pointwise sample hw))
  cases kind with
  | color c =>
    rw [hvalue rfl]
    exact keeps
  | premultiply =>
    obtain ⟨a, rfl⟩ := List.length_eq_one_iff.1 accepts
    rw [hvalue rfl]
    exact (all a (List.mem_singleton_self a)).premultiply
  | alpha factor =>
    obtain ⟨a, rfl⟩ := List.length_eq_one_iff.1 accepts
    rw [hvalue rfl]
    exact (all a (List.mem_singleton_self a)).scale keeps
  | normalize =>
    obtain ⟨a, rfl⟩ := List.length_eq_one_iff.1 accepts
    rw [hvalue rfl]
    exact (all a (List.mem_singleton_self a)).normalized
  | linearBlend | radialBlend => exact inGamut_of_blend accepts all h
  | linearGradient =>
    obtain ⟨hlength, hpos, -⟩ := accepts
    exact inGamut_of_gradient hlength (List.ne_nil_of_length_pos (by omega)) all h
  | radialGradient =>
    obtain ⟨hlength, hpos, -⟩ := accepts
    rw [evaluate] at h
    split at h
    · obtain rfl := Except.ok.inj h
      exact .zero
    · exact inGamut_of_gradient hlength (List.ne_nil_of_length_pos (by omega)) all h
  | stack =>
    have hreversed : ∀ c ∈ colors.reverse, InGamut c := fun c hc ↦ all c (List.mem_reverse.1 hc)
    rw [evaluate, ← List.map_reverse] at h
    generalize colors.reverse = layers at h hreversed
    rcases layers with - | ⟨top, below⟩
    · obtain rfl := Except.ok.inj h
      exact .zero
    · rw [List.forall_mem_cons] at hreversed
      exact inGamut_of_coverLayers hreversed.1 hreversed.2 h
  | blendCompose compose blend =>
    obtain ⟨a, b, rfl⟩ := List.length_eq_two.1 accepts
    rw [List.forall_mem_cons, List.forall_mem_singleton] at all
    rw [hvalue rfl]
    exact all.1.blendCompose all.2 keeps blend
  | unpremultiply | convert | filter | phong | barycentricBlend | pathBoolean => cases keeps

/-- Kinds that keep the gamut choose no side of a path. -/
theorem KeepsGamut.pathless (keeps : kind.KeepsGamut) : kind.isPathBoolean = false := by
  cases kind with
  | pathBoolean => cases keeps
  | _ => rfl

end Kind

namespace Program

variable {ι : Type} {p : Program ι ℝ}

/-- A program that keeps the gamut has no paths. -/
theorem pathFree_of_keepsGamut (keeps : p.Everywhere Kind.KeepsGamut) : p.PathFree := by
  induction keeps with
  | node hk _ ih => exact .node hk.pathless ih

/-- The color of the program at any sample. -/
theorem inGamut_colorAt (valid : p.Valid) (keeps : p.Everywhere Kind.KeepsGamut)
    (sample : Accuracy → Point ℝ) : InGamut (p.colorAt sample) := by
  induction p using Program.induct with
  | node n k cs ih =>
    have ⟨hvalid, hvalids⟩ := valid
    have ⟨hkeeps, hkeepss⟩ := keeps
    have haccepts := Kind.accepts_of_validate hvalid
    rw [← List.length_map (colorAt sample)] at haccepts
    refine hkeeps.inGamut sample haccepts (fun v hv ↦ ?_)
      (evaluate_colorAt valid (pathFree_of_keepsGamut keeps))
    obtain ⟨c, hc, rfl⟩ := List.mem_map.1 hv
    exact ih c hc (hvalids c hc) (hkeepss c hc)

/-- A valid program whose nodes keep colors in gamut has a color in gamut in every context with
premultiplied output. -/
theorem evaluate_inGamut (valid : p.Valid) (keeps : p.Everywhere Kind.KeepsGamut) {ctx : Context ℝ}
    (premultiplied : ctx.premultiplied = true) :
    ∃ c, p.evaluate ctx = .ok c ∧ InGamut c :=
  ⟨_, evaluate_of_premultiplied valid (pathFree_of_keepsGamut keeps) premultiplied,
    inGamut_colorAt valid keeps ctx.samplePoint⟩

/-- From blue to a veil. -/
noncomputable def blueToVeil : Tree ℝ :=
  .node () (.linearBlend ⟨⟨1, 0⟩, 0⟩ .splitCentroid) [blueLayer, veilLayer]

/-- A veil in the hue of a faint blue, laid on a stack by soft light. -/
noncomputable def tintedVeil : Tree ℝ :=
  .node () (.blendCompose .atop .softLight)
    [.node () (.blendCompose .plusLighter .hue) [veilLayer, .node () (.alpha 0.5) [blueLayer]],
      .node () .stack [blueToVeil, veilLayer]]

theorem valid_tintedVeil : tintedVeil.Valid := by
  have hblue : blueLayer.Valid := .node rfl nofun
  have hveil : veilLayer.Valid := .node rfl nofun
  have hfaint : (.node () (.alpha 0.5) [blueLayer] : Tree ℝ).Valid :=
    .node rfl (List.forall_mem_singleton.2 hblue)
  have hblend : blueToVeil.Valid := .node rfl (forall_mem_pair hblue hveil)
  exact .node rfl (forall_mem_pair (.node rfl (forall_mem_pair hveil hfaint))
    (.node rfl (forall_mem_pair hblend hveil)))

theorem keepsGamut_tintedVeil : tintedVeil.Everywhere Kind.KeepsGamut := by
  have hblue : blueLayer.Everywhere Kind.KeepsGamut := by
    refine .node ?_ nofun
    constructor <;> norm_num
  have hveil : veilLayer.Everywhere Kind.KeepsGamut := by
    refine .node ?_ nofun
    constructor <;> norm_num
  have hfaint : (.node () (.alpha 0.5) [blueLayer] : Tree ℝ).Everywhere Kind.KeepsGamut := by
    refine .node ?_ (List.forall_mem_singleton.2 hblue)
    constructor <;> norm_num
  have hblend : blueToVeil.Everywhere Kind.KeepsGamut :=
    .node trivial (forall_mem_pair hblue hveil)
  exact .node nofun (forall_mem_pair (.node nofun (forall_mem_pair hveil hfaint))
    (.node trivial (forall_mem_pair hblend hveil)))

/-- A veil in another hue, laid on a stack, stays in the gamut. -/
theorem inGamut_tintedVeil :
    tintedVeil.Valid ∧ tintedVeil.Everywhere Kind.KeepsGamut ∧
      (Context.fullPixel 0 0 : Context ℝ).premultiplied = true ∧
      ∃ c, tintedVeil.evaluate (Context.fullPixel 0 0) = .ok c ∧ InGamut c :=
  ⟨valid_tintedVeil, keepsGamut_tintedVeil, rfl,
    evaluate_inGamut valid_tintedVeil keepsGamut_tintedVeil rfl⟩

end Program

end Shading
