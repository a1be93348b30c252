import Shading.Proofs.Program.Tolerance
import Shading.Proofs.Triangles

/-!
# Flags are true

Computed exactly, with the standard conversions and the tolerance of rendering, a program that is
flagged as transparent evaluates to the transparent color, and one that is flagged as opaque to a
color whose alpha misses one by no more than the tolerance, or else some part of the program is
where the flags go wrong (`truthful_or_misled`).

Validity alone is not enough. Each way in which `Program.Misled` lets flags go wrong does occur
(`flags_mislead`). A sum that is cut off counts as opaque if an operand does, but the other one may
have a negative alpha. Between circles around one point no ratio is found if they are very close.
And a stack counts as opaque whose alpha is only nearly one. What lies outside of it is not
transparent, and inside of itself, over a color of a large alpha, or weighted by more than one it is
farther from one than the tolerance allows.
-/

namespace Shading.Program

variable {ι : Type} {p : Program ι ℝ}

/-- With premultiplied output the result is the color of the program. -/
theorem evaluate_of_premultiplied (valid : p.Valid) (pathFree : p.PathFree) {ctx : Context ℝ}
    (premultiplied : ctx.premultiplied = true) :
    p.evaluate ctx = .ok (p.colorAt ctx.samplePoint) := by
  rw [evaluate, evaluateAt_eq_colorAt valid.formed pathFree, premultiplied]
  rfl

/-- The flags of a valid program without paths are true of its result in every context with
premultiplied output, unless there is a part of the program at which they go wrong. -/
theorem truthful_or_misled (valid : p.Valid) (pathFree : p.PathFree) {ctx : Context ℝ}
    (premultiplied : ctx.premultiplied = true) :
    ∃ v, p.evaluate ctx = .ok v ∧ (p.Truthful v ∨ ∃ q, Part q p ∧ q.Misled ctx.samplePoint) :=
  ⟨_, evaluate_of_premultiplied valid pathFree premultiplied, truthful_or_exists valid pathFree⟩

/-! ### Colors of small programs -/

section

variable {sample : Accuracy → Point ℝ} {k : Kind ℝ} {cs : List (Tree ℝ)} {colors : List (Vec4 ℝ)}
  {v : Vec4 ℝ}

/-- The program is valid and has no paths, and this is its color. -/
structure HasColor (sample : Accuracy → Point ℝ) (p : Tree ℝ) (v : Vec4 ℝ) : Prop where
  valid : p.Valid
  pathFree : p.PathFree
  color : p.colorAt sample = v

theorem hasColor_color (c : Vec4 ℝ) : HasColor sample (.node () (.color c) []) c :=
  ⟨.node rfl nofun, .node rfl nofun, colorAt_color () c⟩

/-- The color of a node is computed from those of its children. -/
theorem hasColor_node (children : List.Forall₂ (HasColor sample) cs colors)
    (valid : k.validate cs.length = .ok ()) (pathFree : k.isPathBoolean = false)
    (h : k.evaluate sample (answersOf colors) = .ok v) : HasColor sample (.node () k cs) v := by
  have hchildren : (∀ c ∈ cs, c.Valid ∧ c.PathFree) ∧ cs.map (colorAt sample) = colors := by
    clear valid h
    induction children with
    | nil => exact ⟨nofun, rfl⟩
    | cons hc _ ih =>
      refine ⟨List.forall_mem_cons.2 ⟨⟨hc.valid, hc.pathFree⟩, ih.1⟩, ?_⟩
      rw [List.map_cons, hc.color, ih.2]
  have hvalid : (node () k cs).Valid := .node valid fun c hc ↦ (hchildren.1 c hc).1
  have hpathFree : (node () k cs).PathFree := .node pathFree fun c hc ↦ (hchildren.1 c hc).2
  exact ⟨hvalid, hpathFree, colorAt_of_evaluate hvalid hpathFree hchildren.2 h⟩

/-- A composition has the composed color. -/
theorem hasColor_blendCompose {c d : Tree ℝ} {source backdrop : Vec4 ℝ} (compose : Compose)
    (hc : HasColor sample c source) (hd : HasColor sample d backdrop) :
    HasColor sample (.node () (.blendCompose compose .normal) [c, d])
      (blendCompose source backdrop compose .normal) :=
  hasColor_node (.cons hc (.cons hd .nil)) rfl rfl (Kind.evaluate_of_pointwise _ rfl)

/-- The upper one of two layers that counts as opaque hides the lower one. -/
theorem hasColor_stack_of_isOpaqueAlpha {c d : Tree ℝ} {lower upper : Vec4 ℝ}
    (hc : HasColor sample c lower) (hd : HasColor sample d upper)
    (hides : isOpaqueAlpha upper.w = true) : HasColor sample (.node () .stack [c, d]) upper := by
  refine hasColor_node (.cons hc (.cons hd .nil)) rfl rfl ?_
  show coverLayers upper [fun _ ↦ .ok lower] = _
  rw [coverLayers, hides, if_pos rfl]

/-- The upper one of two layers lies over the lower one. -/
theorem hasColor_stack {c d : Tree ℝ} {lower upper : Vec4 ℝ} (hc : HasColor sample c lower)
    (hd : HasColor sample d upper) (shows : isOpaqueAlpha upper.w = false) :
    HasColor sample (.node () .stack [c, d]) (stackBlend upper lower) := by
  refine hasColor_node (.cons hc (.cons hd .nil)) rfl rfl ?_
  show coverLayers upper [fun _ ↦ .ok lower] = _
  rw [coverLayers, shows, if_neg Bool.false_ne_true]
  rfl

/-- No flag goes wrong at a node that is as its coverage takes for granted, if the alphas of its
opaque children are exactly one. -/
theorem not_misled {p : Program ι ℝ}
    (ordinary : p.kind.Ordinary sample p.flags.coverage (p.children.map (colorAt sample)))
    (exact : ∀ c ∈ p.children, c.isOpaque = true → (c.colorAt sample).w = 1) :
    ¬ p.Misled sample := by
  rintro ⟨-, -, hcause | ⟨-, c, hc, hopaque, hne⟩⟩
  · exact hcause ordinary
  · exact hne (exact c hc hopaque)

end

/-! ### A program whose flags are true -/

noncomputable def blueLayer : Tree ℝ := .node () (.color ⟨0, 0, 1, 1⟩) []

noncomputable def veilLayer : Tree ℝ := .node () (.color ⟨0.5, 0, 0, 0.5⟩) []

noncomputable def veiledStack : Tree ℝ := .node () .stack [blueLayer, veilLayer]

/-- Blue outside of a stack that is opaque. -/
noncomputable def blueOutside : Tree ℝ :=
  .node () (.blendCompose .outside .normal) [blueLayer, veiledStack]

section

variable (sample : Accuracy → Point ℝ)

/-- The alpha of the stack is one, although its upper layer is a veil. -/
theorem hasColor_veiledStack : HasColor sample veiledStack ⟨0.5, 0, 0.5, 1⟩ := by
  have hveil : isOpaqueAlpha (0.5 : ℝ) = false := by
    rw [Bool.eq_false_iff, Ne, isOpaqueAlpha_iff_near]
    norm_num
  have hstack : HasColor sample veiledStack (stackBlend ⟨0.5, 0, 0, 0.5⟩ ⟨0, 0, 1, 1⟩) :=
    hasColor_stack (hasColor_color _) (hasColor_color _) hveil
  rw [stackBlend_eq] at hstack
  norm_num at hstack
  norm_num
  exact hstack

/-- The color of what is outside of the stack. -/
theorem hasColor_blueOutside : HasColor sample blueOutside
    (blendCompose ⟨0, 0, 1, 1⟩ ⟨0.5, 0, 0.5, 1⟩ .outside .normal) :=
  hasColor_blendCompose _ (hasColor_color _) (hasColor_veiledStack sample)

theorem not_isOpaque_veilLayer : veilLayer.isOpaque ≠ true := by
  have hne : (0.5 : ℝ) ≠ 1 := by norm_num
  simpa [isOpaque, veilLayer, flags_node, Kind.flags, Kind.coverage] using hne

/-- All parts are constant colors, or have opaque children of alpha one. -/
theorem not_misled_blueOutside {q : Tree ℝ} (h : Part q blueOutside) : ¬ q.Misled sample := by
  have hblue : (blueLayer.colorAt sample).w = 1 := by rw [blueLayer, colorAt_color]
  have hcolor : ∀ c : Vec4 ℝ, Part q (.node () (.color c) []) → ¬ q.Misled sample := by
    intro c h
    obtain rfl := part_leaf.1 h
    exact not_misled trivial nofun
  have hstack : Part q veiledStack → ¬ q.Misled sample := by
    intro h
    obtain rfl | h | h := part_pair.1 h
    · exact not_misled trivial
        (forall_mem_pair (fun _ ↦ hblue) fun hveil ↦ absurd hveil not_isOpaque_veilLayer)
    · exact hcolor _ h
    · exact hcolor _ h
  obtain rfl | h | h := part_pair.1 h
  · refine not_misled trivial (forall_mem_pair (fun _ ↦ hblue) fun _ ↦ ?_)
    rw [(hasColor_veiledStack sample).color]
  · exact hcolor _ h
  · exact hstack h

end

/-- What is outside of the veiled stack is transparent. -/
theorem truthful_blueOutside :
    blueOutside.Valid ∧ blueOutside.PathFree ∧
      (Context.fullPixel 0 0 : Context ℝ).premultiplied = true ∧
      blueOutside.isTransparent = true ∧
      blueOutside.evaluate (Context.fullPixel 0 0) = .ok .zero := by
  have htransparent : blueOutside.isTransparent = true := by
    simp [isTransparent, blueOutside, veiledStack, blueLayer, flags_node, Kind.flags,
      Kind.coverage, Compose.coverage]
  obtain ⟨hvalid, hpathFree, -⟩ :=
    hasColor_blueOutside (Context.fullPixel 0 0 : Context ℝ).samplePoint
  obtain ⟨v, hv, htruthful⟩ := truthful_or_misled hvalid hpathFree
    (show (Context.fullPixel 0 0 : Context ℝ).premultiplied = true from rfl)
  have htold : ¬ ∃ q : Tree ℝ, q.Part blueOutside ∧
      q.Misled (Context.fullPixel 0 0 : Context ℝ).samplePoint := by
    rintro ⟨q, hq, hmisled⟩
    exact not_misled_blueOutside _ hq hmisled
  have hzero := (htruthful.resolve_right htold).eq_zero htransparent
  exact ⟨hvalid, hpathFree, rfl, htransparent, hzero ▸ hv⟩

/-! ### Programs whose flags are wrong -/

/-- The program is valid and has no paths, but its flags are not true of its result, which has the
given alpha. -/
structure Misleading (ctx : Context ℝ) (p : Tree ℝ) (alpha : ℝ) : Prop where
  valid : p.Valid
  pathFree : p.PathFree
  evaluates : ∃ v, p.evaluate ctx = .ok v ∧ v.w = alpha
  wrong : p.isTransparent = true ∧ alpha ≠ 0 ∨ p.isOpaque = true ∧ 1e-8 < |alpha - 1|

/-- A black layer of some alpha. -/
noncomputable def blackLayer (alpha : ℝ) : Tree ℝ := .node () (.color ⟨0, 0, 0, alpha⟩) []

/-- An opaque layer below one that is only nearly opaque. -/
noncomputable def nearlyOpaqueStack : Tree ℝ :=
  .node () .stack [blackLayer 1, blackLayer (1 - 9e-9)]

/-- Source and backdrop composed without a blend mode. -/
noncomputable def composed (compose : Compose) (source backdrop : Tree ℝ) : Tree ℝ :=
  .node () (.blendCompose compose .normal) [source, backdrop]

/-- The stack below a layer whose alpha is too large. -/
noncomputable def brightStack : Tree ℝ := .node () .stack [nearlyOpaqueStack, blackLayer 2.5]

/-- A triangle with the stack at a corner, seen from beyond this corner. -/
noncomputable def beyondCorner : Tree ℝ :=
  .node () (.barycentricBlend ⟨⟨0.5, 0.2⟩, ⟨0, 0⟩, ⟨1, 0⟩⟩ none .unsplitPixelCenter)
    [nearlyOpaqueStack, blackLayer 1, blackLayer 1]

/-- A gradient from a point to a tiny circle around it. -/
noncomputable def tinyCircle : Tree ℝ :=
  .node () (.radialGradient ⟨1, 0, 0, 1, 0, 0⟩ ⟨0, 0⟩ 0 ⟨0, 0⟩ 1e-7 [0, 1] .pad
    .unsplitPixelCenter) [blackLayer 1, blackLayer 1]

section

variable {sample : Accuracy → Point ℝ}

/-- A black layer of alpha one is flagged as opaque. -/
theorem covers_blackLayer : (blackLayer 1).flags.covers = true := by
  simp [blackLayer, flags_node, Kind.flags, Kind.coverage]

/-- One of its layers is opaque, so the stack is flagged as opaque. -/
theorem covers_nearlyOpaqueStack : nearlyOpaqueStack.flags.covers = true := by
  simp [nearlyOpaqueStack, flags_node, Kind.flags, Kind.coverage, covers_blackLayer]

/-- The stack leaves out its opaque layer. -/
theorem hasColor_nearlyOpaqueStack : HasColor sample nearlyOpaqueStack ⟨0, 0, 0, 1 - 9e-9⟩ := by
  refine hasColor_stack_of_isOpaqueAlpha (hasColor_color _) (hasColor_color _) ?_
  rw [isOpaqueAlpha_iff_near]
  norm_num

/-- The layer of too large an alpha does not hide the stack but moves its alpha away from one. -/
theorem hasColor_brightStack :
    HasColor sample brightStack (stackBlend ⟨0, 0, 0, 2.5⟩ ⟨0, 0, 0, 1 - 9e-9⟩) := by
  refine hasColor_stack hasColor_nearlyOpaqueStack (hasColor_color _) ?_
  rw [Bool.eq_false_iff, Ne, isOpaqueAlpha_iff_near]
  norm_num

/-- No point has a ratio between circles that are nearly equal. -/
theorem hasColor_tinyCircle : HasColor sample tinyCircle .zero := by
  have hradii : Kind.checkRadii [(0 : ℝ), 1e-7] = .ok () :=
    Kind.checkRadii_of_nonneg le_rfl (by norm_num)
  refine hasColor_node (.cons (hasColor_color _) (.cons (hasColor_color _) .nil)) ?_ rfl ?_
  · refine check_bind_eq_ok_iff.2 ⟨?_, check_bind_eq_ok_iff.2 ⟨rfl, check_bind_eq_ok_iff.2 ⟨rfl,
      check_bind_eq_ok_iff.2 ⟨hradii, check_bind_eq_ok_iff.2 ⟨checkStops_unit, rfl⟩⟩⟩⟩⟩
    exact check_bind_eq_ok_iff.2 ⟨rfl, require_eq_ok_iff.2 Affine.isInvertible_identity⟩
  · rw [Kind.evaluate, CirclePair.ratio?_of_constant]
    · rfl
    · rw [CirclePair.leading_of_concentric rfl, Kind.circlePair]
      norm_num
    · rw [CirclePair.linear_of_concentric rfl, Kind.circlePair]
      norm_num

/-- For the check, one of the circles contains the other. -/
theorem isOpaque_tinyCircle : tinyCircle.isOpaque = true := by
  have hcovers :
      (Kind.circlePair ⟨1, 0, 0, 1, 0, 0⟩ ⟨0, 0⟩ (0 : ℝ) ⟨0, 0⟩ 1e-7).coversPlane = true := by
    rw [CirclePair.coversPlane_iff_of_concentric rfl, Kind.circlePair]
    norm_num
  simp [isOpaque, tinyCircle, flags_node, Kind.flags, Kind.coverage, hcovers, covers_blackLayer]

/-- Beyond a corner its weight is large, and the other weights are negative. -/
theorem weights_beyondCorner :
    (Triangle.ofCorners (⟨⟨0.5, 0.2⟩, ⟨0, 0⟩, ⟨1, 0⟩⟩ : Triple (Point ℝ)) none).weights ⟨0.5, 0.5⟩ =
      ⟨2.5, -0.75, -0.75⟩ := by
  have hspans : Triangle.Spans (⟨⟨0.5, 0.2⟩, ⟨0, 0⟩, ⟨1, 0⟩⟩ : Triple (Point ℝ)) := by
    rw [Triangle.Spans, doubleEpsilon_eq, scalar_ofNat]
    norm_num [Triangle.spanned]
  rw [Triangle.weights_flat hspans]
  norm_num [Triangle.spanned]

/-- The center of the first pixel. -/
theorem samplePoint_fullPixel :
    (Context.fullPixel 0 0 : Context ℝ).samplePoint .unsplitPixelCenter = ⟨0.5, 0.5⟩ := by
  simp only [Context.samplePoint, Context.fullPixel, Context.pixelCenter, Rect.center,
    Accuracy.readsCentroid, scalar_ofInt, Int.cast_zero, scalar_ofNat, Nat.cast_one]
  refine Point.ext_real ?_ ?_ <;> norm_num

/-- Beyond a corner, a negative weight enlarges what a child lacks of opacity. -/
theorem hasColor_beyondCorner :
    HasColor (Context.fullPixel 0 0 : Context ℝ).samplePoint beyondCorner
      ⟨0, 0, 0, 1 - 2.25e-8⟩ := by
  refine hasColor_node (.cons hasColor_nearlyOpaqueStack (.cons (hasColor_color _)
    (.cons (hasColor_color _) .nil))) rfl rfl ?_
  show Except.ok _ = _
  rw [samplePoint_fullPixel, weights_beyondCorner]
  norm_num

end

/-- A program with a color that is not as its flags say misleads in every context with the samples
of the color. -/
theorem HasColor.misleading {ctx : Context ℝ} {p : Tree ℝ} {v : Vec4 ℝ} {alpha : ℝ}
    (h : HasColor ctx.samplePoint p v) (premultiplied : ctx.premultiplied = true)
    (halpha : v.w = alpha)
    (wrong : p.isTransparent = true ∧ alpha ≠ 0 ∨ p.isOpaque = true ∧ 1e-8 < |alpha - 1|) :
    Misleading ctx p alpha where
  valid := h.valid
  pathFree := h.pathFree
  evaluates := by
    refine ⟨v, ?_, halpha⟩
    rw [evaluate_of_premultiplied h.valid h.pathFree premultiplied, h.color]
  wrong := wrong

/-- The alpha of a composition depends on the alphas of source and backdrop, and its flags depend on
theirs. -/
theorem misleading_composed {ctx : Context ℝ} {c d : Tree ℝ} {source backdrop : Vec4 ℝ}
    {compose : Compose} {alpha : ℝ} (premultiplied : ctx.premultiplied = true)
    (hc : HasColor ctx.samplePoint c source) (hd : HasColor ctx.samplePoint d backdrop)
    (halpha : compose.alpha source.w backdrop.w = alpha)
    (wrong : (compose.coverage c.flags d.flags).transparent = true ∧ alpha ≠ 0 ∨
      (compose.coverage c.flags d.flags).covers = true ∧ 1e-8 < |alpha - 1|) :
    Misleading ctx (composed compose c d) alpha := by
  refine (hasColor_blendCompose compose hc hd).misleading premultiplied ?_ ?_
  · rw [blendCompose_w, halpha]
  · rwa [isTransparent, isOpaque, flags_node]

/-- In each of these programs the flags go wrong at the root, in all the ways in which they can. -/
theorem flags_mislead :
    (Context.fullPixel 0 0 : Context ℝ).premultiplied = true ∧
      Misleading (Context.fullPixel 0 0)
        (composed .plusLighter (blackLayer 1) (blackLayer (-1))) 0 ∧
      Misleading (Context.fullPixel 0 0) tinyCircle 0 ∧
      Misleading (Context.fullPixel 0 0) (composed .inside nearlyOpaqueStack nearlyOpaqueStack)
        (1 - 1.8e-8 + 8.1e-17) ∧
      Misleading (Context.fullPixel 0 0) (composed .outside (blackLayer 1) nearlyOpaqueStack) 9e-9 ∧
      Misleading (Context.fullPixel 0 0) (composed .xor nearlyOpaqueStack nearlyOpaqueStack)
        (1.8e-8 - 1.62e-16) ∧
      Misleading (Context.fullPixel 0 0) (composed .over (blackLayer 2.5) nearlyOpaqueStack)
        (1 + 1.35e-8) ∧
      Misleading (Context.fullPixel 0 0) brightStack (1 + 1.35e-8) ∧
      Misleading (Context.fullPixel 0 0) beyondCorner (1 - 2.25e-8) := by
  have hlayer : ∀ alpha sample, HasColor sample (blackLayer alpha) ⟨0, 0, 0, alpha⟩ :=
    fun alpha _ ↦ hasColor_color ⟨0, 0, 0, alpha⟩
  have hbright : (stackBlend (⟨0, 0, 0, 2.5⟩ : Vec4 ℝ) ⟨0, 0, 0, 1 - 9e-9⟩).w = 1 + 1.35e-8 := by
    rw [stackBlend_eq]
    norm_num
  refine ⟨rfl, ?_, ?_, ?_, ?_, ?_, ?_, ?_, ?_⟩
  · refine misleading_composed rfl (hlayer _ _) (hlayer _ _) ?_ (.inr ⟨?_, ?_⟩)
    · norm_num [Compose.alpha]
    · simp [Compose.coverage, covers_blackLayer]
    · norm_num
  · refine hasColor_tinyCircle.misleading rfl (by simp) (.inr ⟨isOpaque_tinyCircle, ?_⟩)
    norm_num
  · refine misleading_composed rfl hasColor_nearlyOpaqueStack hasColor_nearlyOpaqueStack ?_
      (.inr ⟨?_, ?_⟩)
    · norm_num [Compose.alpha]
    · simp [Compose.coverage, covers_nearlyOpaqueStack]
    · norm_num [abs_of_neg]
  · refine misleading_composed rfl (hlayer _ _) hasColor_nearlyOpaqueStack ?_ (.inl ⟨?_, ?_⟩)
    · norm_num [Compose.alpha]
    · simp [Compose.coverage, covers_nearlyOpaqueStack]
    · norm_num
  · refine misleading_composed rfl hasColor_nearlyOpaqueStack hasColor_nearlyOpaqueStack ?_
      (.inl ⟨?_, ?_⟩)
    · norm_num [Compose.alpha]
    · simp [Compose.coverage, covers_nearlyOpaqueStack]
    · norm_num
  · refine misleading_composed rfl (hlayer _ _) hasColor_nearlyOpaqueStack ?_ (.inr ⟨?_, ?_⟩)
    · norm_num [Compose.alpha]
    · simp [Compose.coverage, covers_nearlyOpaqueStack]
    · norm_num
  · refine hasColor_brightStack.misleading rfl hbright (.inr ⟨?_, ?_⟩)
    · simp [isOpaque, brightStack, flags_node, Kind.flags, Kind.coverage, covers_nearlyOpaqueStack]
    · norm_num
  · refine hasColor_beyondCorner.misleading rfl rfl (.inr ⟨?_, ?_⟩)
    · simp [isOpaque, beyondCorner, flags_node, Kind.flags, Kind.coverage, covers_blackLayer,
        covers_nearlyOpaqueStack]
    · norm_num

end Shading.Program
