import Shading.Proofs.Program.Coverage
import Shading.Proofs.Program.Parts

/-!
# Reduction steps keep the color

Each rule that reduces a node puts a program in its place that has the same exact color at every
sample, whatever sides of paths are chosen (`replaces_of_reduce?`). A rule may rely on its node
being valid and regular, and on programs having the same color where it finds them equal; what it
leaves is valid and regular again.
-/

namespace Shading

variable [LosslessConversions] {ι : Type}

namespace Program

/-- The second program may be put in the place of the first: it is proper if the first is, and has
the same color everywhere. -/
structure Replaces (p q : Program ι ℝ) : Prop where
  proper : q.Proper
  shade_eq (isInside : Path → Bool) (sample : Accuracy → Point ℝ) :
    q.shade isInside sample = p.shade isInside sample

/-- The programs have the same color everywhere. -/
def SameColor (p q : Program ι ℝ) : Prop :=
  ∀ isInside sample, p.shade isInside sample = q.shade isInside sample

end Program

open Program

variable {n m : ι} {kind : Kind ℝ} {cs : List (Program ι ℝ)}
  {same : Program ι ℝ → Program ι ℝ → Bool}

/-! ### Constants -/

omit [LosslessConversions] in
/-- Constants are proper, of any color. -/
theorem proper_color (v : Vec4 ℝ) : (node n (.color v) []).Proper :=
  proper_node.2 ⟨rfl, trivial, nofun⟩

/-- A constant has its color everywhere. -/
theorem shade_color (v : Vec4 ℝ) (isInside : Path → Bool) (sample : Accuracy → Point ℝ)
    (cs : List (Program ι ℝ)) : (node n (.color v) cs).shade isInside sample = v := by
  rw [shade_node, Kind.shade_of_pointwise rfl]

/-- A program that is flagged as transparent may be replaced by the transparent color. -/
theorem replaces_transparent {p : Program ι ℝ} (proper : p.Proper) (h : p.isTransparent = true) :
    Replaces p (node n (.color .zero) []) := by
  refine ⟨proper_color _, fun isInside sample ↦ ?_⟩
  rw [shade_color, shade_of_isTransparent proper h]

theorem map_shade_of_mapM {inputs : List (Vec4 ℝ)} (h : cs.mapM Program.color? = some inputs)
    (isInside : Path → Bool) (sample : Accuracy → Point ℝ) :
    cs.map (shade isInside sample) = inputs := by
  induction cs generalizing inputs with
  | nil =>
    cases h
    rfl
  | cons c cs ih =>
    rw [List.mapM_cons] at h
    obtain ⟨v, hv, h⟩ := Option.bind_eq_some_iff.1 h
    obtain ⟨vs, hvs, h⟩ := Option.bind_eq_some_iff.1 h
    cases h
    obtain ⟨name, k, grandchildren⟩ := c
    cases k with
    | color value =>
      cases hv
      rw [List.map_cons, ih hvs, shade_color]
    | _ => cases hv

/-- A kind with constant children has the color of the constant that it makes of them. -/
theorem replaces_constant {v : Vec4 ℝ} (h : kind.foldConstant? cs = some v) :
    Replaces (node n kind cs) (node m (.color v) []) := by
  refine ⟨proper_color v, fun isInside sample ↦ ?_⟩
  obtain ⟨inputs, hinputs, h⟩ := Option.bind_eq_some_iff.1 h
  obtain ⟨value, hvalue, h⟩ := Option.bind_eq_some_iff.1 h
  rw [if_pos (Vec4.isFinite_eq value)] at h
  cases h
  rw [shade_color, shade_node, map_shade_of_mapM hinputs, Kind.shade_of_pointwise hvalue]

/-! ### Single operations -/

/-- Fading scales the shade. -/
theorem shade_alpha (factor : ℝ) (c : Program ι ℝ) (isInside : Path → Bool)
    (sample : Accuracy → Point ℝ) :
    (node n (.alpha factor) [c]).shade isInside sample = c.shade isInside sample * factor := by
  rw [shade_node, List.map_singleton, Kind.shade_of_pointwise rfl]

/-- Converting converts the shade. -/
theorem shade_convert (conversion : Conversion) (c : Program ι ℝ) (isInside : Path → Bool)
    (sample : Accuracy → Point ℝ) :
    (node n (.convert conversion) [c]).shade isInside sample =
      LosslessConversions.convert conversion (c.shade isInside sample) := by
  rw [shade_node, List.map_singleton, Kind.shade_of_pointwise rfl]
  rfl

/-- Composing composes the shades. -/
theorem shade_blendCompose (compose : Compose) (blend : Blend) (a b : Program ι ℝ)
    (isInside : Path → Bool) (sample : Accuracy → Point ℝ) :
    (node n (.blendCompose compose blend) [a, b]).shade isInside sample =
      blendCompose (a.shade isInside sample) (b.shade isInside sample) compose blend := by
  rw [shade_node, List.map_cons, List.map_singleton, Kind.shade_of_pointwise rfl]

/-- A stack lays the shades of its layers over each other. -/
theorem shade_stack_node (isInside : Path → Bool) (sample : Accuracy → Point ℝ) :
    (node n .stack cs).shade isInside sample = layered (cs.map (shade isInside sample)) := by
  rw [shade_node, Kind.shade_stack]

/-- A color composed over another, with one of them transparent or the upper one opaque. -/
theorem replaces_over {a b : Program ι ℝ} {r : Replacement ι ℝ}
    (proper : (node n (.blendCompose .over .normal) [a, b]).Proper)
    (h : reduceKind? same (.blendCompose .over .normal) [a, b] = some r) :
    Replaces (node n (.blendCompose .over .normal) [a, b]) (r.program m) := by
  obtain ⟨-, -, hproper⟩ := proper_node.1 proper
  have ha : a.Proper := hproper a (by simp)
  have hb : b.Proper := hproper b (by simp)
  have hover : ∀ source backdrop : Vec4 ℝ,
      blendCompose source backdrop .over .normal = stackBlend source backdrop := fun _ _ ↦ rfl
  rw [reduceKind?] at h
  split at h
  · rename_i htransparent
    cases h
    refine ⟨hb, fun isInside sample ↦ ?_⟩
    show b.shade isInside sample = _
    rw [shade_blendCompose, hover, shade_of_isTransparent ha htransparent, zero_stackBlend]
  · split at h
    · rename_i hkeep
      cases h
      refine ⟨ha, fun isInside sample ↦ ?_⟩
      show a.shade isInside sample = _
      rw [shade_blendCompose, hover]
      rcases Bool.or_eq_true_iff.1 hkeep with htransparent | hopaque
      · rw [shade_of_isTransparent hb htransparent, stackBlend_zero]
      · rw [stackBlend_of_w_eq_one _ (shade_w_of_isOpaque ha hopaque)]
    · cases h

/-! ### Children that are alike -/

/-- Programs that are found equal have the same color. -/
def Faithful (same : Program ι ℝ → Program ι ℝ → Bool) (cs : List (Program ι ℝ)) : Prop :=
  ∀ a ∈ cs, ∀ b ∈ cs, same a b = true → SameColor a b

/-- Children that are all alike have the color of the first one. -/
theorem sameColor_of_allAlike {first : Program ι ℝ} (faithful : Faithful same (first :: cs))
    (h : allAlike same (first :: cs) = true) : ∀ c ∈ first :: cs, SameColor c first := by
  induction cs generalizing first with
  | nil =>
    intro c hc isInside sample
    rw [List.mem_singleton.1 hc]
  | cons second cs ih =>
    obtain ⟨hfirst, hrest⟩ := Bool.and_eq_true_iff.1 h
    have hsecond := faithful first (by simp) second (by simp) hfirst
    have halike := ih (fun a ha b hb ↦
      faithful a (List.mem_cons_of_mem _ ha) b (List.mem_cons_of_mem _ hb)) hrest
    intro c hc isInside sample
    rcases List.mem_cons.1 hc with rfl | hc
    · rfl
    · rw [halike c hc, hsecond]

/-- A mixture of children that are all alike is the first of them. -/
theorem replaces_alike {r : Replacement ι ℝ} (proper : (node n kind cs).Proper)
    (position : kind.isPositionDependent = true) (plane : kind.coversPlane = true)
    (faithful : Faithful same cs) (h : collapseAlike? same cs = some r) :
    Replaces (node n kind cs) (r.program m) := by
  obtain ⟨hvalid, hregular, hproper⟩ := proper_node.1 proper
  cases cs with
  | nil => cases h
  | cons first cs =>
    rw [collapseAlike?] at h
    split at h
    · rename_i halike
      cases h
      refine ⟨hproper first List.mem_cons_self, fun isInside sample ↦ ?_⟩
      have haccepts := Kind.accepts_of_validate hvalid
      rw [← List.length_map (shade isInside sample)] at haccepts
      obtain ⟨v, hv, hmix⟩ := Kind.exists_mixture sample position haccepts
      rw [shade_node, Kind.shade_of_evaluate hv]
      rcases hmix with hmix | ⟨-, hgap⟩
      · refine (hmix.eq_of_forall fun c hc ↦ ?_).symm
        obtain ⟨d, hd, rfl⟩ := List.mem_map.1 hc
        exact sameColor_of_allAlike faithful halike d hd isInside sample
      · rw [hgap hregular] at plane
        cases plane
    · cases h

/-! ### Layers -/

/-- The layers of a stack may take its place among the layers. -/
theorem layered_flattenLayers (isInside : Path → Bool) (sample : Accuracy → Point ℝ) :
    layered ((flattenLayers cs).map (shade isInside sample)) =
      layered (cs.map (shade isInside sample)) := by
  induction cs with
  | nil => rfl
  | cons c cs ih =>
    obtain ⟨name, k, layers⟩ := c
    cases k with
    | stack =>
      rw [flattenLayers, List.map_append, layered_append, ih, List.map_cons, layered_cons,
        shade_stack_node]
    | _ =>
      show layered ((node name _ layers :: flattenLayers cs).map (shade isInside sample)) = _
      rw [List.map_cons, layered_cons, ih, List.map_cons, layered_cons]

/-- Transparent layers do not show. -/
theorem layered_filter (proper : ∀ c ∈ cs, c.Proper) (isInside : Path → Bool)
    (sample : Accuracy → Point ℝ) :
    layered ((cs.filter (!·.isTransparent)).map (shade isInside sample)) =
      layered (cs.map (shade isInside sample)) := by
  induction cs with
  | nil => rfl
  | cons c cs ih =>
    rw [List.forall_mem_cons] at proper
    rw [List.map_cons, layered_cons, ← ih proper.2]
    by_cases h : c.isTransparent = true
    · rw [List.filter_cons_of_neg (by simp [h]), shade_of_isTransparent proper.1 h, stackBlend_zero]
    · rw [List.filter_cons_of_pos (by simp [h]), List.map_cons, layered_cons]

/-- Layers below an opaque one do not show. -/
theorem layered_visibleLayers (proper : ∀ c ∈ cs, c.Proper) (isInside : Path → Bool)
    (sample : Accuracy → Point ℝ) :
    layered ((visibleLayers cs).map (shade isInside sample)) =
      layered (cs.map (shade isInside sample)) := by
  have huncovered : ∀ ls : List (Program ι ℝ), (∀ c ∈ ls, c.Proper) →
      layered ((uncovered ls).reverse.map (shade isInside sample)) =
        layered (ls.reverse.map (shade isInside sample)) := by
    intro ls hls
    induction ls with
    | nil => rfl
    | cons layer ls ih =>
      rw [List.forall_mem_cons] at hls
      rw [uncovered, List.reverse_cons, List.map_append, layered_append, ← ih hls.2]
      split
      · rename_i hopaque
        rw [List.map_singleton, layered_singleton,
          stackBlend_of_w_eq_one _ (shade_w_of_isOpaque hls.1 hopaque)]
        exact layered_singleton _
      · rw [List.reverse_cons, List.map_append, layered_append]
  have h := huncovered cs.reverse fun c hc ↦ proper c (List.mem_reverse.1 hc)
  rwa [List.reverse_reverse] at h

/-- What a stack is reduced to replaces it. -/
theorem replaces_stack {r : Replacement ι ℝ} (proper : (node n .stack cs).Proper)
    (h : simplifyStack? cs = some r) : Replaces (node n .stack cs) (r.program m) := by
  have within (n : ι) (k : Kind ℝ) (cs : List (Program ι ℝ)) (h : (node n k cs).Proper) :
      ∀ c ∈ cs, c.Proper := (proper_node.1 h).2.2
  have hflat := forall_mem_flattenLayers within (within _ _ _ proper)
  have hfilter : ∀ c ∈ (flattenLayers cs).filter (!·.isTransparent), c.Proper :=
    fun c hc ↦ hflat c (List.mem_filter.1 hc).1
  have hlayers : ∀ c ∈ visibleLayers ((flattenLayers cs).filter (!·.isTransparent)), c.Proper :=
    fun c hc ↦ hfilter c (mem_visibleLayers hc)
  -- Whatever is kept of the layers, they make the same color.
  have hshade (isInside : Path → Bool) (sample : Accuracy → Point ℝ) :
      layered ((visibleLayers ((flattenLayers cs).filter (!·.isTransparent))).map
        (shade isInside sample)) = (node n .stack cs).shade isInside sample := by
    rw [layered_visibleLayers hfilter, layered_filter hflat, layered_flattenLayers,
      shade_stack_node]
  rw [simplifyStack?] at h
  generalize visibleLayers ((flattenLayers cs).filter (!·.isTransparent)) = layers at *
  rcases layers with - | ⟨first, - | ⟨second, layers⟩⟩
  · cases h
    refine ⟨proper_color _, fun isInside sample ↦ ?_⟩
    rw [← hshade]
    exact shade_color _ isInside sample []
  · cases h
    refine ⟨hlayers first List.mem_cons_self, fun isInside sample ↦ ?_⟩
    rw [← hshade]
    exact (layered_singleton _).symm
  · by_cases hchanged : (cs.any (·.kind.isStack) ||
        (first :: second :: layers).length != (flattenLayers cs).length) = true
    · cases (if_pos hchanged).symm.trans h
      refine ⟨proper_node.2 ⟨rfl, trivial, hlayers⟩, fun isInside sample ↦ ?_⟩
      rw [← hshade]
      exact shade_stack_node isInside sample
    · cases (if_neg hchanged).symm.trans h

/-! ### Any rule -/

/-- Two factors one after the other are their product. -/
theorem replaces_alpha {r : Replacement ι ℝ} {factor : ℝ}
    (proper : (node n (.alpha factor) cs).Proper)
    (h : reduceKind? same (.alpha factor) cs = some r) :
    Replaces (node n (.alpha factor) cs) (r.program m) := by
  obtain ⟨hvalid, -, hproper⟩ := proper_node.1 proper
  obtain ⟨c, rfl⟩ := List.length_eq_one_iff.1 (Kind.accepts_of_validate hvalid)
  have hc := hproper c List.mem_cons_self
  unfold reduceKind? at h
  dsimp only at h
  split at h
  · rename_i hone
    have hfactor : factor = 1 := by simpa using hone
    cases h
    refine ⟨hc, fun isInside sample ↦ ?_⟩
    show c.shade isInside sample = _
    rw [shade_alpha, hfactor]
    simp
  · obtain ⟨name, k, grandchildren⟩ := c
    cases k with
    | alpha inner =>
      cases h
      obtain ⟨hvalid', -, hproper'⟩ := proper_node.1 hc
      obtain ⟨d, rfl⟩ := List.length_eq_one_iff.1 (Kind.accepts_of_validate hvalid')
      refine ⟨proper_node.2 ⟨rfl, trivial, hproper'⟩, fun isInside sample ↦ ?_⟩
      show (node m _ [d]).shade isInside sample = _
      rw [shade_alpha, shade_alpha, shade_alpha]
      refine Vec4.ext ?_ ?_ ?_ ?_ <;> simp <;> ring
    | _ => cases h

/-- A conversion after its inverse does nothing. -/
theorem replaces_convert {r : Replacement ι ℝ} {outer : Conversion}
    (proper : (node n (.convert outer) cs).Proper)
    (h : reduceKind? same (.convert outer) cs = some r) :
    Replaces (node n (.convert outer) cs) (r.program m) := by
  obtain ⟨hvalid, -, hproper⟩ := proper_node.1 proper
  obtain ⟨⟨name, k, grandchildren⟩, rfl⟩ :=
    List.length_eq_one_iff.1 (Kind.accepts_of_validate hvalid)
  have hc := hproper _ List.mem_cons_self
  cases k with
  | convert inner =>
    obtain ⟨hvalid', -, hproper'⟩ := proper_node.1 hc
    obtain ⟨d, rfl⟩ := List.length_eq_one_iff.1 (Kind.accepts_of_validate hvalid')
    by_cases hinverse : inner.inverse = outer
    · cases (if_pos hinverse).symm.trans h
      refine ⟨hproper' d List.mem_cons_self, fun isInside sample ↦ ?_⟩
      show d.shade isInside sample = _
      rw [shade_convert, shade_convert, ← hinverse, LosslessConversions.convert_inverse]
    · cases (if_neg hinverse).symm.trans h
  | _ => cases h

/-- What a choice of sides is reduced to replaces it, if its sides are alike. -/
theorem replaces_pathBoolean {r : Replacement ι ℝ} {path : Path}
    (proper : (node n (.pathBoolean path) cs).Proper) (faithful : Faithful same cs)
    (h : reduceKind? same (.pathBoolean path) cs = some r) :
    Replaces (node n (.pathBoolean path) cs) (r.program m) := by
  obtain ⟨hvalid, -, hproper⟩ := proper_node.1 proper
  obtain ⟨inside, outside, rfl⟩ := List.length_eq_two.1 (Kind.accepts_of_validate hvalid)
  by_cases hsame : same inside outside = true
  · cases (if_pos hsame).symm.trans h
    refine ⟨hproper inside List.mem_cons_self, fun isInside sample ↦ ?_⟩
    have halike := faithful inside (by simp) outside (by simp) hsame isInside sample
    show inside.shade isInside sample = _
    rw [shade_node, Kind.shade]
    split
    · rfl
    · exact halike
  · cases (if_neg hsame).symm.trans h

/-- What any node is reduced to replaces it. -/
theorem replaces_of_reduceKind? {r : Replacement ι ℝ} (proper : (node n kind cs).Proper)
    (faithful : Faithful same cs) (h : reduceKind? same kind cs = some r) :
    Replaces (node n kind cs) (r.program m) := by
  cases kind with
  | alpha => exact replaces_alpha proper h
  | convert => exact replaces_convert proper h
  | linearBlend | radialBlend | barycentricBlend | linearGradient =>
    exact replaces_alike proper rfl rfl faithful h
  | radialGradient transform start startRadius stop stopRadius ratios extend accuracy =>
    by_cases hplane :
        (Kind.circlePair transform start startRadius stop stopRadius).coversPlane = true
    · exact replaces_alike proper rfl hplane faithful ((if_pos hplane).symm.trans h)
    · cases (if_neg hplane).symm.trans h
  | stack => exact replaces_stack proper h
  | blendCompose compose blend =>
    obtain ⟨a, b, rfl⟩ :=
      List.length_eq_two.1 (Kind.accepts_of_validate (proper_node.1 proper).1)
    match compose, blend with
    | .over, .normal => exact replaces_over proper h
  | pathBoolean => exact replaces_pathBoolean proper faithful h
  | color | premultiply | unpremultiply | normalize | filter | phong => cases h

/-- What a node is reduced to has its color. -/
theorem replaces_of_reduce? {r : Replacement ι ℝ} (proper : (node n kind cs).Proper)
    (faithful : Faithful same cs) (h : reduce? same (node n kind cs) = some r) :
    Replaces (node n kind cs) (r.program m) := by
  rw [reduce?] at h
  split at h
  · cases h
  · split at h
    · rename_i htransparent
      cases h
      exact replaces_transparent proper htransparent
    · split at h
      · rename_i value hvalue
        cases h
        exact replaces_constant hvalue
      · exact replaces_of_reduceKind? proper faithful h

end Shading
