import Shading.Proofs.Program.Retention
import Shading.Proofs.Sharing

/-!
# Flags through simplification

What flags tell of valid programs: none is flagged both as transparent and as opaque; the more is
told of the children of a node, the more is told of the node; and a program is told as much of after
its simplification, or over children that are simplified, as before
(`coverage_exclusive_and_kept`).

The last of this has an exception, and only one. Compositions of constants are computed, and alphas
are not confined to the unit interval. So what counts as opaque, because one of two colors is, may
become a constant whose alpha is not one (`simplified_loses_coverage`). Flags are kept exactly if
this does not happen.
-/

namespace Shading

variable {R : Type}

open Program

/-! ### Unfolded programs -/

theorem formed_unfold {p : Shared R} (h : p.Formed) : p.unfold.Formed := by
  induction h with
  | @node n k cs haccepts _ ih =>
    rw [unfold_node]
    exact .node (by rwa [List.length_map]) (List.forall_mem_map.2 ih)

/-- Flags do not depend on sharing. -/
theorem flags_unfold [Scalar R] (p : Shared R) : p.unfold.flags = p.flags :=
  fold_rename (fun _ ↦ ()) Kind.flags p

/-! ### Answers in a session -/

variable [ColorModel R] [NaNLaws R] {w : Workspace R} {ps : List (Shared R)} {p : Shared R}

/-- What a part is answered with once a program is simplified is simplified as its unfolded tree. -/
theorem unfold_answer {q : Shared R} {answer : Shared R → Shared R} {w' : Workspace R}
    (session : Session w ps) (hp : p ∈ ps) (hq : q ∈ ps) (free : q.NaNFree)
    (runs : Build.simplified p w = (answer p, w'))
    (stays : Build.simplified q w' = (answer q, w')) :
    (answer q).unfold = Tree.simplified q.unfold := by
  have later := session.simplified hp
  rw [runs] at later
  rw [← unfold_simplified later (List.mem_cons_of_mem _ hq) free, stays]

/-- Simplifying in a session gives the flags of simplifying the unfolded tree. -/
theorem flags_simplified (session : Session w ps) (mem : p ∈ ps) (free : p.NaNFree) :
    (Build.simplified p w).1.flags = (Tree.simplified p.unfold).flags := by
  rw [← flags_unfold, unfold_simplified session mem free]

/-! ### What is kept -/

/-- What is known of a program stays known: of the answer for it, and of its kind over the answers
for its children. -/
structure KeepsFlags (answer : Shared R → Shared R) (p : Shared R) : Prop where
  own : p.flags.coverage.Le (answer p).flags.coverage
  children : p.flags.coverage.Le
    (p.kind.flags (p.children.map fun c ↦ (answer c).flags)).coverage

variable {answer : Shared R → Shared R}

/-- Where the answers for opaque parts are constants, these have alpha one. -/
def KeepsAlpha (answer : Shared R → Shared R) (p : Shared R) : Prop :=
  ∀ q, q.Part p → q.isOpaque = true → ∀ v, (answer q).color? = some v → (v.w == 1) = true

omit [NaNLaws R] in
/-- If simplifying keeps the alphas of opaque parts, it keeps those of the unfolded tree. -/
theorem keepsAlpha_unfold (unfolds : ∀ q, q.Part p → (answer q).unfold = Tree.simplified q.unfold)
    (keeps : KeepsAlpha answer p) : p.unfold.KeepsAlpha := by
  intro t part hopaque v hv
  obtain ⟨q, hq, rfl⟩ := exists_part_of_unfold part
  rw [← unfolds q hq] at hv
  exact keeps q hq ((isOpaque_rename _ q).symm.trans hopaque) v ((color?_rename _ _).symm.trans hv)

variable [DistinctUnits R]

/-- Flags are kept at all parts exactly if alphas are. -/
theorem keepsFlags_iff (formed : p.Formed)
    (unfolds : ∀ q, q.Part p → (answer q).unfold = Tree.simplified q.unfold) :
    (∀ q, q.Part p → KeepsFlags answer q) ↔ KeepsAlpha answer p := by
  refine ⟨fun keeps q part hopaque v hv ↦ ?_, fun keeps ↦ ?_⟩
  · exact (isOpaque_of_color? hv).symm.trans ((keeps q part).own.covers hopaque)
  · have halpha := keepsAlpha_unfold unfolds keeps
    have hown (q : Shared R) (part : q.Part p) : q.flags.coverage.Le (answer q).flags.coverage := by
      rw [← flags_unfold q, ← flags_unfold (answer q), unfolds q part]
      exact Tree.le_simplified (formed_unfold (formed.of_part part))
        (halpha.of_part (unfold_part part))
    refine fun q part ↦ ⟨hown q part, ?_⟩
    obtain ⟨n, k, cs⟩ := q
    rw [flags_node]
    refine k.coverage_mono (tellMore_map fun c hc ↦ ?_)
    exact hown c (Part.trans (.child hc (.refl c)) part)

/-! ### Ink -/

/-- Ink, of which there may be less than nothing. -/
def ink (n : Nat) (alpha : Float) : Shared Float := .node n (.color ⟨0, 0, 0, alpha⟩) []

/-- Some ink and all of it, composed. -/
def mixedInk (alpha : Float) (compose : Compose) : Shared Float :=
  .node 2 (.blendCompose compose .normal) [ink 0 alpha, ink 1 1]

/-- From a mixture of ink to ink. -/
def inkRamp (alpha : Float) (compose : Compose) : Shared Float :=
  .node 3 (.linearBlend ⟨⟨1, 0⟩, 0⟩ .unsplitPixelCenter) [mixedInk alpha compose, ink 1 1]

section

variable {alpha : Float} {compose : Compose}

theorem session_inkRamp (alpha : Float) (compose : Compose) : Session ⟨4, {}⟩
    [inkRamp alpha compose, mixedInk alpha compose, ink 1 1, ink 0 alpha] := by
  have hfirst : Session ⟨1, {}⟩ [ink 0 alpha] := .node (.color ⟨0, 0, 0, alpha⟩) .start nofun
  have hsecond : Session ⟨2, {}⟩ [ink 1 1, ink 0 alpha] :=
    .node (.color ⟨0, 0, 0, 1⟩) hfirst nofun
  have hmixed : Session ⟨3, {}⟩ [mixedInk alpha compose, ink 1 1, ink 0 alpha] :=
    .node (.blendCompose compose .normal) hsecond (by simp)
  exact .node (.linearBlend ⟨⟨1, 0⟩, 0⟩ .unsplitPixelCenter) hmixed (by simp)

theorem valid_mixedInk (valid : (ink 0 alpha).Valid) : (mixedInk alpha compose).Valid :=
  .node rfl (List.forall_mem_cons.2 ⟨valid, List.forall_mem_singleton.2 (.node rfl nofun)⟩)

theorem valid_inkRamp (valid : (ink 0 alpha).Valid) : (inkRamp alpha compose).Valid :=
  .node rfl (List.forall_mem_cons.2 ⟨valid_mixedInk valid,
    List.forall_mem_singleton.2 (.node rfl nofun)⟩)

/-- The ramp has four parts. -/
theorem mem_of_part_inkRamp {q : Shared Float} (part : q.Part (inkRamp alpha compose)) :
    q ∈ [inkRamp alpha compose, mixedInk alpha compose, ink 1 1, ink 0 alpha] := by
  simp only [inkRamp, mixedInk, ink, part_node, List.mem_cons, List.not_mem_nil, or_false,
    exists_eq_or_imp, false_and, exists_false, exists_eq_left] at part ⊢
  tauto

/-- The color of mixed ink. -/
def mixture (alpha : Float) (compose : Compose) : Vec4 Float :=
  blendCompose ⟨0, 0, 0, alpha⟩ ⟨0, 0, 0, 1⟩ compose .normal

variable (alpha compose)

/-- The mixture is computed, if it is visible and finite. -/
theorem simplified_mixedInk (visible : (mixedInk alpha compose).unfold.isTransparent = false)
    (finite : (mixture alpha compose).isFinite = true) :
    Tree.simplified (mixedInk alpha compose).unfold =
      .node () (.color (mixture alpha compose)) [] := by
  have hunfold : (mixedInk alpha compose).unfold = .node () (.blendCompose compose .normal)
      [.node () (.color ⟨0, 0, 0, alpha⟩) [], .node () (.color ⟨0, 0, 0, 1⟩) []] := by
    simp only [mixedInk, ink, unfold_node, List.map_cons, List.map_nil]
  have hreduce : reduce? Tree.eq (mixedInk alpha compose).unfold =
      some (.fresh (.color (mixture alpha compose)) []) := by
    have hfold : (mixedInk alpha compose).unfold.kind.foldConstant?
        (mixedInk alpha compose).unfold.children = some (mixture alpha compose) := by
      rw [hunfold]
      exact if_pos finite
    rw [reduce?, visible, hfold, hunfold]
    rfl
  rw [hunfold] at hreduce ⊢
  rw [Tree.simplified_node]
  simp only [List.map_cons, List.map_nil, Tree.simplified_color, hreduce]
  exact Tree.simplified_color _

/-- The ramp once the mixture is computed. -/
def computedRamp (alpha : Float) (compose : Compose) : Tree Float :=
  .node () (.linearBlend ⟨⟨1, 0⟩, 0⟩ .unsplitPixelCenter)
    [.node () (.color (mixture alpha compose)) [], .node () (.color ⟨0, 0, 0, 1⟩) []]

/-- The ramp is simplified as if its mixture had been computed before. -/
theorem simplified_inkRamp (visible : (mixedInk alpha compose).unfold.isTransparent = false)
    (finite : (mixture alpha compose).isFinite = true) :
    Tree.simplified (inkRamp alpha compose).unfold =
      Tree.simplified (computedRamp alpha compose) := by
  have hink : (ink 1 1).unfold = .node () (.color ⟨0, 0, 0, 1⟩) [] := by
    simp only [ink, unfold_node, List.map_nil]
  rw [inkRamp, unfold_node, computedRamp, Tree.simplified_node, Tree.simplified_node]
  simp only [List.map_cons, List.map_nil, simplified_mixedInk _ _ visible finite, hink,
    Tree.simplified_color]

end

/-! ### Flags through simplification -/

/-- No valid program is flagged as transparent and as opaque; flags of children that tell more make
the flags of a node tell more; and simplifying a valid program of a session keeps what flags tell of
all its parts, and of them over their simplified children, exactly if its opaque parts become
constants only where these have alpha one. -/
theorem coverage_exclusive_and_kept :
    (∀ p : Shared R, p.Valid → ¬(p.isTransparent = true ∧ p.isOpaque = true)) ∧
      (∀ (k : Kind R) (fs gs : List Flags),
        TellMore fs gs → (k.flags fs).coverage.Le (k.flags gs).coverage) ∧
      ∀ (w : Workspace R) (ps : List (Shared R)), Session w ps → ∀ p ∈ ps, p.Valid →
        ∃ answer w', Build.simplified p w = (answer p, w') ∧
          (∀ q, q.Part p → Build.simplified q w' = (answer q, w')) ∧
          ((∀ q, q.Part p → KeepsFlags answer q) ↔ KeepsAlpha answer p) := by
  refine ⟨fun p valid ↦ ?_, fun k fs gs h ↦ k.coverage_mono h, fun w ps session p mem valid ↦ ?_⟩
  · exact Coverage.exclusive_iff.1 (exclusive_of_formed valid.formed)
  · obtain ⟨answer, w', hrun, hparts⟩ := exists_faithfulAnswer session mem valid.nanFree
    exact ⟨answer, w', hrun, fun q part ↦ (hparts q part).stays _ _ .refl,
      keepsFlags_iff valid.formed fun q part ↦ (hparts q part).unfolds⟩

/-- Half of ink over ink is ink, and nothing is lost. -/
theorem keepsFlags_inkRamp :
    Session ⟨4, {}⟩ [inkRamp 0.5 .over, mixedInk 0.5 .over, ink 1 1, ink 0 0.5] ∧
      (inkRamp 0.5 .over).Valid ∧ (inkRamp 0.5 .over).isOpaque = true ∧
      ∃ answer w', Build.simplified (inkRamp 0.5 .over) ⟨4, {}⟩ =
          (answer (inkRamp 0.5 .over), w') ∧
        ∀ q, q.Part (inkRamp 0.5 .over) → KeepsFlags answer q := by
  have session := session_inkRamp 0.5 .over
  have valid : (inkRamp 0.5 .over).Valid := valid_inkRamp (.node rfl nofun)
  obtain ⟨answer, w', hrun, hparts, hkeeps⟩ :=
    coverage_exclusive_and_kept.2.2 _ _ session _ List.mem_cons_self valid
  refine ⟨session, valid, rfl, answer, w', hrun, hkeeps.2 fun q part hopaque v hv ↦ ?_⟩
  have hmem := mem_of_part_inkRamp part
  have hanswer := unfold_answer session List.mem_cons_self hmem (valid.nanFree.of_part part) hrun
    (hparts q part)
  have hv : (Tree.simplified q.unfold).color? = some v := by
    rw [← hanswer]
    exact (color?_rename _ _).trans hv
  have hmixed := simplified_mixedInk 0.5 .over rfl rfl
  have hink : Tree.simplified (ink 1 1).unfold = .node () (.color ⟨0, 0, 0, 1⟩) [] :=
    Tree.simplified_color _
  simp only [List.mem_cons, List.not_mem_nil, or_false] at hmem
  rcases hmem with rfl | rfl | rfl | rfl
  · have hreduce : reduce? Tree.eq (computedRamp 0.5 .over) =
        some (.existing (.node () (.color (mixture 0.5 .over)) [])) := rfl
    rw [computedRamp] at hreduce
    rw [simplified_inkRamp _ _ rfl rfl, computedRamp, Tree.simplified_node] at hv
    simp only [List.map_cons, List.map_nil, Tree.simplified_color, hreduce,
      Replacement.program] at hv
    cases hv
    rfl
  · rw [hmixed] at hv
    cases hv
    rfl
  · rw [hink] at hv
    cases hv
    rfl
  · cases hopaque

/-- Ink that is cancelled, but flagged as opaque since half of it is: a ramp of it to ink is not
flagged so after simplification, nor over its simplified children. -/
theorem simplified_loses_coverage :
    Session ⟨4, {}⟩
        [inkRamp (-1) .plusLighter, mixedInk (-1) .plusLighter, ink 1 1, ink 0 (-1)] ∧
      (inkRamp (-1) .plusLighter).Valid ∧
      (inkRamp (-1) .plusLighter).flags.covers = true ∧
      (Build.simplified (inkRamp (-1) .plusLighter) ⟨4, {}⟩).1.flags.covers = false ∧
      ((inkRamp (-1) .plusLighter).kind.flags ((inkRamp (-1) .plusLighter).children.map fun c ↦
        (Build.simplified c ⟨4, {}⟩).1.flags)).covers = false := by
  have session := session_inkRamp (-1) .plusLighter
  have validMixture : (mixedInk (-1) .plusLighter).Valid := valid_mixedInk (.node rfl nofun)
  have valid : (inkRamp (-1) .plusLighter).Valid := valid_inkRamp (.node rfl nofun)
  have hramp := flags_simplified session (p := inkRamp (-1) .plusLighter) (by simp) valid.nanFree
  have hmixed := flags_simplified session (p := mixedInk (-1) .plusLighter) (by simp)
    validMixture.nanFree
  rw [simplified_mixedInk (-1) .plusLighter rfl rfl] at hmixed
  have hcolor : (node () (.color (mixture (-1) .plusLighter)) [] : Tree Float).isOpaque = false :=
    (isOpaque_of_color? rfl).trans rfl
  have hblend (f : Flags) (fs : List Flags) (hf : f.covers = false) :
      ((inkRamp (-1) .plusLighter).kind.flags (f :: fs)).covers = false :=
    Bool.and_eq_false_iff.2 (.inl hf)
  refine ⟨session, valid, rfl, ?_, ?_⟩
  · have hreduce : reduce? Tree.eq (computedRamp (-1) .plusLighter) = none := rfl
    rw [computedRamp] at hreduce
    rw [hramp, simplified_inkRamp (-1) .plusLighter rfl rfl, computedRamp, Tree.simplified_node]
    simp only [List.map_cons, List.map_nil, Tree.simplified_color, hreduce, flags_node]
    exact hblend _ _ hcolor
  · exact hblend _ _ ((congrArg Flags.covers hmixed).trans hcolor)

end Shading
