import Shading.Proofs.Program.Alike
import Shading.Proofs.Program.Reduction
import Shading.Proofs.Program.Sessions

/-!
# Simplification keeps the meaning

In exact arithmetic, and with conversions that lose nothing, a program and its simplification have
the same color in every context once the sides of paths are chosen. What the steps of the simplifier
keep is that a proper program is replaced by a proper one of the same color
(`simplifying_replaces`). Programs come from a session, so the simplifier may have met any of their
nodes before.
-/

namespace Shading

variable [LosslessConversions]

open Program

/-- Known programs that are found equal have the same color. -/
theorem faithful_of_known {nodes : Nodes ℝ} {cs : List (Shared ℝ)}
    (known : ∀ c ∈ cs, c.Known nodes) : Faithful Shared.eq cs := by
  intro a ha b hb h isInside sample
  refine fold_eq_of_eq (P := Shared.Known nodes) (fun _ _ _ hp ↦ hp.of_mem) ?_ (known a ha)
    (known b hb) h
  intro p q hp hq hname
  rw [hp.eq_of_identical hq hname]

/-- A node may be replaced by one over replaced children. -/
theorem replaces_of_forall₂ {n m : Nat} {k : Kind ℝ} {cs ds : List (Shared ℝ)}
    (proper : (node n k cs).Proper) (h : List.Forall₂ Replaces cs ds) :
    Replaces (node n k cs) (node m k ds) := by
  obtain ⟨hvalid, hregular, -⟩ := proper_node.1 proper
  rw [h.length_eq] at hvalid
  have hds := forall_mem_of_forall₂ h fun _ _ hd ↦ hd.proper
  refine ⟨proper_node.2 ⟨hvalid, hregular, hds⟩, fun isInside sample ↦ ?_⟩
  have hmap := map_eq_of_forall₂ (h.imp fun _ _ hd ↦ hd.shade_eq isInside sample)
  rw [shade_node, shade_node, hmap]

/-- The steps of the simplifier replace proper programs by such of the same color. -/
theorem simplifying_replaces :
    Simplifying fun p q : Shared ℝ ↦ p.Proper → Replaces p q where
  refl _ proper := ⟨proper, fun _ _ ↦ rfl⟩
  trans hpq hqr proper := by
    have hq := hpq proper
    have hr := hqr hq.proper
    exact ⟨hr.proper, fun isInside sample ↦
      (hr.shade_eq isInside sample).trans (hq.shade_eq isInside sample)⟩
  node h proper := by
    have hproper := (proper_node.1 proper).2.2
    have hchildren := (List.forall₂_and_left _ _).2 ⟨hproper, h⟩
    exact replaces_of_forall₂ proper (hchildren.imp fun _ _ hc ↦ hc.2 hc.1)
  reduce {_ p _ _} known h proper := by
    obtain ⟨n, k, cs⟩ := p
    exact replaces_of_reduce? proper (faithful_of_known known.of_mem) h

/-- Choosing the sides of paths leaves a program that evaluates to the color on these sides. -/
theorem evaluate_of_resolves {isInside : Path → Bool} {p q : Shared ℝ}
    (h : Resolves isInside p q) (ctx : Context ℝ) :
    q.evaluate ctx = .ok (if ctx.premultiplied then p.shade isInside ctx.samplePoint
      else unpremultiply (p.shade isInside ctx.samplePoint)) := by
  have hshade : q.shade isInside ctx.samplePoint = p.shade isInside ctx.samplePoint := by
    refine h.fold_eq _ fun path a b ↦ ?_
    rw [Kind.shade]
    split <;> rfl
  rw [evaluate, evaluateAt_eq_shade isInside ctx.samplePoint h.valid h.pathFree, hshade]
  rfl

/-- A program of a session and its simplification have the same color, on whatever sides of paths
and in whatever context. -/
theorem evaluate_simplified {w : Workspace ℝ} {ps : List (Shared ℝ)} (session : Session w ps)
    {p : Shared ℝ} (mem : p ∈ ps) (valid : p.Valid) (regular : p.Everywhere Kind.Regular)
    (isInside : Path → Bool) (ctx : Context ℝ) :
    ∃ color,
      ((do Build.withPathInclusion isInside (← Build.simplified p)) w).1.evaluate ctx = .ok color ∧
      (Build.withPathInclusion isInside p w).1.evaluate ctx = .ok color := by
  -- Either way the sides are chosen last, and for a program with the color of the given one.
  obtain ⟨nodes, hw, known⟩ := session.allKnown simplifying_replaces
  obtain ⟨_, _, _, -, hresolves⟩ := Build.yields_withPathInclusion isInside (known p mem) w hw
  have hchosen : Build.Yields (fun p q ↦ p.Proper → Replaces p q) nodes
      (do Build.withPathInclusion isInside (← Build.simplified p)) fun _ r ↦
        ∃ q, Replaces p q ∧ Resolves isInside q r := by
    refine (Build.yields_simplified simplifying_replaces (known p mem)).bind
      fun _ q _ ⟨hknown, hq⟩ ↦ ?_
    have hreplaces := hq ⟨valid, regular⟩
    refine (Build.yields_withPathInclusion isInside hknown).imp fun _ r _ ⟨_, hr⟩ ↦ ?_
    exact ⟨q, hreplaces, hr hreplaces.proper.valid⟩
  obtain ⟨_, _, _, q, hreplaces, hresolves'⟩ := hchosen w hw
  refine ⟨_, ?_, evaluate_of_resolves (hresolves valid) ctx⟩
  rw [← hreplaces.shade_eq]
  exact evaluate_of_resolves hresolves' ctx

/-- Conversions that leave colors as they are. -/
@[reducible]
def LosslessConversions.idle : LosslessConversions where
  convert _ v := v
  convert_w _ _ := rfl
  convert_zero _ := rfl
  convert_inverse _ _ := rfl

noncomputable def blackLayer : Shared ℝ := .node 0 (.color ⟨0, 0, 0, 1⟩) []

noncomputable def clearLayer : Shared ℝ := .node 1 (.color .zero) []

noncomputable def pathLayer : Shared ℝ :=
  .node 2 (.pathBoolean ⟨0, .nonZero⟩) [blackLayer, clearLayer]

/-- Black inside a path, with a transparent layer on top. -/
noncomputable def pathLayers : Shared ℝ := .node 3 .stack [pathLayer, clearLayer]

theorem session_pathLayers :
    Session ⟨4, {}⟩ [pathLayers, pathLayer, clearLayer, blackLayer] := by
  have hblack : Session ⟨1, {}⟩ [blackLayer] := .node (.color ⟨0, 0, 0, 1⟩) .start nofun
  have hclear : Session ⟨2, {}⟩ [clearLayer, blackLayer] := .node (.color .zero) hblack nofun
  have hpath : Session ⟨3, {}⟩ [pathLayer, clearLayer, blackLayer] :=
    .node (.pathBoolean ⟨0, .nonZero⟩) hclear (by simp)
  exact .node .stack hpath (by simp)

omit [LosslessConversions] in
theorem proper_pathLayers : pathLayers.Proper := by
  have hblack : blackLayer.Proper := proper_color _
  have hclear : clearLayer.Proper := proper_color _
  have hpath : pathLayer.Proper := proper_node.2 ⟨rfl, trivial, by simp [hblack, hclear]⟩
  exact proper_node.2 ⟨rfl, trivial, by simp [hpath, hclear]⟩

omit [LosslessConversions] in
/-- The side of a path is chosen before or after a transparent layer is dropped. -/
theorem evaluate_simplified_pathLayers :
    letI : LosslessConversions := .idle
    Session ⟨4, {}⟩ [pathLayers, pathLayer, clearLayer, blackLayer] ∧
    pathLayers.Valid ∧ pathLayers.Everywhere Kind.Regular ∧
    ∃ color,
      ((do Build.withPathInclusion (·.id == 0) (← Build.simplified pathLayers))
        ⟨4, {}⟩).1.evaluate (Context.fullPixel 0 0) = .ok color ∧
      (Build.withPathInclusion (·.id == 0) pathLayers ⟨4, {}⟩).1.evaluate
        (Context.fullPixel 0 0) = .ok color := by
  let _ : LosslessConversions := .idle
  have hproper := proper_pathLayers
  exact ⟨session_pathLayers, hproper.valid, hproper.regular,
    evaluate_simplified session_pathLayers List.mem_cons_self hproper.valid hproper.regular
      (·.id == 0) (Context.fullPixel 0 0)⟩

end Shading
