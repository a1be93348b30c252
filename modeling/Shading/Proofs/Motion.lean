import Shading.Proofs.Exact.Motions
import Shading.Proofs.Exact.Standard
import Shading.Proofs.Program.Evaluation
import Shading.Proofs.Program.Sessions

/-!
# Programs that are moved

With exact numbers, a program that is moved by an affine map has at the image of a point the color
that it had at the point before (`evaluate_transformed`). Every kind that reads the position is
moved along, each in its own way (`Kind.evaluate_moved`), and the other kinds do not notice.

Only triangles are a reason for doubt. A triangle of a small area is taken for a degenerate one, and
a motion may make an area small, or large enough to count (`Kind.KeepsTriangle`). One that keeps
areas does neither (`Kind.keepsTriangle_of_area`).
-/

namespace Shading

variable {m : Affine ℝ} {sample sample' : Accuracy → Point ℝ}

/-- A motion that is accepted does not collapse the plane. -/
theorem determinant_ne_zero_of_accepted {what : Quantity} {t : Affine ℝ}
    (accepted : checkTransform what t = .ok ()) : t.determinant ≠ 0 :=
  Affine.determinant_ne_zero_of_isInvertible
    (require_eq_ok_iff.1 (check_bind_eq_ok_iff.1 accepted).2)

namespace Kind

/-- Whether a triangle counts as degenerate is the same before the motion and after. -/
def KeepsTriangle (m : Affine ℝ) : Kind ℝ → Prop
  | .barycentricBlend corners .. =>
    Triangle.inverseDeterminantOf corners = 0 ↔
      Triangle.inverseDeterminantOf (corners.map m.apply) = 0
  | _ => True

/-- A motion that keeps areas keeps triangles from becoming degenerate. -/
theorem keepsTriangle_of_area (h : |m.determinant| = 1) (k : Kind ℝ) : k.KeepsTriangle m := by
  cases k with
  | barycentricBlend corners => exact (Triangle.inverseDeterminantOf_map_eq_zero_iff h).symm
  | _ => trivial

/-- A kind that is moved finds at the image of the sample what it found at the sample. -/
theorem evaluate_moved (hm : m.determinant ≠ 0) {k : Kind ℝ} {count : Nat}
    (valid : k.validate count = .ok ()) (keeps : k.KeepsTriangle m)
    (moved : ∀ accuracy, sample' accuracy = m.apply (sample accuracy))
    (answers : List (Answer ℝ)) :
    ((k.transformed? m).getD k).evaluate sample' answers = k.evaluate sample answers := by
  -- Besides the parameters, the answers only depend on the name of the kind, which is the same.
  cases k with
  | linearBlend ramp accuracy =>
    rw [transformed?, Option.getD_some, evaluate, evaluate, moved, LinearRamp.ratio_moved hm]
    rfl
  | radialBlend t radius0 radius1 accuracy =>
    have ht := determinant_ne_zero_of_accepted (check_bind_eq_ok_iff.1 valid).1
    rw [transformed?, Option.getD_some, evaluate, evaluate, moved]
    rw [RadialRamp.ratio_moved hm ht]
    rfl
  | barycentricBlend corners depths accuracy =>
    rw [transformed?, Option.getD_some, evaluate, evaluate, moved]
    rw [Triangle.weights_moved hm depths keeps]
    rfl
  | linearGradient t start stop ratios extend accuracy =>
    have ht := determinant_ne_zero_of_accepted (check_bind_eq_ok_iff.1 valid).1
    rw [transformed?, Option.getD_some, evaluate, evaluate, moved]
    rw [linearAxis_ratio_moved hm ht]
    rfl
  | radialGradient t start startRadius stop stopRadius ratios extend accuracy =>
    have ht := determinant_ne_zero_of_accepted (check_bind_eq_ok_iff.1 valid).1
    rw [transformed?, Option.getD_some, evaluate, evaluate, moved, circlePair_ratio?_moved hm ht]
    rfl
  | _ => rfl

end Kind

namespace Program

variable {ι : Type}

/-- Evaluating with every kind moved, at the image of a sample, is evaluating at the sample. -/
theorem fold_moved (hm : m.determinant ≠ 0)
    (moved : ∀ accuracy, sample' accuracy = m.apply (sample accuracy)) {p : Program ι ℝ}
    (valid : p.Valid) (keeps : p.Everywhere (Kind.KeepsTriangle m)) :
    (p.fold fun k (answers : List (Answer ℝ)) _ ↦
        ((k.transformed? m).getD k).evaluate sample' answers) =
      p.fold fun k answers _ ↦ k.evaluate sample answers := by
  induction valid with
  | @node n k cs hvalid _ ih =>
    obtain ⟨hk, hcs⟩ := keeps
    rw [fold_node, fold_node, List.map_congr_left fun c hc ↦ ih c hc (hcs c hc)]
    exact funext fun _ ↦ Kind.evaluate_moved hm hvalid hk moved _

end Program

open Program

/-- A moved program has at moved samples the colors that it had. -/
theorem Moved.evaluate_eq {p q : Shared ℝ} (h : Moved m p q) (hm : m.determinant ≠ 0)
    (valid : p.Valid) (keeps : p.Everywhere (Kind.KeepsTriangle m)) {ctx ctx' : Context ℝ}
    (premultiplied : ctx'.premultiplied = ctx.premultiplied)
    (moved : ∀ accuracy, ctx'.samplePoint accuracy = m.apply (ctx.samplePoint accuracy)) :
    q.evaluate ctx' = p.evaluate ctx := by
  have hfold := (h fun k answers _ ↦ k.evaluate ctx'.samplePoint answers).trans
    (fold_moved hm moved valid keeps)
  rw [evaluate, evaluate, evaluateAt, evaluateAt, hfold, premultiplied]

/-- A valid program of a session that has no paths can be moved by every map that is accepted, and
draws the same picture elsewhere: in a context whose samples are the images of those of another
context it has the color that the program has in the other one. -/
theorem evaluate_transformed {w : Workspace ℝ} {ps : List (Shared ℝ)} (session : Session w ps)
    {p : Shared ℝ} (mem : p ∈ ps) (valid : p.Valid) (pathFree : p.PathFree)
    (accepted : checkTransform .programTransform m = .ok ())
    (keeps : p.Everywhere (Kind.KeepsTriangle m)) :
    ∃ q, (Build.transformed m p w).1 = .ok q ∧
      ∀ ctx ctx' : Context ℝ, ctx'.premultiplied = ctx.premultiplied →
        (∀ accuracy, ctx'.samplePoint accuracy = m.apply (ctx.samplePoint accuracy)) →
        ∃ color, q.evaluate ctx' = .ok color ∧ p.evaluate ctx = .ok color := by
  obtain ⟨nodes, hw, known⟩ := session.allKnown simplifying_true
  obtain ⟨_, -, -, q, hq, -, hmoved⟩ := Build.yields_moved accepted (known p mem) w hw
  refine ⟨q, hq, fun ctx ctx' premultiplied moved ↦ ?_⟩
  obtain ⟨color, hcolor⟩ := exists_evaluate valid.formed pathFree ctx
  refine ⟨color, ?_, hcolor⟩
  rw [← hcolor]
  exact hmoved.evaluate_eq (determinant_ne_zero_of_accepted accepted) valid keeps premultiplied
    moved

/-! ### A triangle that is slanted -/

noncomputable def redCorner : Shared ℝ := .node 0 (.color ⟨1, 0, 0, 1⟩) []

noncomputable def greenCorner : Shared ℝ := .node 1 (.color ⟨0, 1, 0, 1⟩) []

noncomputable def blendedCorner : Shared ℝ :=
  .node 2 (.linearBlend ⟨⟨1, 0⟩, 0⟩ .unsplitPixelCenter) [redCorner, greenCorner]

/-- A triangle with a blend at one of its corners, and the colors of the blend at the others. -/
noncomputable def blendedTriangle : Shared ℝ :=
  .node 3 (.barycentricBlend ⟨⟨0, 0⟩, ⟨1, 0⟩, ⟨0, 1⟩⟩ none .unsplitPixelCenter)
    [redCorner, greenCorner, blendedCorner]

/-- A shear along the second axis, and a translation along the first one. -/
noncomputable def slant : Affine ℝ := ⟨1, 2, 0, 1, 5, 0⟩

theorem session_blendedTriangle :
    Session ⟨4, {}⟩ [blendedTriangle, blendedCorner, greenCorner, redCorner] := by
  have hred : Session ⟨1, {}⟩ [redCorner] := .node (.color ⟨1, 0, 0, 1⟩) .start nofun
  have hgreen : Session ⟨2, {}⟩ [greenCorner, redCorner] :=
    .node (.color ⟨0, 1, 0, 1⟩) hred nofun
  have hblended : Session ⟨3, {}⟩ [blendedCorner, greenCorner, redCorner] :=
    .node (.linearBlend ⟨⟨1, 0⟩, 0⟩ .unsplitPixelCenter) hgreen (by simp)
  exact .node (.barycentricBlend ⟨⟨0, 0⟩, ⟨1, 0⟩, ⟨0, 1⟩⟩ none .unsplitPixelCenter) hblended
    (by simp)

theorem valid_blendedTriangle : blendedTriangle.Valid := by
  have hred : redCorner.Valid := .node rfl nofun
  have hgreen : greenCorner.Valid := .node rfl nofun
  have hblended : blendedCorner.Valid := .node rfl (by simp [hred, hgreen])
  exact .node rfl (by simp [hred, hgreen, hblended])

theorem pathFree_blendedTriangle : blendedTriangle.PathFree := by
  have hred : redCorner.PathFree := .node rfl nofun
  have hgreen : greenCorner.PathFree := .node rfl nofun
  have hcorners : ∀ c ∈ [redCorner, greenCorner], c.PathFree := by simp [hred, hgreen]
  have hblended : blendedCorner.PathFree := .node rfl hcorners
  have hall : ∀ c ∈ [redCorner, greenCorner, blendedCorner], c.PathFree := by
    simp [hred, hgreen, hblended]
  exact .node rfl hall

theorem slant_accepted : checkTransform .programTransform slant = .ok () := by
  have hinvertible : slant.isInvertible = true := by
    have hsmall : ((1 : Nat) : ℝ) / ((4503599627370496 : Nat) : ℝ) < 1 := by norm_num
    simpa [slant, Affine.isInvertible, Affine.determinant, Scalar.doubleEpsilon] using hsmall
  exact check_bind_eq_ok_iff.2 ⟨rfl, require_eq_ok_iff.2 hinvertible⟩

theorem keepsTriangle_slant (p : Shared ℝ) : p.Everywhere (Kind.KeepsTriangle slant) := by
  have harea : |slant.determinant| = 1 := by simp [slant, Affine.determinant_eq]
  induction p using Program.induct with
  | node n k cs ih => exact .node (k.keepsTriangle_of_area harea) ih

/-- The pixel at (5, 1) has its center where the slant takes the center of the first one. -/
theorem samplePoint_slanted (accuracy : Accuracy) :
    (Context.fullPixel 5 1 : Context ℝ).samplePoint accuracy =
      slant.apply ((Context.fullPixel 0 0 : Context ℝ).samplePoint accuracy) := by
  have hcenter : (Context.fullPixel 5 1 : Context ℝ).bounds.center =
      slant.apply (Context.fullPixel 0 0 : Context ℝ).bounds.center := by
    refine Point.ext_real ?_ ?_ <;>
      simp [Context.fullPixel, Rect.center, slant, Affine.apply_eq, Scalar.ofInt,
        Scalar.decimal] <;>
      norm_num
  simpa [Context.samplePoint, Context.centroidOrCenter, Context.fullPixel, Context.pixelCenter]
    using hcenter

/-- A triangle over a composition, moved by a slant. -/
theorem evaluate_slanted :
    Session ⟨4, {}⟩ [blendedTriangle, blendedCorner, greenCorner, redCorner] ∧
    blendedTriangle.Valid ∧ blendedTriangle.PathFree ∧
    checkTransform .programTransform slant = .ok () ∧
    blendedTriangle.Everywhere (Kind.KeepsTriangle slant) ∧
    (∀ accuracy, (Context.fullPixel 5 1 : Context ℝ).samplePoint accuracy =
      slant.apply ((Context.fullPixel 0 0 : Context ℝ).samplePoint accuracy)) ∧
    ∃ q, (Build.transformed slant blendedTriangle ⟨4, {}⟩).1 = .ok q ∧
      ∃ color, q.evaluate (Context.fullPixel 5 1) = .ok color ∧
        blendedTriangle.evaluate (Context.fullPixel 0 0) = .ok color := by
  have hkeeps := keepsTriangle_slant blendedTriangle
  obtain ⟨q, hq, hdraws⟩ := evaluate_transformed session_blendedTriangle List.mem_cons_self
    valid_blendedTriangle pathFree_blendedTriangle slant_accepted hkeeps
  exact ⟨session_blendedTriangle, valid_blendedTriangle, pathFree_blendedTriangle, slant_accepted,
    hkeeps, samplePoint_slanted, q, hq, hdraws _ _ rfl samplePoint_slanted⟩

end Shading
