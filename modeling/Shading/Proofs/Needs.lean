import Shading.Proofs.Economy
import Shading.Proofs.Program.Sampling

/-!
# Programs read what their flags say

Callers leave out faces, areas and centroids that the flags of a program do not ask for. Contexts of
the same bounds and with the same kind of output have the same answer from a program that needs no
centroid, whatever else they supply; if it needs one, they have the same answer if both supply the
same. This holds of evaluation and of the linked instructions, and of failures as well as of colors
(`indifferent_of_needs`).

The flag for areas is set together with that for centroids, but no area is ever read.
-/

namespace Shading

variable {ι R : Type} [ColorModel R]

/-! ### Contexts -/

/-- Samples that are not taken at a centroid depend on nothing but the bounds. -/
theorem Context.samplePoint_eq {ctx ctx' : Context R} (bounds : ctx.bounds = ctx'.bounds)
    {accuracy : Accuracy} (h : accuracy.readsCentroid = false) :
    ctx.samplePoint accuracy = ctx'.samplePoint accuracy := by
  have hread : ¬ accuracy.readsCentroid = true := Bool.eq_false_iff.1 h
  rw [samplePoint, samplePoint, if_neg hread, if_neg hread, pixelCenter, pixelCenter, bounds]

/-- A given centroid is where all other samples are taken. -/
theorem Context.samplePoint_of_centroid {ctx : Context R} {c : Point R}
    (centroid : ctx.centroid = some c) {accuracy : Accuracy}
    (h : accuracy.readsCentroid = true) : ctx.samplePoint accuracy = c := by
  rw [samplePoint, if_pos h, centroidOrCenter, centroid]
  rfl

namespace Program

variable {p : Program ι R}

/-- A program that needs no centroid has no kind that samples at one. -/
theorem samples_of_needsCentroid (h : p.flags.needsCentroid = false) :
    p.Everywhere (Kind.Samples fun accuracy ↦ accuracy.readsCentroid = false) := by
  have hown := (need_eq_false_iff fun _ _ ↦ rfl).1 h
  refine everywhere_iff_forall_part.2 fun q hq accuracy haccuracy ↦ ?_
  have hq := everywhere_iff_forall_part.1 hown q hq
  rwa [haccuracy] at hq

variable [Rounding R Single]

/-- Neither evaluation nor the linked instructions of the program tell the contexts apart. -/
structure Indifferent (p : Program ι R) (ctx ctx' : Context R) : Prop where
  evaluate : p.evaluate ctx = p.evaluate ctx'
  execute : ∀ (lines : List Line) (linked : Linked) (limits : Limits),
    p.instructions = .ok lines → link lines = .ok linked →
      Machine.execute limits linked ctx = Machine.execute limits linked ctx'

/-- Contexts are not told apart if they agree on where the kinds of the program sample. -/
theorem indifferent_of_samples {used : Accuracy → Prop} (samples : p.Everywhere (Kind.Samples used))
    {ctx ctx' : Context R} (premultiplied : ctx.premultiplied = ctx'.premultiplied)
    (agree : ∀ accuracy, used accuracy → ctx.samplePoint accuracy = ctx'.samplePoint accuracy) :
    p.Indifferent ctx ctx' where
  evaluate := by rw [evaluate, evaluate, evaluateAt_congr agree samples, premultiplied]
  execute lines linked limits hlines hlinked :=
    Machine.executeIn_congr limits ⟨agree, premultiplied, rfl⟩
      (samples_of_link hlinked (samples_of_instructions samples hlines))

/-- The flags bound what a program reads of its context: centroids only if they are needed, and
areas never. -/
theorem indifferent_of_needs (p : Program ι R) :
    (∀ ctx ctx' : Context R, ctx.bounds = ctx'.bounds → ctx.premultiplied = ctx'.premultiplied →
      (p.flags.needsCentroid = true → ∃ c, ctx.centroid = some c ∧ ctx'.centroid = some c) →
        p.Indifferent ctx ctx') ∧
    ∀ (ctx : Context R) (area : R), p.evaluate { ctx with area } = p.evaluate ctx ∧
      ∀ (linked : Linked) (limits : Limits),
        Machine.execute limits linked { ctx with area } = Machine.execute limits linked ctx := by
  refine ⟨fun ctx ctx' bounds premultiplied supplied ↦ ?_, fun ctx area ↦ ⟨rfl, fun _ _ ↦ rfl⟩⟩
  cases hneeds : p.flags.needsCentroid with
  | false =>
    exact indifferent_of_samples (samples_of_needsCentroid hneeds) premultiplied
      fun accuracy h ↦ Context.samplePoint_eq bounds h
  | true =>
    obtain ⟨c, hc, hc'⟩ := supplied hneeds
    have hall : p.Everywhere (Kind.Samples fun _ ↦ True) :=
      everywhere_iff_forall_part.2 fun _ _ _ _ ↦ trivial
    refine indifferent_of_samples hall premultiplied fun accuracy _ ↦ ?_
    cases h : accuracy.readsCentroid with
    | false => exact Context.samplePoint_eq bounds h
    | true =>
      rw [Context.samplePoint_of_centroid hc h, Context.samplePoint_of_centroid hc' h]

/-! ### Two blends -/

/-- From red to blue, by the center of the pixel or by a centroid. -/
def redToBlue (accuracy : Accuracy) : Tree Float :=
  .node () (.linearBlend ⟨⟨1, 0⟩, 0⟩ accuracy)
    [.node () (.color ⟨1, 0, 0, 1⟩) [], .node () (.color ⟨0, 0, 1, 1⟩) []]

def wholePixel : Face Float := .ofBounds ⟨0, 0, 1, 1⟩

/-- The first pixel with a given face, area and centroid. -/
def sampledAt (face : Option (Face Float)) (area : Float) (centroid : Option (Point Float)) :
    Context Float :=
  { Context.fullPixel 0 0 with face, area, centroid }

/-- A ramp from red to blue is written and linked, whatever its accuracy. -/
theorem instructions_redToBlue (accuracy : Accuracy) :
    ∃ lines linked, (redToBlue accuracy).instructions = .ok lines ∧ link lines = .ok linked :=
  ⟨_, _, rfl, rfl⟩

/-- The blend by the center has one answer whatever else is supplied, the one by a centroid has one
for the same centroid. -/
theorem indifferent_redToBlue :
    ((redToBlue .unsplitPixelCenter).flags.needsCentroid = false ∧
        (redToBlue .unsplitPixelCenter).Indifferent (sampledAt (some wholePixel) 1 (some ⟨0, 0⟩))
          (sampledAt none 0 none)) ∧
      ((redToBlue .splitCentroid).flags.needsCentroid = true ∧
        (redToBlue .splitCentroid).Indifferent (sampledAt (some wholePixel) 1 (some ⟨0, 0⟩))
          (sampledAt none 0 (some ⟨0, 0⟩))) ∧
      ∀ accuracy, ∃ lines linked, (redToBlue accuracy).instructions = .ok lines ∧
        link lines = .ok linked :=
  ⟨⟨rfl, (indifferent_of_needs _).1 _ _ rfl rfl nofun⟩,
    ⟨rfl, (indifferent_of_needs _).1 _ _ rfl rfl fun _ ↦ ⟨_, rfl, rfl⟩⟩, instructions_redToBlue⟩

end Program

end Shading
