import Shading.Proofs.Device.Packing
import Shading.Proofs.Faces

/-!
# Where a device samples

The device integrates the face of a context that comes without a centroid, and with exact numbers it
finds the sums that the face has (`DeviceContext.Stands.moments_eq`), although it counts all four
sides and the host leaves out those that count nothing. So the two sample at the same points, with
one exception (`Context.samplePoint?_packed`). Each has an area of its own below which it takes the
center of the bounds instead: it is the gap next to one, of the numbers that it computes with. A
face whose area is between the two has its centroid on the host and not on the device.
-/

namespace Shading

-- Numerals in statements are those of the reals, as in the library's tactics.
attribute [local instance(200)] instOfNatAtLeastTwo

/-- Exact numbers are stored as they are. -/
instance : Rounding ℝ ℝ where
  narrow := id
  widen := id

theorem map_narrow (es : List (Edge ℝ)) : es.map (Edge.map narrow) = es :=
  List.map_id es

namespace DeviceContext

/-! ### Sums -/

/-- Moments with weighted edges added. -/
theorem foldl_add {α : Type} (edge : α → Edge ℝ) (weight : α → ℝ) (es : List α) (m : Moments ℝ) :
    es.foldl (fun m e ↦ m.add (edge e) (weight e)) m =
      ⟨m.area + (es.map fun e ↦ weight e * (edge e).cross).sum,
        m.x + (es.map fun e ↦ weight e * (edge e).momentX).sum,
        m.y + (es.map fun e ↦ weight e * (edge e).momentY).sum⟩ := by
  induction es generalizing m with
  | nil => simp
  | cons e es ih =>
    rw [List.foldl_cons, ih]
    simp only [Moments.add, scalar_add, scalar_mul, List.map_cons, List.sum_cons, Edge.momentX,
      Edge.momentY, add_assoc, mul_assoc]

variable {face : Face ℝ} {ctx : Context ℝ} {c : DeviceContext ℝ} {buffer : Array ℝ}

/-- The device finds the sums over the boundary of the face. -/
theorem Stands.moments_eq (stands : Stands buffer ctx c) (hface : ctx.face = some face)
    (hbounds : ctx.bounds = face.bounds) :
    c.moments buffer =
      ⟨face.total Edge.cross, face.total Edge.momentX, face.total Edge.momentY⟩ := by
  have hedges : c.designated buffer = face.edges := by
    rw [stands.designated, map_narrow, Context.edges, hface]
  have hsides : (Face.mk [] c.bounds c.minX c.minY c.maxX c.maxY).sides = face.sides := by
    obtain ⟨o, rfl⟩ := stands.alone
    simp only [movedTo, ofContext, hface, hbounds, Option.getD_some]
    rfl
  rw [DeviceContext.moments_eq, hedges, hsides, foldl_add (fun e ↦ e), foldl_add Prod.fst]
  simp only [Face.total_eq, scalar_ofInt, scalar_ofNat, Nat.cast_zero, Nat.cast_one, zero_add,
    one_mul]

end DeviceContext

/-! ### Thresholds -/

namespace Context

variable (ctx : Context ℝ) (accuracy : Accuracy)

/-- Where a sample is taken if a face has a centroid of its own as soon as its area is larger than a
threshold. -/
noncomputable def samplePointBeyond (threshold : ℝ) : Point ℝ :=
  if accuracy.readsCentroid then
    (ctx.centroid <|> ctx.face.bind (·.centroidBeyond threshold)).getD ctx.pixelCenter
  else ctx.pixelCenter

/-- The host gives up at the gap of double precision. -/
theorem samplePoint_eq_beyond :
    ctx.samplePoint accuracy = ctx.samplePointBeyond accuracy Scalar.doubleEpsilon := by
  have hcentroid : Face.centroid = fun face ↦ face.centroidBeyond Scalar.doubleEpsilon :=
    funext Face.centroid_eq
  rw [samplePoint, samplePointBeyond, centroidOrCenter, hcentroid]

section Thresholds

variable {face : Face ℝ} {ctx : Context ℝ} {accuracy : Accuracy} {s t : ℝ}

/-- A centroid that was supplied with the smaller threshold is used, and if none was supplied, none
is found with the larger one. -/
theorem samplePointBeyond_of_supplied (hface : ctx.face = some face)
    (hcentroid : ctx.centroid = face.centroidBeyond s) (h : s ≤ t) :
    ctx.samplePointBeyond accuracy t = ctx.samplePointBeyond accuracy s := by
  rw [samplePointBeyond, samplePointBeyond, hface, hcentroid, Option.bind_some, Option.bind_some]
  rcases le_or_gt |face.area| s with harea | harea
  · rw [Face.centroidBeyond_of_le harea, Face.centroidBeyond_of_le (harea.trans h)]
  · obtain ⟨p, hp⟩ := Face.exists_centroidBeyond harea
    rw [hp]
    rfl

/-- If none was supplied, samples are taken at different points exactly if the area lies between the
thresholds and the centroid is not at the center. -/
theorem samplePointBeyond_eq_iff (hface : ctx.face = some face) (hcentroid : ctx.centroid = none)
    (h : s ≤ t) :
    ctx.samplePointBeyond accuracy t = ctx.samplePointBeyond accuracy s ↔
      (accuracy.readsCentroid = true → s < |face.area| → |face.area| ≤ t →
        face.centroidBeyond s = some ctx.pixelCenter) := by
  rw [samplePointBeyond, samplePointBeyond, hface, hcentroid, Option.bind_some, Option.bind_some]
  cases accuracy.readsCentroid
  · simp
  rcases le_or_gt |face.area| s with harea | harea
  · simp [Face.centroidBeyond_of_le harea, Face.centroidBeyond_of_le (harea.trans h),
      not_lt.2 harea]
  obtain ⟨p, hp⟩ := Face.exists_centroidBeyond harea
  rcases le_or_gt |face.area| t with harea' | harea'
  · simp [hp, Face.centroidBeyond_of_le harea', harea, harea', eq_comm]
  · simp [Face.centroidBeyond_congr harea' harea, not_le.2 harea']

/-- If the face has hardly any area, the center is sampled. -/
theorem samplePointBeyond_of_small (hface : ctx.face = some face) (hcentroid : ctx.centroid = none)
    (small : |face.area| ≤ t) : ctx.samplePointBeyond accuracy t = ctx.pixelCenter := by
  rw [samplePointBeyond, hface, hcentroid, Option.bind_some, Face.centroidBeyond_of_le small]
  exact ite_self _

end Thresholds

end Context

namespace DeviceContext.Stands

variable {face : Face ℝ} {ctx : Context ℝ} {c : DeviceContext ℝ} {buffer : Array ℝ}
  (stands : Stands buffer ctx c) (hface : ctx.face = some face) (hbounds : ctx.bounds = face.bounds)

include stands hface hbounds

/-- The device gives up at the gap of single precision. -/
theorem faceCentroid?_eq (few : c.edgeCount ≤ deviceIterations) : c.faceCentroid? buffer =
    some ((face.centroidBeyond Scalar.singleEpsilon).getD ctx.pixelCenter) := by
  have hcenter : c.center = ctx.pixelCenter := by
    obtain ⟨o, rfl⟩ := stands.alone
    rfl
  have harea : (5 : Nat) / (10 : Nat) ^ 1 * face.total Edge.cross = face.area := by
    rw [Face.area_eq]
    norm_num
    ring
  rw [faceCentroid?, if_neg (not_lt.2 few), stands.moments_eq hface hbounds, hcenter,
    Face.centroidBeyond]
  simp only [scalar_abs, scalar_le, scalar_mul, scalar_div, scalar_ofNat, scalar_ofScientific,
    harea]
  simp only [Nat.cast_one, Nat.cast_ofNat, mul_one_div]
  split <;> rfl

/-- The device samples where the host does, but for the threshold. -/
theorem samplePoint?_eq (few : c.edgeCount ≤ deviceIterations) (accuracy : Accuracy) :
    c.samplePoint? buffer accuracy =
      some (ctx.samplePointBeyond accuracy Scalar.singleEpsilon) := by
  have hfound := stands.faceCentroid?_eq hface hbounds few
  obtain ⟨o, rfl⟩ := stands.alone
  rw [samplePoint?, centroid?, hfound, Context.samplePointBeyond, hface]
  cases hcentroid : ctx.centroid <;> cases accuracy.readsCentroid <;>
    simp [movedTo, ofContext, hcentroid] <;> rfl

end DeviceContext.Stands

/-! ### Packed contexts -/

namespace Context

/-- The context without the centroid that it was supplied with. -/
def withoutCentroid {R : Type} (ctx : Context R) : Context R := { ctx with centroid := none }

/-- Where the device samples the context if it is packed behind what is in a buffer. -/
noncomputable def deviceSamplePoint? (ctx : Context ℝ) (buffer : Array ℝ) (accuracy : Accuracy) :
    Option (Point ℝ) :=
  let packed := DeviceContext.ofContext ctx buffer
  packed.1.samplePoint? packed.2 accuracy

/-- Behind whole edges, a context of a face is sampled as the larger threshold has it. -/
theorem deviceSamplePoint?_eq {face : Face ℝ} {ctx : Context ℝ} (hface : ctx.face = some face)
    (hbounds : ctx.bounds = face.bounds) (few : face.edges.length ≤ deviceIterations)
    {buffer : Array ℝ} {n : Nat} (whole : buffer.size = 4 * n) (accuracy : Accuracy) :
    ctx.deviceSamplePoint? buffer accuracy =
      some (ctx.samplePointBeyond accuracy Scalar.singleEpsilon) := by
  have hstands := DeviceContext.stands_ofContext whole ctx #[]
  rw [Array.append_empty] at hstands
  refine hstands.samplePoint?_eq hface hbounds ?_ accuracy
  rw [DeviceContext.edgeCount_ofContext, edges, hface]
  exact few

/-- The device gives up first. -/
theorem doubleEpsilon_le_singleEpsilon : (Scalar.doubleEpsilon : ℝ) ≤ Scalar.singleEpsilon := by
  rw [doubleEpsilon_eq, singleEpsilon_eq]
  norm_num

/-- A context of a face, packed behind whole edges, is sampled by the device where the host samples
it. If it is packed without its centroid, the device and the host differ exactly if the area of the
face is too small for the device but not for the host, and its centroid is not the center of the
bounds, which the device then takes. -/
theorem samplePoint?_packed {face : Face ℝ} (few : face.edges.length ≤ deviceIterations)
    {buffer : Array ℝ} {n : Nat} (whole : buffer.size = 4 * n) :
    ∃ ctx, Context.ofFace face = .ok ctx ∧ ∀ accuracy : Accuracy,
      ctx.deviceSamplePoint? buffer accuracy = some (ctx.samplePoint accuracy) ∧
      let dropped := ctx.withoutCentroid
      (dropped.deviceSamplePoint? buffer accuracy = some (dropped.samplePoint accuracy) ↔
        (accuracy.readsCentroid = true → Scalar.doubleEpsilon < |face.area| →
          |face.area| ≤ Scalar.singleEpsilon → face.centroid = some face.bounds.center)) ∧
      (|face.area| ≤ Scalar.singleEpsilon →
        dropped.deviceSamplePoint? buffer accuracy = some face.bounds.center) := by
  have hle := doubleEpsilon_le_singleEpsilon
  refine ⟨⟨some face, face.area, face.centroid, face.bounds, true⟩, rfl, fun accuracy ↦
    ⟨?_, ?_, fun small ↦ ?_⟩⟩
  · rw [deviceSamplePoint?_eq rfl rfl few whole, samplePoint_eq_beyond]
    exact congrArg some (samplePointBeyond_of_supplied rfl face.centroid_eq hle)
  · rw [deviceSamplePoint?_eq rfl rfl few whole, samplePoint_eq_beyond, Option.some_inj,
      samplePointBeyond_eq_iff rfl rfl hle, ← Face.centroid_eq]
    rfl
  · rw [deviceSamplePoint?_eq rfl rfl few whole, samplePointBeyond_of_small rfl rfl small]
    rfl

/-- Half of a pixel is large enough for the device. -/
theorem samplePoint?_lowerHalf :
    Face.lowerHalf.edges.length ≤ deviceIterations ∧ (#[0, 0, 1, 1] : Array ℝ).size = 4 * 1 ∧
      ∃ ctx, Context.ofFace Face.lowerHalf = .ok ctx ∧
        ctx.withoutCentroid.deviceSamplePoint? #[0, 0, 1, 1] .unsplitCentroid =
          some ⟨1 / 3, 1 / 3⟩ := by
  have few : Face.lowerHalf.edges.length ≤ deviceIterations := by decide
  have whole : (#[0, 0, 1, 1] : Array ℝ).size = 4 * 1 := rfl
  obtain ⟨ctx, hctx, hsamples⟩ := samplePoint?_packed few whole
  obtain ⟨-, hdropped, -⟩ := hsamples .unsplitCentroid
  refine ⟨few, whole, ctx, hctx, (hdropped.2 fun _ _ hsmall ↦ ?_).trans ?_⟩
  · norm_num [Face.area_lowerHalf, singleEpsilon_eq] at hsmall
  · cases hctx
    show some ((Face.lowerHalf.centroid).getD _) = _
    rw [Face.centroid_lowerHalf]
    rfl

/-- A triangle in a corner of a pixel, of the area `2 ^ -25`. -/
noncomputable def smallTriangle : Face ℝ :=
  ⟨[⟨⟨0, 0⟩, ⟨1 / 4096, 0⟩⟩, ⟨⟨1 / 4096, 0⟩, ⟨0, 1 / 4096⟩⟩, ⟨⟨0, 1 / 4096⟩, ⟨0, 0⟩⟩],
    ⟨0, 0, 1, 1⟩, 0, 0, 0, 0⟩

/-- Without a centroid, the small triangle is sampled at the center of the pixel by the device, and
within itself by the host. -/
theorem samplePoint?_smallTriangle :
    smallTriangle.edges.length ≤ deviceIterations ∧
      ∃ ctx, Context.ofFace smallTriangle = .ok ctx ∧
        let dropped := ctx.withoutCentroid
        dropped.deviceSamplePoint? #[] .unsplitCentroid = some ⟨1 / 2, 1 / 2⟩ ∧
          dropped.samplePoint .unsplitCentroid = ⟨1 / 12288, 1 / 12288⟩ ∧
          dropped.deviceSamplePoint? #[] .unsplitCentroid ≠
            some (dropped.samplePoint .unsplitCentroid) := by
  have few : smallTriangle.edges.length ≤ deviceIterations := by decide
  have htotal : smallTriangle.total Edge.cross = 1 / 16777216 ∧
      smallTriangle.total Edge.momentX = 1 / 68719476736 ∧
      smallTriangle.total Edge.momentY = 1 / 68719476736 := by
    norm_num [Face.total_eq, smallTriangle, Face.sides, Edge.momentX, Edge.momentY, Edge.cross_eq]
  obtain ⟨hcross, hx, hy⟩ := htotal
  have harea : smallTriangle.area = 1 / 33554432 := by
    norm_num [Face.area_eq, hcross]
  have hsmall : |smallTriangle.area| ≤ Scalar.singleEpsilon := by
    norm_num [harea, singleEpsilon_eq]
  have hcentroid : smallTriangle.centroid = some ⟨1 / 12288, 1 / 12288⟩ := by
    rw [Face.centroid_eq, Face.centroidBeyond, harea, hx, hy, if_neg]
    all_goals norm_num [doubleEpsilon_eq]
  have hcenter : smallTriangle.bounds.center = ⟨1 / 2, 1 / 2⟩ := by
    norm_num [smallTriangle, Rect.center]
  let ctx : Context ℝ := ⟨some smallTriangle, smallTriangle.area, smallTriangle.centroid,
    smallTriangle.bounds, true⟩
  have hdevice : ctx.withoutCentroid.deviceSamplePoint? #[] .unsplitCentroid =
      some ⟨1 / 2, 1 / 2⟩ := by
    have whole : (#[] : Array ℝ).size = 4 * 0 := rfl
    rw [deviceSamplePoint?_eq rfl rfl few whole, samplePointBeyond_of_small rfl rfl hsmall]
    exact congrArg some hcenter
  have hhost : ctx.withoutCentroid.samplePoint .unsplitCentroid = ⟨1 / 12288, 1 / 12288⟩ := by
    show smallTriangle.centroid.getD _ = _
    rw [hcentroid, Option.getD_some]
  refine ⟨few, ctx, rfl, hdevice, hhost, ?_⟩
  rw [hdevice, hhost]
  norm_num

end Context

end Shading
