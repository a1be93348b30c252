import Mathlib.Tactic.NormNum
import Shading.Proofs.Exact.Boundaries

/-!
# Faces and their boundaries

The area and the centroid of a face are those of its boundary, however it is represented
(`Face.area_centroid_of_boundary`). A side of the bounds may be counted or be one of the edges, an
edge may be stored in parts, and if the boundary is closed, both follow it wherever it is moved. A
boundary that is not closed has no area of its own: its sums depend on where the origin is.
-/

namespace Shading

-- Numerals in statements are those of the reals, as in the library's tactics.
attribute [local instance(200)] instOfNatAtLeastTwo

/-- A side of the bounds. -/
inductive Side where
  | minY
  | maxX
  | maxY
  | minX
deriving DecidableEq, Repr

namespace Face

variable {face : Face ℝ}

/-- A side of the bounds as an edge. -/
def side (face : Face ℝ) : Side → Edge ℝ
  | .minY => ⟨⟨face.bounds.x0, face.bounds.y0⟩, ⟨face.bounds.x1, face.bounds.y0⟩⟩
  | .maxX => ⟨⟨face.bounds.x1, face.bounds.y0⟩, ⟨face.bounds.x1, face.bounds.y1⟩⟩
  | .maxY => ⟨⟨face.bounds.x1, face.bounds.y1⟩, ⟨face.bounds.x0, face.bounds.y1⟩⟩
  | .minX => ⟨⟨face.bounds.x0, face.bounds.y1⟩, ⟨face.bounds.x0, face.bounds.y0⟩⟩

/-- The face with a number added to the count of a side. -/
def recounted (face : Face ℝ) (n : Int) : Side → Face ℝ
  | .minY => { face with minY := face.minY + n }
  | .maxX => { face with maxX := face.maxX + n }
  | .maxY => { face with maxY := face.maxY + n }
  | .minX => { face with minX := face.minX + n }

/-- The face with other edges stored. -/
def withEdges (face : Face ℝ) (edges : List (Edge ℝ)) : Face ℝ := { face with edges }

variable (f : Edge ℝ → ℝ)

/-- Raising the count of a side adds the side that many times. -/
theorem total_recounted (n : Int) (s : Side) :
    (face.recounted n s).total f = face.total f + n * f (face.side s) := by
  cases s <;>
    simp only [total_eq, recounted, side, sides, List.map_cons, List.map_nil, List.sum_cons,
      List.sum_nil, Int.cast_add] <;>
    ring

/-- Taking other edges leaves the sides as they are. -/
theorem total_withEdges (edges : List (Edge ℝ)) : (face.withEdges edges).total f =
    (edges.map f).sum + (face.sides.map fun s ↦ (s.2 : ℝ) * f s.1).sum :=
  total_eq (face.withEdges edges) f

/-- One more edge adds its own share. -/
theorem total_appended (e : Edge ℝ) :
    (face.withEdges (face.edges ++ [e])).total f = face.total f + f e := by
  rw [total_withEdges, total_eq, List.map_append, List.sum_append, List.map_singleton,
    List.sum_singleton]
  exact add_right_comm ..

/-- Counting a side once more is storing it as an edge. -/
theorem sameMoments_raised (s : Side) :
    SameMoments (face.recounted 1 s) (face.withEdges (face.edges ++ [face.side s])) := fun f _ ↦ by
  rw [total_recounted, total_appended, Int.cast_one, one_mul]

/-- A side that is counted once less is an edge that is run through backwards. -/
theorem sameMoments_lowered (s : Side) :
    SameMoments (face.recounted (-1) s)
      (face.withEdges (face.edges ++ [(face.side s).reverse])) := fun f hf ↦ by
  rw [total_recounted, total_appended, hf.reverse, Int.cast_neg, Int.cast_one, neg_one_mul]

/-- An edge may be stored in two parts that meet on it. -/
theorem sameMoments_split {before after : List (Edge ℝ)} {e : Edge ℝ}
    (h : face.edges = before ++ e :: after) (t : ℝ) :
    let p := e.start.between e.stop t
    SameMoments (face.withEdges (before ++ ⟨e.start, p⟩ :: ⟨p, e.stop⟩ :: after)) face := by
  intro p f hf
  have hparts : f ⟨e.start, p⟩ + f ⟨p, e.stop⟩ = f e := hf.split e t
  rw [total_withEdges, total_eq, h]
  simp only [List.map_append, List.map_cons, List.sum_append, List.sum_cons, ← hparts]
  ring

/-- The area and the centroid do not depend on how the boundary is represented: whether sides are
counted or stored, and whether edges are stored whole or in parts. If the boundary is closed, a
translation leaves the area as it is and takes the centroid along. -/
theorem area_centroid_of_boundary (face : Face ℝ) :
    (∀ s, let counted := face.recounted 1 s
      let stored := face.withEdges (face.edges ++ [face.side s])
      counted.area = stored.area ∧ counted.centroid = stored.centroid) ∧
    (∀ s, let counted := face.recounted (-1) s
      let stored := face.withEdges (face.edges ++ [(face.side s).reverse])
      counted.area = stored.area ∧ counted.centroid = stored.centroid) ∧
    (∀ before e after, face.edges = before ++ e :: after → ∀ t,
      let p := e.start.between e.stop t
      let parted := face.withEdges (before ++ ⟨e.start, p⟩ :: ⟨p, e.stop⟩ :: after)
      parted.area = face.area ∧ parted.centroid = face.centroid) ∧
    (Closed face.weightedEdges → ∀ v, (face.translate v).area = face.area ∧
      (face.translate v).centroid = face.centroid.map (·.translate v)) := by
  refine ⟨fun s ↦ ?_, fun s ↦ ?_, fun before e after h t ↦ ?_, fun closed v ↦ ?_⟩
  · exact ⟨(sameMoments_raised s).area_eq, (sameMoments_raised s).centroid_eq⟩
  · exact ⟨(sameMoments_lowered s).area_eq, (sameMoments_lowered s).centroid_eq⟩
  · exact ⟨(sameMoments_split h t).area_eq, (sameMoments_split h t).centroid_eq⟩
  · exact ⟨area_translate closed v, centroid_translate closed v⟩

/-- The lower left half of a pixel: its diagonal, and two sides that are counted. -/
noncomputable def lowerHalf : Face ℝ :=
  ⟨[⟨⟨1, 0⟩, ⟨0, 1⟩⟩], ⟨0, 0, 1, 1⟩, 1, 1, 0, 0⟩

/-- The diagonal and two sides close up. -/
theorem closed_lowerHalf : Closed lowerHalf.weightedEdges := by
  intro p
  simp only [lowerHalf, weightedEdges, sides, total_append, total_cons, total_nil, List.map_cons,
    List.map_nil]
  simp [scalar_ofInt, total_cons, total_nil]
  ring

/-- The moments of the lower half of the unit square. -/
theorem total_lowerHalf : lowerHalf.total Edge.cross = 1 ∧ lowerHalf.total Edge.momentX = 1 ∧
    lowerHalf.total Edge.momentY = 1 := by
  simp [total_eq, lowerHalf, sides, Edge.momentX, Edge.momentY, Edge.cross_eq]

theorem area_lowerHalf : lowerHalf.area = 1 / 2 := by
  rw [area_eq, total_lowerHalf.1]

theorem centroid_lowerHalf : lowerHalf.centroid = some ⟨1 / 3, 1 / 3⟩ := by
  obtain ⟨-, hx, hy⟩ := total_lowerHalf
  have hlarge : ¬ |(1 / 2 : ℝ)| ≤ Scalar.doubleEpsilon := by
    norm_num [doubleEpsilon_eq]
  rw [centroid_eq, centroidBeyond, area_lowerHalf, hx, hy, if_neg hlarge]
  norm_num

/-- Half of a pixel, its diagonal stored in two parts, and moved. -/
theorem centroid_lowerHalf_moved :
    lowerHalf.edges = [] ++ ⟨⟨1, 0⟩, ⟨0, 1⟩⟩ :: [] ∧ Closed lowerHalf.weightedEdges ∧
      (lowerHalf.withEdges [⟨⟨1, 0⟩, ⟨1 / 4, 3 / 4⟩⟩, ⟨⟨1 / 4, 3 / 4⟩, ⟨0, 1⟩⟩]).area = 1 / 2 ∧
      (lowerHalf.translate ⟨5, 7⟩).area = 1 / 2 ∧
      (lowerHalf.translate ⟨5, 7⟩).centroid = some ⟨1 / 3 + 5, 1 / 3 + 7⟩ := by
  obtain ⟨-, -, hparted, hmoved⟩ := area_centroid_of_boundary lowerHalf
  have hedges : lowerHalf.edges = [] ++ ⟨⟨1, 0⟩, ⟨0, 1⟩⟩ :: [] := rfl
  have hpoint : Point.between ⟨1, 0⟩ ⟨0, 1⟩ (3 / 4) = ⟨1 / 4, 3 / 4⟩ := by
    norm_num [Point.between]
  obtain ⟨hsame, -⟩ := hparted _ _ _ hedges (3 / 4)
  rw [hpoint] at hsame
  obtain ⟨harea', hcentroid'⟩ := hmoved closed_lowerHalf ⟨5, 7⟩
  refine ⟨hedges, closed_lowerHalf, hsame.trans area_lowerHalf, harea'.trans area_lowerHalf, ?_⟩
  rw [hcentroid', centroid_lowerHalf]
  rfl

end Face

end Shading
