import Mathlib.LinearAlgebra.Finsupp.LinearCombination
import Mathlib.Tactic.FieldSimp
import Mathlib.Tactic.LinearCombination
import Shading.Face
import Shading.Proofs.Exact.Motions

/-!
# Exact boundaries

With exact numbers, the area and the centroid of a face are found from three sums over its weighted
edges: that of the cross products (`Edge.cross`) and those of the moments (`Edge.momentX` and
`Edge.momentY`). So faces with the same sums have the same area and the same centroid
(`Face.SameMoments`), and a side that counts nothing does not matter, whether or not it takes part.

A boundary is closed if at every point edges end as often as they start, counted with their weights.
Along a closed boundary every quantity that is a difference of something at the two ends of an edge
has the sum zero (`Closed.total_difference`). That holds because the ends and the starts are the
same combination of points. What a translation adds to the three sums is such a difference, apart
from what moves the centroid along.
-/

namespace Shading

-- Numerals in statements are those of the reals, as in the library's tactics.
attribute [local instance(200)] instOfNatAtLeastTwo

theorem scalar_sum (xs : List ℝ) : Scalar.sum xs = xs.sum := by
  rw [Scalar.sum, List.sum_eq_foldl]
  simp only [scalar_ofNat, Nat.cast_zero, neg_zero]

/-! ### Sums over weighted edges -/

section Totals

/-- The sum of a quantity of edges, each with its weight. -/
noncomputable def total (es : List (Edge ℝ × ℝ)) (f : Edge ℝ → ℝ) : ℝ :=
  (es.map fun e ↦ e.2 * f e.1).sum

variable (es es' : List (Edge ℝ × ℝ)) (f f' : Edge ℝ → ℝ) (c : ℝ)

theorem total_nil : total [] f = 0 :=
  rfl

theorem total_cons (e : Edge ℝ × ℝ) : total (e :: es) f = e.2 * f e.1 + total es f := by
  rw [total, List.map_cons, List.sum_cons, total]

theorem total_append : total (es ++ es') f = total es f + total es' f := by
  rw [total, List.map_append, List.sum_append, total, total]

theorem total_add : total es (fun e ↦ f e + f' e) = total es f + total es f' := by
  simp only [total, mul_add, List.sum_map_add]

theorem total_const_mul : total es (fun e ↦ c * f e) = c * total es f := by
  simp only [total, mul_left_comm _ c, List.sum_map_mul_left]

theorem total_map (g : Edge ℝ → Edge ℝ) :
    total (es.map fun e ↦ (g e.1, e.2)) f = total es fun e ↦ f (g e) := by
  rw [total, List.map_map, total]
  rfl

end Totals

/-! ### Closed boundaries -/

/-- At every point, edges end as often as they start, counted with their weights. -/
def Closed (es : List (Edge ℝ × ℝ)) : Prop :=
  ∀ p, total es (fun e ↦ if e.stop = p then 1 else 0) =
    total es fun e ↦ if e.start = p then 1 else 0

section Closed

variable {es : List (Edge ℝ × ℝ)}

/-- The combination of the points that a function takes edges to. -/
noncomputable def ends (es : List (Edge ℝ × ℝ)) (place : Edge ℝ → Point ℝ) : Point ℝ →₀ ℝ :=
  (es.map fun e ↦ Finsupp.single (place e.1) e.2).sum

/-- The weight at a point is the sum of the weights of the edges that start or stop there. -/
theorem ends_apply (place : Edge ℝ → Point ℝ) (p : Point ℝ) :
    ends es place p = total es fun e ↦ if place e = p then 1 else 0 := by
  have hsum := map_list_sum (Finsupp.applyAddHom (M := ℝ) p)
    (es.map fun e ↦ Finsupp.single (place e.1) e.2)
  rw [List.map_map] at hsum
  refine hsum.trans (congrArg List.sum (List.map_congr_left fun e _ ↦ ?_))
  show Finsupp.single (place e.1) e.2 p = e.2 * if place e.1 = p then 1 else 0
  rw [Finsupp.single_apply, mul_ite, mul_one, mul_zero]

/-- A sum over the points of a boundary is a sum over its edges. -/
theorem linearCombination_ends (place : Edge ℝ → Point ℝ) (g : Point ℝ → ℝ) :
    Finsupp.linearCombination ℝ g (ends es place) = total es fun e ↦ g (place e) := by
  rw [ends, map_list_sum, List.map_map]
  refine congrArg List.sum (List.map_congr_left fun e _ ↦ ?_)
  exact Finsupp.linearCombination_single ℝ e.2 (place e.1)

namespace Closed

variable (closed : Closed es)

include closed

/-- In a closed boundary, as many edges stop at a point as start there. -/
theorem ends_eq : ends es Edge.stop = ends es Edge.start :=
  Finsupp.ext fun p ↦ by rw [ends_apply, ends_apply, closed p]

/-- What only depends on the ends of edges cancels along a closed boundary. -/
theorem total_difference (g : Point ℝ → ℝ) :
    total es (fun e ↦ g e.stop - g e.start) = 0 := by
  have hsub : total es (fun e ↦ g e.stop) =
      (total es fun e ↦ g e.start) + total es fun e ↦ g e.stop - g e.start := by
    rw [← total_add]
    simp only [add_sub_cancel]
  have hends : total es (fun e ↦ g e.stop) = total es fun e ↦ g e.start := by
    rw [← linearCombination_ends, ← linearCombination_ends, closed.ends_eq]
  exact left_eq_add.1 (hends.symm.trans hsub)

/-- Quantities that differ by such a difference have the same sum. -/
theorem total_congr {f f' : Edge ℝ → ℝ} (g : Point ℝ → ℝ)
    (h : ∀ e : Edge ℝ, f e = f' e + (g e.stop - g e.start)) : total es f = total es f' := by
  rw [funext h, total_add, closed.total_difference, add_zero]

end Closed

end Closed

/-! ### Edges -/

def Point.translate (p v : Point ℝ) : Point ℝ := ⟨p.x + v.x, p.y + v.y⟩

def Rect.translate (r : Rect ℝ) (v : Point ℝ) : Rect ℝ :=
  ⟨r.x0 + v.x, r.y0 + v.y, r.x1 + v.x, r.y1 + v.y⟩

/-- The point of the line from `p` to `q` that lies a part of the way behind `p`. -/
def Point.between (p q : Point ℝ) (t : ℝ) : Point ℝ :=
  ⟨p.x + t * (q.x - p.x), p.y + t * (q.y - p.y)⟩

namespace Edge

variable (e : Edge ℝ)

/-- The cross product of the ends of an edge. -/
theorem cross_eq : e.cross = e.start.x * e.stop.y - e.stop.x * e.start.y :=
  rfl

noncomputable def momentX : ℝ := e.cross * (e.start.x + e.stop.x)

noncomputable def momentY : ℝ := e.cross * (e.start.y + e.stop.y)

/-- The edge in the other direction. -/
def reverse : Edge ℝ := ⟨e.stop, e.start⟩

def translate (v : Point ℝ) : Edge ℝ := ⟨e.start.translate v, e.stop.translate v⟩

/-- The three quantities that are summed up. -/
inductive Summed : (Edge ℝ → ℝ) → Prop
  | cross : Summed Edge.cross
  | momentX : Summed momentX
  | momentY : Summed momentY

namespace Summed

variable {f : Edge ℝ → ℝ} (h : Summed f)

include h

/-- An edge that is run through backwards counts negatively. -/
theorem reverse : f e.reverse = -f e := by
  cases h <;> simp only [Edge.reverse, Edge.momentX, Edge.momentY, cross_eq] <;> ring

/-- Both parts of an edge together have what the edge has. -/
theorem split (t : ℝ) :
    f ⟨e.start, e.start.between e.stop t⟩ + f ⟨e.start.between e.stop t, e.stop⟩ = f e := by
  cases h <;> simp only [Point.between, Edge.momentX, Edge.momentY, cross_eq] <;> ring

end Summed

section Translations

variable (v : Point ℝ)

/-- What a translation adds to the cross product is a difference between the two ends. -/
theorem cross_translate : ∃ g : Point ℝ → ℝ, ∀ e : Edge ℝ,
    (e.translate v).cross = e.cross + (g e.stop - g e.start) := by
  refine ⟨fun p ↦ v.x * p.y - v.y * p.x, fun e ↦ ?_⟩
  simp only [translate, Point.translate, cross_eq]
  ring

/-- Besides such a difference, the moments grow by three times the cross product: by twice it for
the ends that are moved, and once more for what the product itself grows by. -/
theorem momentX_translate : ∃ g : Point ℝ → ℝ, ∀ e : Edge ℝ,
    (e.translate v).momentX = e.momentX + 3 * v.x * e.cross + (g e.stop - g e.start) := by
  refine ⟨fun p ↦ v.x * (p.x * p.y) - v.y * (p.x * p.x) + 2 * v.x * (v.x * p.y - v.y * p.x),
    fun e ↦ ?_⟩
  simp only [translate, Point.translate, momentX, cross_eq]
  ring

/-- Moving an edge adds to its moment what its own cross product accounts for, and a difference of
its ends. -/
theorem momentY_translate : ∃ g : Point ℝ → ℝ, ∀ e : Edge ℝ,
    (e.translate v).momentY = e.momentY + 3 * v.y * e.cross + (g e.stop - g e.start) := by
  refine ⟨fun p ↦ v.x * (p.y * p.y) - v.y * (p.x * p.y) + 2 * v.y * (v.x * p.y - v.y * p.x),
    fun e ↦ ?_⟩
  simp only [translate, Point.translate, momentY, cross_eq]
  ring

end Translations

end Edge

/-! ### Faces -/

namespace Face

variable (face : Face ℝ) (f : Edge ℝ → ℝ)

/-- The sum of a quantity over the boundary. -/
noncomputable def total : ℝ := Shading.total face.weightedEdges f

/-- Sides that count nothing add nothing, so all four may take part. -/
theorem total_eq : face.total f =
    (face.edges.map f).sum + (face.sides.map fun s ↦ (s.2 : ℝ) * f s.1).sum := by
  have hsides (sides : List (Edge ℝ × Int)) :
      Shading.total ((sides.filter fun s ↦ s.2 != 0).map fun s ↦ (s.1, Scalar.ofInt s.2)) f =
        (sides.map fun s ↦ (s.2 : ℝ) * f s.1).sum := by
    induction sides with
    | nil => rfl
    | cons s sides ih =>
      rw [List.map_cons, List.sum_cons, ← ih]
      by_cases h : s.2 = 0
      · rw [List.filter_cons_of_neg (by simp [h]), h, Int.cast_zero, zero_mul, zero_add]
      · rw [List.filter_cons_of_pos (by simp [h]), List.map_cons, total_cons, scalar_ofInt]
  have hedges : Shading.total (face.edges.map fun e ↦ (e, 1)) f = (face.edges.map f).sum := by
    simp [Shading.total, Function.comp_def]
  rw [total, weightedEdges, total_append, hsides]
  refine congrArg (· + _) ?_
  simpa using hedges

/-- The area is half the sum of the cross products. -/
theorem area_eq : face.area = face.total Edge.cross / 2 := by
  simp only [area, scalar_mul, scalar_sum, scalar_ofScientific]
  rw [total, Shading.total]
  norm_num
  ring

/-- The centroid of the boundary; none if the area is no larger than a threshold. -/
noncomputable def centroidBeyond (threshold : ℝ) : Option (Point ℝ) :=
  if |face.area| ≤ threshold then none
  else some ⟨face.total Edge.momentX / (6 * face.area), face.total Edge.momentY / (6 * face.area)⟩

section Thresholds

variable {face : Face ℝ} {threshold threshold' : ℝ}

/-- Below the threshold of the area there is no centroid. -/
theorem centroidBeyond_of_le (h : |face.area| ≤ threshold) :
    face.centroidBeyond threshold = none :=
  if_pos h

/-- Beyond the threshold there is one. -/
theorem exists_centroidBeyond (h : threshold < |face.area|) :
    ∃ p, face.centroidBeyond threshold = some p :=
  ⟨_, if_neg (not_le.2 h)⟩

/-- The threshold does not matter to a face whose area is larger. -/
theorem centroidBeyond_congr (h : threshold < |face.area|) (h' : threshold' < |face.area|) :
    face.centroidBeyond threshold = face.centroidBeyond threshold' := by
  rw [centroidBeyond, centroidBeyond, if_neg (not_le.2 h), if_neg (not_le.2 h')]

end Thresholds

/-- The host takes the gap of double precision as its threshold. -/
theorem centroid_eq : face.centroid = face.centroidBeyond Scalar.doubleEpsilon := by
  have hfold (es : List (Edge ℝ × ℝ)) (t : Point ℝ) :
      es.foldl (fun (t : Point ℝ) e ↦
        ⟨t.x + e.2 * e.1.cross * (e.1.start.x + e.1.stop.x),
          t.y + e.2 * e.1.cross * (e.1.start.y + e.1.stop.y)⟩) t =
        ⟨t.x + Shading.total es Edge.momentX, t.y + Shading.total es Edge.momentY⟩ := by
    induction es generalizing t with
    | nil => simp [total_nil]
    | cons e es ih =>
      rw [List.foldl_cons, ih, total_cons, total_cons, Edge.momentX, Edge.momentY]
      simp only [mul_assoc, add_assoc]
  rw [centroid, centroidBeyond]
  simp only [scalar_abs, scalar_le, scalar_add, scalar_mul, scalar_div, scalar_ofNat, hfold,
    Nat.cast_zero, zero_add, Nat.cast_one, Nat.cast_ofNat, mul_one_div]
  exact if_congr Iff.rfl rfl rfl

/-! ### Faces with the same sums -/

/-- The sums over both boundaries are the same. -/
def SameMoments (face face' : Face ℝ) : Prop :=
  ∀ f, Edge.Summed f → face.total f = face'.total f

section SameMoments

variable {face face' : Face ℝ} (h : SameMoments face face')

include h

/-- Faces of the same moments have the same area. -/
theorem SameMoments.area_eq : face.area = face'.area := by
  rw [Face.area_eq, Face.area_eq, h _ .cross]

/-- Faces of the same moments have the same centroid, or none. -/
theorem SameMoments.centroid_eq : face.centroid = face'.centroid := by
  rw [Face.centroid_eq, Face.centroid_eq, centroidBeyond, centroidBeyond, h.area_eq, h _ .momentX,
    h _ .momentY]

end SameMoments

/-! ### Translations -/

def translate (v : Point ℝ) : Face ℝ :=
  { face with edges := face.edges.map (·.translate v), bounds := face.bounds.translate v }

/-- The boundary of a moved face consists of the moved edges with the same counts, its sides
included. -/
theorem weightedEdges_translate (v : Point ℝ) : (face.translate v).weightedEdges =
    face.weightedEdges.map fun e ↦ (e.1.translate v, e.2) := by
  have hsides : (face.translate v).sides = face.sides.map fun s ↦ (s.1.translate v, s.2) := rfl
  rw [weightedEdges, weightedEdges, hsides, List.filter_map, List.map_append, translate]
  simp only [List.map_map]
  rfl

/-- A total over a moved face is a total over the face, of what is moved. -/
theorem total_translate (v : Point ℝ) : (face.translate v).total f =
    Shading.total face.weightedEdges fun e ↦ f (e.translate v) := by
  rw [total, weightedEdges_translate]
  exact total_map face.weightedEdges f (·.translate v)

section Translations

variable {face : Face ℝ} (closed : Closed face.weightedEdges) (v : Point ℝ)

include closed

/-- The cross products of a closed boundary do not depend on where it lies. -/
theorem total_cross_translate : (face.translate v).total Edge.cross = face.total Edge.cross := by
  obtain ⟨g, hg⟩ := Edge.cross_translate v
  rw [total_translate, closed.total_congr g hg, total]

/-- The first moment of a closed boundary grows by three times the shift, weighted by the cross
products. -/
theorem total_momentX_translate : (face.translate v).total Edge.momentX =
    face.total Edge.momentX + 3 * v.x * face.total Edge.cross := by
  obtain ⟨g, hg⟩ := Edge.momentX_translate v
  rw [total_translate, closed.total_congr g hg, total_add, total_const_mul, total, total]

theorem total_momentY_translate : (face.translate v).total Edge.momentY =
    face.total Edge.momentY + 3 * v.y * face.total Edge.cross := by
  obtain ⟨g, hg⟩ := Edge.momentY_translate v
  rw [total_translate, closed.total_congr g hg, total_add, total_const_mul, total, total]

/-- A face keeps its area when it is moved. -/
theorem area_translate : (face.translate v).area = face.area := by
  rw [area_eq, area_eq, total_cross_translate closed]

/-- The centroid moves with the face. -/
theorem centroid_translate :
    (face.translate v).centroid = face.centroid.map (·.translate v) := by
  rw [centroid_eq, centroid_eq, centroidBeyond, centroidBeyond, area_translate closed,
    total_momentX_translate closed, total_momentY_translate closed]
  split
  · rfl
  · rename_i harea
    have hne : face.area ≠ 0 := by
      intro hzero
      rw [hzero, abs_zero] at harea
      exact harea (by simp [Scalar.doubleEpsilon])
    have hcross : face.total Edge.cross = 2 * face.area := by
      rw [area_eq, mul_div_cancel₀]
      norm_num
    have hmoved (moment d : ℝ) : (moment + 3 * d * face.total Edge.cross) / (6 * face.area) =
        moment / (6 * face.area) + d := by
      rw [hcross]
      field_simp
      ring
    rw [hmoved, hmoved]
    rfl

end Translations

end Face

end Shading
