import Mathlib.Algebra.Order.Field.Basic
import Mathlib.Tactic.NormNum
import Shading.Proofs.Exact.Scalars
import Shading.Proofs.Gradient

/-!
# Stops, exactly

With numbers of an ordered field, the stops that a ratio falls on can be told without reading the
table from the front (`Placed`): an end of the table, or the gap that contains the ratio. For that
the table need not be sorted, since a scan that has passed a stop knows that the ratio is not below
it (`scan_eq`); so the gap is never empty, and a scan that starts never comes to the end.

Sorting is what makes the position along the table grow with the ratio: the gap that contains the
larger of two ratios cannot lie before the one that contains the smaller (`position_mono`).

The field is any one whose operations a `Scalar` carries out exactly (`OrderedScalar`). What holds
of rounded numbers too is that the stops exist, which is in `Shading.Proofs.Gradient`.
-/

namespace Shading

/-- The operations that choose among stops are those of the ordered field. -/
class OrderedScalar (K : Type) [Field K] [LinearOrder K] [Scalar K] : Prop where
  zero_eq : @OfNat.ofNat K 0 (Scalar.instOfNat 0) = 0
  sub_eq (a b : K) : @HSub.hSub K K K (@instHSub K Scalar.instSub) a b = a - b
  div_eq (a b : K) : @HDiv.hDiv K K K (@instHDiv K Scalar.instDiv) a b = a / b
  lt_iff (a b : K) : @LT.lt K Scalar.instLT a b ↔ a < b
  le_iff (a b : K) : @LE.le K Scalar.instLE a b ↔ a ≤ b

instance : OrderedScalar ℝ where
  zero_eq := by rw [scalar_ofNat, Nat.cast_zero]
  sub_eq := scalar_sub
  div_eq := scalar_div
  lt_iff := scalar_lt
  le_iff := scalar_le

open OrderedScalar

namespace Selection

variable {K : Type} [Field K] [LinearOrder K]

/-- Where the selection lies along the table, with one unit from each stop to the next. -/
def position : Selection K → K
  | .single i => i
  | .between i ratio => i + ratio

/-- A ratio falls on the first stop, on the last one, or into the gap that contains it. -/
inductive Placed (ratios : List K) (t : K) : Selection K → Prop
  | first (nonempty : 0 < ratios.length) :
    ratios.length = 1 ∨ t ≤ ratios[0] → Placed ratios t (.single 0)
  | last (several : 1 < ratios.length) :
    ratios[0] < t → ratios[ratios.length - 1] ≤ t →
      Placed ratios t (.single (ratios.length - 1))
  | gap (i : Nat) (several : i + 1 < ratios.length) :
    ratios[0] < t → t < ratios[ratios.length - 1] → ratios[i] ≤ t → t < ratios[i + 1] →
      Placed ratios t (.between i ((t - ratios[i]) / (ratios[i + 1] - ratios[i])))

variable [IsStrictOrderedRing K] {ratios : List K} {t t' : K}

/-- Within a gap that contains the ratio, its part of the way lies between 0 and 1. -/
theorem gap_ratio_mem {lower upper : K} (h : lower ≤ t) (h' : t < upper) :
    0 ≤ (t - lower) / (upper - lower) ∧ (t - lower) / (upper - lower) < 1 := by
  have hspan : 0 < upper - lower := sub_pos.2 (lt_of_le_of_lt h h')
  exact ⟨div_nonneg (sub_nonneg.2 h) hspan.le,
    (div_lt_one hspan).2 (sub_lt_sub_right h' lower)⟩

/-! ### Positions -/

/-- Between two stops, the position is between their indices. -/
theorem gap_position_mem (i : ℕ) {lower upper : K} (h : lower ≤ t) (h' : t < upper) :
    (i : K) ≤ i + (t - lower) / (upper - lower) ∧
      i + (t - lower) / (upper - lower) ≤ (i + 1 : ℕ) := by
  obtain ⟨hnonneg, hlt⟩ := gap_ratio_mem h h'
  rw [Nat.cast_succ]
  exact ⟨le_add_of_nonneg_right hnonneg, add_le_add_right hlt.le _⟩

namespace Placed

variable {s s' : Selection K}

/-- A position is not before the first stop. -/
theorem position_nonneg (h : Placed ratios t s) : 0 ≤ s.position := by
  cases h with
  | first => exact Nat.cast_nonneg 0
  | last => exact Nat.cast_nonneg _
  | gap i _ _ _ lower upper => exact (Nat.cast_nonneg i).trans (gap_position_mem i lower upper).1

/-- A position is not behind the last stop. -/
theorem position_le (h : Placed ratios t s) : s.position ≤ (ratios.length - 1 : ℕ) := by
  cases h with
  | first => exact Nat.cast_le.2 (Nat.zero_le _)
  | last => exact le_rfl
  | gap i several _ _ lower upper =>
    exact (gap_position_mem i lower upper).2.trans (Nat.cast_le.2 (Nat.le_sub_one_of_lt several))

omit [Field K] [IsStrictOrderedRing K] in
/-- The gaps of a sorted table that contain two ratios follow one another as the ratios do. -/
theorem gap_le_gap (sorted : ratios.Pairwise (· ≤ ·)) (le : t ≤ t') {i j : Nat}
    (hi : i + 1 < ratios.length) (hj : j + 1 < ratios.length) (lower : ratios[i] ≤ t)
    (upper : t' < ratios[j + 1]) : i ≤ j := by
  by_contra hlt
  rw [not_le] at hlt
  have hle : ratios[j + 1] ≤ ratios[i] := by
    rcases Nat.eq_or_lt_of_le (Nat.succ_le_of_lt hlt) with heq | hlt
    · exact le_of_eq (by simp only [← heq])
    · exact List.pairwise_iff_getElem.1 sorted (j + 1) i hj (Nat.lt_of_succ_lt hi) hlt
  exact absurd (lower.trans le) (not_le.2 (upper.trans_le hle))

/-- In a sorted table, a larger ratio does not lie at an earlier position. -/
theorem position_mono (sorted : ratios.Pairwise (· ≤ ·)) (le : t ≤ t') (h : Placed ratios t s)
    (h' : Placed ratios t' s') : s.position ≤ s'.position := by
  cases h' with
  | last => exact h.position_le
  | first nonempty before =>
    have hfirst (several : 1 < ratios.length) : t ≤ ratios[0] :=
      le.trans (before.resolve_left (Nat.ne_of_gt several))
    cases h with
    | first => exact le_rfl
    | last several beyond => exact absurd (hfirst several) (not_le.2 beyond)
    | gap i several beyond => exact absurd (hfirst (by omega)) (not_le.2 beyond)
  | gap j several' beyond' below lower' upper' =>
    cases h with
    | first =>
      rw [position, Nat.cast_zero]
      exact (Placed.gap j several' beyond' below lower' upper').position_nonneg
    | last _ _ last => exact absurd (last.trans le) (not_le.2 below)
    | gap i several _ _ lower upper =>
      rcases Nat.eq_or_lt_of_le (gap_le_gap sorted le several several' lower upper') with
        rfl | hlt
      · -- Within one gap, the part of the way grows with the ratio.
        have hspan : 0 ≤ ratios[i + 1] - ratios[i] := sub_nonneg.2 (lower.trans upper.le)
        exact add_le_add_right
          (div_le_div_of_nonneg_right (sub_le_sub_right le ratios[i]) hspan) _
      · calc (i : K) + (t - ratios[i]) / (ratios[i + 1] - ratios[i])
            ≤ (i + 1 : ℕ) := (gap_position_mem i lower upper).2
          _ ≤ j := Nat.cast_le.2 hlt
          _ ≤ j + (t' - ratios[j]) / (ratios[j + 1] - ratios[j]) :=
            (gap_position_mem j lower' upper').1

end Placed

/-! ### Selections -/

variable [Scalar K] [OrderedScalar K]

/-- A scan that starts with a stop that the ratio is not below stops at a gap that contains the
ratio, if the ratio is below the last stop. -/
theorem scan_eq (index : Nat) (nonempty : 0 < ratios.length) (first : ratios[0] ≤ t)
    (last : t < ratios[ratios.length - 1]) :
    ∃ (i : Nat) (_ : i + 1 < ratios.length), ratios[i] ≤ t ∧ t < ratios[i + 1] ∧
      scan t index ratios =
        .between (index + i) ((t - ratios[i]) / (ratios[i + 1] - ratios[i])) := by
  induction ratios generalizing index with
  | nil => exact absurd nonempty (Nat.lt_irrefl 0)
  | cons lower rest ih =>
    cases rest with
    | nil => exact absurd last (not_lt.2 first)
    | cons upper rest =>
      rw [scan]
      by_cases h : t < upper
      · have hspan : 0 < upper - lower := sub_pos.2 (lt_of_le_of_lt first h)
        refine ⟨0, by simp, first, h, ?_⟩
        rw [if_pos ((lt_iff t upper).2 h), Nat.add_zero]
        dsimp only
        rw [sub_eq, sub_eq, div_eq, zero_eq, if_pos ((lt_iff _ _).2 hspan)]
        rfl
      · obtain ⟨i, hi, hlower, hupper, hscan⟩ :=
          ih (index + 1) (Nat.succ_pos _) (not_lt.1 h) (by simpa using last)
        refine ⟨i + 1, Nat.succ_lt_succ hi, hlower, hupper, ?_⟩
        rw [if_neg (mt (lt_iff t upper).1 h), hscan, Nat.add_right_comm, Nat.add_assoc]
        rfl

/-- The stops that are selected are where the parameter belongs. -/
theorem placed_select (nonempty : 0 < ratios.length) (t : K) :
    Placed ratios t (select ratios t) := by
  match ratios with
  | [_] => exact .first Nat.one_pos (.inl rfl)
  | first :: second :: rest =>
    rw [select]
    have hlast : (second :: rest).getLast (List.cons_ne_nil second rest) =
        (first :: second :: rest)[(first :: second :: rest).length - 1] := by
      rw [List.getLast_eq_getElem]
      rfl
    by_cases hfirst : t ≤ first
    · rw [if_pos ((le_iff t first).2 hfirst)]
      exact .first nonempty (.inr hfirst)
    · rw [if_neg (mt (le_iff t first).1 hfirst)]
      rw [not_le] at hfirst
      rw [hlast]
      by_cases h : (first :: second :: rest)[(first :: second :: rest).length - 1] ≤ t
      · rw [if_pos ((le_iff _ t).2 h)]
        exact .last (Nat.succ_lt_succ (Nat.succ_pos _)) hfirst h
      · rw [if_neg (mt (le_iff _ t).1 h)]
        rw [not_le] at h
        obtain ⟨i, hi, hlower, hupper, hscan⟩ := scan_eq 0 nonempty hfirst.le h
        rw [hscan, Nat.zero_add]
        exact .gap i hi hfirst h hlower hupper

/-- Between two stops, the part of the way lies between 0 and 1. -/
theorem select_ratio {i : Nat} {ratio : K} (h : select ratios t = .between i ratio) :
    0 ≤ ratio ∧ ratio ≤ 1 := by
  have hne : ratios ≠ [] := by
    rintro rfl
    cases h
  have hplaced := placed_select (List.length_pos_iff.2 hne) t
  rw [h] at hplaced
  cases hplaced with
  | gap _ _ _ _ lower upper =>
    obtain ⟨hnonneg, hlt⟩ := gap_ratio_mem lower upper
    exact ⟨hnonneg, hlt.le⟩

/-- The selection is the first stop, the last one or the gap that contains the ratio, with the part
of the way that lies behind the ratio, and its position grows with the ratio if the table is sorted.
Whatever the table and the arithmetic are like, all stops of the selection exist. -/
theorem select_sorted (nonempty : 0 < ratios.length) (sorted : ratios.Pairwise (· ≤ ·))
    {R : Type} [Scalar R] {table : List R} (filled : table ≠ []) :
    (∀ t : K,
      (ratios.length = 1 ∨ t ≤ ratios[0] → select ratios t = .single 0) ∧
      (1 < ratios.length → ratios[0] < t → ratios[ratios.length - 1] ≤ t →
        select ratios t = .single (ratios.length - 1)) ∧
      (1 < ratios.length → ratios[0] < t → t < ratios[ratios.length - 1] →
        ∃ (i : Nat) (_ : i + 1 < ratios.length) (u : K), select ratios t = .between i u ∧
          ratios[i] ≤ t ∧ t < ratios[i + 1] ∧
          u = (t - ratios[i]) / (ratios[i + 1] - ratios[i]) ∧ 0 ≤ u ∧ u < 1)) ∧
    Monotone (fun t : K ↦ (select ratios t).position) ∧
    ∀ x : R, (select table x).Inside table.length := by
  refine ⟨fun t ↦ ?_, fun t t' le ↦ ?_, fun x ↦ select_inside x filled⟩
  · have hplaced := placed_select nonempty t
    generalize select ratios t = s at hplaced
    cases hplaced with
    | first _ before =>
      refine ⟨fun _ ↦ rfl, fun several beyond ↦ ?_, fun several beyond ↦ ?_⟩ <;>
        exact absurd (before.resolve_left (Nat.ne_of_gt several)) (not_le.2 beyond)
    | last several beyond last =>
      refine ⟨fun before ↦ ?_, fun _ _ _ ↦ rfl, fun _ _ below ↦ absurd last (not_le.2 below)⟩
      exact absurd (before.resolve_left (Nat.ne_of_gt several)) (not_le.2 beyond)
    | gap i several beyond below lower upper =>
      refine ⟨fun before ↦ ?_, fun _ _ last ↦ absurd last (not_le.2 below), fun _ _ _ ↦ ?_⟩
      · exact absurd (before.resolve_left (by omega)) (not_le.2 beyond)
      · exact ⟨i, several, _, rfl, lower, upper, rfl, gap_ratio_mem lower upper⟩
  · exact (placed_select nonempty t).position_mono sorted le (placed_select nonempty t')

/-- On two equal stops in the middle of a table, and in a table without numbers. -/
theorem select_hardEdge :
    (([-1, 0, 0, 1] : List ℝ).Pairwise (· ≤ ·) ∧
      select ([-1, 0, 0, 1] : List ℝ) 0 = .between 2 0 ∧
      Monotone fun t : ℝ ↦ (select ([-1, 0, 0, 1] : List ℝ) t).position) ∧
    (select [(0 / 0 : Float), 0 / 0] (0 / 0)).Inside 2 := by
  have hsorted : ([-1, 0, 0, 1] : List ℝ).Pairwise (· ≤ ·) := by norm_num
  have hnonempty : 0 < ([-1, 0, 0, 1] : List ℝ).length := by decide
  obtain ⟨hplaces, hmono, hinside⟩ :=
    select_sorted hnonempty hsorted (List.cons_ne_nil (0 / 0 : Float) [0 / 0])
  refine ⟨⟨hsorted, ?_, hmono⟩, hinside (0 / 0)⟩
  obtain ⟨i, hi, u, hselect, hlower, hupper, hu, -⟩ :=
    (hplaces 0).2.2 (by decide) (by norm_num) (by norm_num)
  match i, hi with
  | 0, _ => norm_num at hupper
  | 1, _ => norm_num at hupper
  | 2, _ =>
    rw [hselect, hu]
    norm_num

end Selection

end Shading
