import Shading.Gradient

/-!
# Selected stops

The stops that a ratio falls on are stops of the table, whatever the order of the numbers is like:
`select` compares numbers only to choose among indices that exist.
-/

namespace Shading.Selection

variable {K : Type}

/-- All stops of the selection are among the first `n`. -/
def Inside (n : Nat) : Selection K → Prop
  | .single i => i < n
  | .between i _ => i + 1 < n

variable [Scalar K]

/-- The scan stops within the stops that are left. -/
theorem scan_inside (t : K) (index : Nat) {ratios : List K} (h : ratios ≠ []) :
    (scan t index ratios).Inside (index + ratios.length) := by
  induction ratios generalizing index with
  | nil => exact absurd rfl h
  | cons lower rest ih =>
    cases rest with
    | nil => exact Nat.lt_succ_self index
    | cons upper rest =>
      rw [scan]
      split
      · show index + 1 < index + (rest.length + 1 + 1)
        omega
      · have hrest := ih (index + 1) (List.cons_ne_nil upper rest)
        rwa [List.length_cons, Nat.add_right_comm] at hrest

/-- A selection refers to stops that are there. -/
theorem select_inside (t : K) {ratios : List K} (h : ratios ≠ []) :
    (select ratios t).Inside ratios.length := by
  cases ratios with
  | nil => exact absurd rfl h
  | cons first rest =>
    cases rest with
    | nil => exact Nat.one_pos
    | cons second rest =>
      rw [select]
      split
      · exact Nat.succ_pos _
      · split
        · exact Nat.lt_succ_self _
        · have hscan := scan_inside t 0 (List.cons_ne_nil first (second :: rest))
          rwa [Nat.zero_add] at hscan

end Shading.Selection
