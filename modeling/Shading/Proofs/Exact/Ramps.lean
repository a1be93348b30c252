import Mathlib.Tactic.Ring
import Shading.Proofs.Exact.Scalars
import Shading.Ramp

/-!
# Exact weights

The weights of the corners of a triangle have the sum one (`weights_sum`). This holds of exact
numbers only, and whether or not the triangle is degenerate and has depths.
-/

namespace Shading

namespace Triangle

variable (t : Triangle ℝ) (p : Point ℝ)

/-- The affine weights of a triangle sum up to one at every point, degenerate or not. -/
theorem affineWeights_sum :
    (t.affineWeights p).a + (t.affineWeights p).b + (t.affineWeights p).c = 1 := by
  simp only [affineWeights, scalar_sub, scalar_ofNat, Nat.cast_one]
  ring

/-- With depths too, the weights sum up to one, since they are divided by their sum. -/
theorem weights_sum : (t.weights p).a + (t.weights p).b + (t.weights p).c = 1 := by
  have hplain := t.affineWeights_sum p
  rw [weights]
  split
  · simp
  · split
    · exact hplain
    · split
      · exact hplain
      · rename_i z _
        dsimp only
        split
        · exact hplain
        · rename_i hsum
          simp only [Triple.map, scalar_beq, scalar_add, scalar_div, scalar_ofNat,
            Nat.cast_zero] at hsum ⊢
          rw [← add_div, ← add_div]
          exact div_self hsum

end Triangle

end Shading
