import Shading.Binary

/-!
# Cube roots

The double nearest to the cube root of a double, found from the whole cube root of a whole number.

Shape decisions: the whole root is built bit by bit from the top, with the invariant that its cube
does not exceed the number while one more bit would. The argument is scaled so that its root has
more bits than a double keeps. The root of a double is never exactly halfway between two doubles, so
an odd bit behind the whole root decides the rounding as all further bits would.
-/

namespace Shading

namespace CubeRoot

def cube (n : Nat) : Nat := n * n * n

/-- The cube of a power of two. -/
theorem cube_two_pow (k : Nat) : cube (Nat.pow 2 k) = Nat.pow 2 (3 * k) := by
  induction k with
  | zero => rfl
  | succ k ih =>
    change cube (Nat.pow 2 k * 2) = Nat.pow 2 (3 * k) * 2 * 2 * 2
    rw [← ih, cube, cube]
    ac_rfl

/-- The root so far, with its lowest `bits` bits still to be chosen. -/
def refine (n : Nat) : (bits root : Nat) → Nat
  | 0, root => root
  | bits + 1, root =>
    let raised := root + Nat.pow 2 bits
    refine n bits (if cube raised ≤ n then raised else root)

/-- The greatest whole number whose cube is not greater. -/
def floor (n : Nat) : Nat := refine n (n.log2 / 3 + 1) 0

/-- Refining brackets the root, one bit after the other. -/
theorem refine_bounds (n bits root : Nat) (low : cube root ≤ n)
    (high : n < cube (root + Nat.pow 2 bits)) :
    cube (refine n bits root) ≤ n ∧ n < cube (refine n bits root + 1) := by
  induction bits generalizing root with
  | zero => exact ⟨low, high⟩
  | succ bits ih =>
    unfold refine
    by_cases h : cube (root + Nat.pow 2 bits) ≤ n
    · simp only [h, if_true]
      refine ih _ h ?_
      rw [Nat.add_assoc, ← Nat.mul_two]
      exact high
    · simp only [h, if_false]
      exact ih _ low (Nat.lt_of_not_le h)

/-- The whole root is the only one with its cube at most the number and the next cube above it. -/
theorem floor_bounds (n : Nat) : cube (floor n) ≤ n ∧ n < cube (floor n + 1) := by
  refine refine_bounds n _ 0 (Nat.zero_le n) ?_
  rw [Nat.zero_add, cube_two_pow]
  exact Nat.lt_of_lt_of_le Nat.lt_log2_self (Nat.pow_le_pow_right (by decide) (by omega))

/-- The number of bits of the scaled argument, three times those of its root. -/
def scaledBits : Nat := 168

/-- The root of a positive number: a significand and an exponent of two. -/
def ofBinary (b : Binary) : Nat × Int :=
  let wanted := scaledBits - b.significand.log2
  -- The exponent of the scaled argument has to be a multiple of three.
  let shift := wanted + ((b.exponent - wanted) % 3).toNat
  (2 * floor (b.significand * Nat.pow 2 shift) + 1, (b.exponent - shift) / 3 - 1)

end CubeRoot

/-- The nearest double to the cube root; zeros, infinities and `NaN` are their own roots. -/
def cubeRoot (x : Float) : Float :=
  match BinaryClass.ofDouble x.toBits with
  | .finite negative b =>
    let (m, e) := CubeRoot.ofBinary b
    let root := (Float.ofNat m).scaleB e
    if negative then -root else root
  | _ => x

end Shading
