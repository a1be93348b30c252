import Mathlib.Analysis.SpecialFunctions.Pow.Real
import Shading.Color.Blend

/-!
# Exact arithmetic

The real numbers as scalars, with comparisons decided and every number finite, and colors whose
conversions are any functions that undo each other without loss. Programs computed with them show
what rendering means before any rounding.

The operations of `Scalar` and those of the reals are the same functions under different names. The
lemmas of the first section pass from the former to the latter, so that the usual tactics apply;
the others say the same of vectors.
-/

namespace Shading

noncomputable instance : Scalar ℝ where
  decimal m e := m / 10 ^ e
  add a b := a + b
  sub a b := a - b
  mul a b := a * b
  div a b := a / b
  neg a := -a
  lt a b := decide (a < b)
  le a b := decide (a ≤ b)
  eq a b := decide (a = b)
  isFinite _ := true
  abs a := |a|
  sqrt a := √a
  cbrt a := if a < 0 then -(-a) ^ (1 / 3 : ℝ) else a ^ (1 / 3 : ℝ)
  floor a := ⌊a⌋
  pow a b := a ^ b
  copysign a b := if b < 0 then -|a| else |a|

/-! ### Operations -/

section

variable (a b : ℝ)

@[simp]
theorem scalar_add : @HAdd.hAdd ℝ ℝ ℝ (@instHAdd ℝ Scalar.instAdd) a b = a + b :=
  rfl

@[simp]
theorem scalar_sub : @HSub.hSub ℝ ℝ ℝ (@instHSub ℝ Scalar.instSub) a b = a - b :=
  rfl

@[simp]
theorem scalar_mul : @HMul.hMul ℝ ℝ ℝ (@instHMul ℝ Scalar.instMul) a b = a * b :=
  rfl

@[simp]
theorem scalar_div : @HDiv.hDiv ℝ ℝ ℝ (@instHDiv ℝ Scalar.instDiv) a b = a / b :=
  rfl

@[simp]
theorem scalar_neg : @Neg.neg ℝ Scalar.instNeg a = -a :=
  rfl

@[simp]
theorem scalar_lt : @LT.lt ℝ Scalar.instLT a b ↔ a < b :=
  decide_eq_true_iff

@[simp]
theorem scalar_le : @LE.le ℝ Scalar.instLE a b ↔ a ≤ b :=
  decide_eq_true_iff

/-- Over the reals a comparison is equality: there is no `NaN`. -/
@[simp]
theorem scalar_beq : @BEq.beq ℝ Scalar.instBEq a b = true ↔ a = b :=
  decide_eq_true_iff

@[simp]
theorem scalar_ofNat (n : Nat) : @OfNat.ofNat ℝ n (Scalar.instOfNat n) = n := by
  show (n : ℝ) / 10 ^ 0 = n
  rw [pow_zero, div_one]

theorem scalar_ofInt (n : Int) : (Scalar.ofInt n : ℝ) = n := by
  cases n with
  | ofNat n =>
    show (n : ℝ) / 10 ^ 0 = _
    rw [pow_zero, div_one]
    rfl
  | negSucc n =>
    show -(((n + 1 : Nat) : ℝ) / 10 ^ 0) = _
    rw [pow_zero, div_one, Int.cast_negSucc]

/-- A decimal is the quotient by a power of ten, so bounds such as `1e-8` are what they look like.
-/
@[simp]
theorem scalar_ofScientific (m e : Nat) :
    @OfScientific.ofScientific ℝ Scalar.instOfScientific m true e = m / (10 : Nat) ^ e := by
  simp [OfScientific.ofScientific, Scalar.decimal]

@[simp]
theorem scalar_abs : Scalar.abs a = |a| :=
  rfl

@[simp]
theorem scalar_sqrt : Scalar.sqrt a = √a :=
  rfl

@[simp]
theorem scalar_isFinite : Scalar.isFinite a = true :=
  rfl

@[simp]
theorem scalar_min : Scalar.min a b = min a b := by
  rw [Scalar.min, min_comm, min_def]
  simp

@[simp]
theorem scalar_max : Scalar.max a b = max a b := by
  rw [Scalar.max, max_def]
  simp

end

section

-- Numerals in statements are those of the reals, as in the library's tactics.
attribute [local instance(200)] instOfNatAtLeastTwo

/-- The gap above one in double precision, `2 ^ -52`. -/
theorem doubleEpsilon_eq : (Scalar.doubleEpsilon : ℝ) = 1 / 4503599627370496 := by
  rw [Scalar.doubleEpsilon, scalar_div, scalar_ofNat, scalar_ofNat]
  norm_num

/-- The gap above one in single precision, `2 ^ -23`. -/
theorem singleEpsilon_eq : (Scalar.singleEpsilon : ℝ) = 1 / 8388608 := by
  rw [Scalar.singleEpsilon, scalar_div, scalar_ofNat, scalar_ofNat]
  norm_num

end

namespace Vec4

theorem ext {u v : Vec4 ℝ} (hx : u.x = v.x) (hy : u.y = v.y) (hz : u.z = v.z) (hw : u.w = v.w) :
    u = v := by
  cases u
  cases v
  simp_all

section

variable (u v : Vec4 ℝ) (s t : ℝ)

@[simp]
theorem add_eq : u + v = ⟨u.x + v.x, u.y + v.y, u.z + v.z, u.w + v.w⟩ :=
  rfl

@[simp]
theorem scale_eq : u * s = ⟨u.x * s, u.y * s, u.z * s, u.w * s⟩ :=
  rfl

@[simp]
theorem zero_eq : (zero : Vec4 ℝ) = ⟨0, 0, 0, 0⟩ := by
  simp [zero, splat]

/-- A mixture by entries, the second color taken with the ratio. -/
@[simp]
theorem lerp_eq : u.lerp v t =
    ⟨u.x * (1 - t) + v.x * t, u.y * (1 - t) + v.y * t, u.z * (1 - t) + v.z * t,
      u.w * (1 - t) + v.w * t⟩ := by
  simp [lerp]

theorem eq_iff : u.eq v = true ↔ u = v := by
  cases u
  cases v
  simp [eq, and_assoc]

@[simp]
theorem isFinite_eq : u.isFinite = true := by
  simp [isFinite]

end

end Vec4

end Shading
