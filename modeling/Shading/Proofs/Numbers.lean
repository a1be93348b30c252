import Shading.Program.Basic

/-!
# Numbers that equal themselves

Among machine numbers a `NaN` differs from itself, and nothing else does. Where none is around,
numeric equality is reflexive. The laws that say where a `NaN` cannot come from (`NaNLaws`) are few:
zero and finite numbers are none, and a product is none if its factors are not and neither is zero.
Doubles obey them.

Numbers that equal zero do not equal one (`DistinctUnits`). This holds of doubles too, where two
numbers equal zero and one equals one.
-/

namespace Shading

/-- None of the numbers is a `NaN`, which would differ from itself. -/
def SelfEqual {K : Type} [Scalar K] (xs : List K) : Prop := ∀ x ∈ xs, (x == x) = true

section

variable {K : Type} [Scalar K] {x : K} {xs ys : List K}

theorem selfEqual_nil : SelfEqual ([] : List K) := List.forall_mem_nil _

theorem selfEqual_cons : SelfEqual (x :: xs) ↔ (x == x) = true ∧ SelfEqual xs :=
  List.forall_mem_cons

theorem selfEqual_append : SelfEqual (xs ++ ys) ↔ SelfEqual xs ∧ SelfEqual ys :=
  List.forall_mem_append

/-- A color without `NaN` equals itself. -/
theorem Vec4.eq_of_selfEqual {v : Vec4 K} (h : SelfEqual v.toList) : v.eq v = true := by
  simp only [toList, selfEqual_cons] at h
  simp [eq, h]

theorem Affine.eq_of_selfEqual {m : Affine K} (h : SelfEqual m.toList) : m.eq m = true := by
  simp only [toList, selfEqual_cons] at h
  simp [eq, h]

theorem Kind.listEq_of_selfEqual (h : SelfEqual xs) : listEq xs xs = true := by
  induction xs with
  | nil => rfl
  | cons x xs ih =>
    rw [selfEqual_cons] at h
    rw [listEq, h.1, ih h.2]
    rfl

end

/-- Where a `NaN` does not come from. -/
class NaNLaws (K : Type) [Scalar K] : Prop where
  zero_eq : ((0 : K) == 0) = true
  eq_of_isFinite {x : K} : Scalar.isFinite x = true → (x == x) = true
  mul_eq {x y : K} : (x == x) = true → (y == y) = true → (x == 0) = false → (y == 0) = false →
    (x * y == x * y) = true

/-- No number equals both zero and one. -/
class DistinctUnits (K : Type) [Scalar K] : Prop where
  ne_one {x : K} : (x == 0) = true → (x == 1) = false

/-! ### Doubles -/

namespace Doubles

open Float.Model

/-- Every number that is not a `NaN` compares as equal with itself. -/
theorem compare_self {u : UnpackedFloat} (h : u ≠ .notANumber) : u.compare u = some .eq := by
  cases u with
  | notANumber => exact absurd rfl h
  | infinity s => cases s <;> rfl
  | zero s => rfl
  | finite s m e pos =>
    have hsame : (compare e e).then (compare m m) = .eq := by simp
    cases s with
    | negative => exact congrArg (fun o ↦ some (Ordering.swap o)) hsame
    | positive => exact congrArg some hsame

/-- A double that is not `NaN` equals itself. -/
theorem beq_self {x : Float} (h : x.toModel.unpack ≠ .notANumber) : x.beq x = true := by
  show (x.toModel.unpack.compare x.toModel.unpack == some Ordering.eq) = true
  rw [compare_self h]
  rfl

/-- A double that equals itself is not `NaN`. -/
theorem unpack_ne_notANumber_of_beq_self {x : Float} (h : x.beq x = true) :
    x.toModel.unpack ≠ .notANumber := by
  intro hnan
  have hcompare : (x.toModel.unpack.compare x.toModel.unpack == some Ordering.eq) = true := h
  rw [hnan] at hcompare
  cases hcompare

theorem unpack_zero : (Scalar.decimal 0 0 : Float).toModel.unpack = .zero .positive := rfl

/-- Bits stand for a `NaN` only with the greatest exponent and a mantissa. -/
theorem unpack_ne_notANumber {b : BitVec Format.binary64.numBits}
    (h : UnpackedFloat.unpackExponent b = -1#_ → UnpackedFloat.unpackMantissa b = 0#_) :
    UnpackedFloat.unpack Format.binary64 b ≠ .notANumber := by
  delta UnpackedFloat.unpack
  dsimp only
  by_cases hgreatest : UnpackedFloat.unpackExponent b = -1#_
  · rw [if_pos hgreatest, if_pos (h hgreatest)]
    exact UnpackedFloat.noConfusion
  · rw [if_neg hgreatest]
    by_cases hleast : UnpackedFloat.unpackExponent b = 0#_
    · rw [if_pos hleast]
      by_cases hmantissa : UnpackedFloat.unpackMantissa b = 0#_
      · rw [dif_pos hmantissa]
        exact UnpackedFloat.noConfusion
      · rw [dif_neg hmantissa]
        exact UnpackedFloat.noConfusion
    · rw [if_neg hleast]
      exact UnpackedFloat.noConfusion

/-- Packing rounds to infinity, but not to a `NaN`. -/
theorem unpack_pack_ne_notANumber {u : UnpackedFloat} (h : u ≠ .notANumber) :
    (pack u).unpack ≠ .notANumber := by
  refine unpack_ne_notANumber ?_
  show UnpackedFloat.unpackExponent (UnpackedFloat.pack Format.binary64 u) = -1#_ →
    UnpackedFloat.unpackMantissa (UnpackedFloat.pack Format.binary64 u) = 0#_
  fun_cases UnpackedFloat.pack Format.binary64 u with
  | case1 => exact absurd rfl h
  | case2 s => simp [UnpackedFloat.packedInfinity]
  | case3 s => simp [UnpackedFloat.packedZero]
  | case4 s m e pos => simp [UnpackedFloat.packedInfinity]
  | case5 s m e pos bits exponent hexponent hbits =>
    intro hgreatest
    have hvalue : exponent % 2048 = 2047 := by simpa using congrArg BitVec.toNat hgreatest
    have hbound : ¬2048 ≤ exponent + 1 := hexponent
    omega
  | case6 s m e pos => simp

/-- Rounding a finite number never gives `NaN`. -/
theorem roundWithAccuracy_ne_notANumber (s : UnpackedFloat.Sign) (m : Nat) (e : Int)
    (a : UnpackedFloat.Accuracy) :
    UnpackedFloat.roundWithAccuracy Format.binary64 s m e a ≠ .notANumber := by
  fun_cases UnpackedFloat.roundWithAccuracy Format.binary64 s m e a with
  | case1 => exact UnpackedFloat.noConfusion
  | case2 => exact UnpackedFloat.noConfusion

/-- A product is a `NaN` only if a factor is, or if one is zero. -/
theorem mul_ne_notANumber {u v : UnpackedFloat} (hu : u ≠ .notANumber) (hv : v ≠ .notANumber)
    (hu' : ∀ s, u ≠ .zero s) (hv' : ∀ s, v ≠ .zero s) :
    UnpackedFloat.mul Format.binary64 u v ≠ .notANumber := by
  cases u with
  | notANumber => exact absurd rfl hu
  | zero s => exact absurd rfl (hu' s)
  | infinity s =>
    cases v with
    | notANumber => exact absurd rfl hv
    | zero t => exact absurd rfl (hv' t)
    | infinity t => exact UnpackedFloat.noConfusion
    | finite t m e pos => exact UnpackedFloat.noConfusion
  | finite s m e pos =>
    cases v with
    | notANumber => exact absurd rfl hv
    | zero t => exact absurd rfl (hv' t)
    | infinity t => exact UnpackedFloat.noConfusion
    | finite t m e pos => exact roundWithAccuracy_ne_notANumber _ _ _ _

/-- A double that does not equal zero is not zero, of either sign. -/
theorem ne_zero_of_beq {x : Float} (h : x.beq (Scalar.decimal 0 0) = false) (s) :
    x.toModel.unpack ≠ .zero s := by
  intro hzero
  have hcompare : (x.toModel.unpack.compare (Scalar.decimal 0 0 : Float).toModel.unpack ==
    some Ordering.eq) = false := h
  rw [hzero, unpack_zero] at hcompare
  cases hcompare

theorem unpack_one : (Scalar.decimal 1 0 : Float).toModel.unpack =
    .finite .positive 4503599627370496 (-52) (by decide) := rfl

/-- Only zeros compare as equal with zero. -/
theorem exists_zero_of_compare {u : UnpackedFloat} {s : UnpackedFloat.Sign}
    (h : u.compare (.zero s) = some .eq) : ∃ t, u = .zero t := by
  cases u with
  | zero t => exact ⟨t, rfl⟩
  | notANumber => cases h
  | infinity t => cases t <;> cases h
  | finite t m e pos => cases t <;> cases h

end Doubles

open Doubles Float.Model in
instance : NaNLaws Float where
  zero_eq := beq_self (x := Scalar.decimal 0 0) UnpackedFloat.noConfusion
  eq_of_isFinite {x} h := by
    refine beq_self fun hnan ↦ ?_
    have hfinite : x.toModel.unpack.isFinite = true := h
    rw [hnan] at hfinite
    cases hfinite
  mul_eq {x y} hx hy hx' hy' := by
    have hmul := mul_ne_notANumber (unpack_ne_notANumber_of_beq_self hx)
      (unpack_ne_notANumber_of_beq_self hy) (ne_zero_of_beq hx') (ne_zero_of_beq hy')
    exact beq_self (unpack_pack_ne_notANumber hmul)

open Doubles Float.Model in
instance : DistinctUnits Float where
  ne_one {x} h := by
    have hzero : (x.toModel.unpack.compare (Scalar.decimal 0 0 : Float).toModel.unpack ==
      some Ordering.eq) = true := h
    obtain ⟨s, hs⟩ := exists_zero_of_compare (unpack_zero ▸ eq_of_beq hzero)
    show (x.toModel.unpack.compare (Scalar.decimal 1 0 : Float).toModel.unpack ==
      some Ordering.eq) = false
    rw [hs, unpack_one]
    rfl

end Shading
