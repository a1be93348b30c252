import Mathlib.Algebra.Ring.Nat
import Shading.Code.Decode
import Shading.Code.Encode

/-!
# Headers

A header is written by shifting small numbers into place and joining them, and read by shifting and
masking. As numbers, joining disjoint fields is addition (`toNat_or_of_lt`), and reading one is a
quotient and a remainder (`toNat_field`), so that a header gives back what it was made of by linear
arithmetic on `toNat_header`.
-/

namespace Shading

variable {ℓ : Type}

/-! ### Words as numbers -/

/-- A value that fits in front of its shift is not cut off. -/
theorem toNat_headerField {v : Nat} {s : UInt32} (hs : s.toNat < 32)
    (hv : v * 2 ^ s.toNat < 2 ^ 32) : (headerField v s).toNat = v * 2 ^ s.toNat := by
  have hlt : v < 2 ^ 32 := Nat.lt_of_le_of_lt (Nat.le_mul_of_pos_right v (Nat.two_pow_pos _)) hv
  rw [headerField, UInt32.toNat_shiftLeft, UInt32.toNat_ofNat_of_lt' hlt, Nat.mod_eq_of_lt hs,
    Nat.shiftLeft_eq, Nat.mod_eq_of_lt hv]

/-- Joined to smaller bits, a field is added to them. -/
theorem toNat_or_of_lt {x y : UInt32} {s k : Nat} (hx : x.toNat < 2 ^ s)
    (hy : y.toNat = k * 2 ^ s) : (x ||| y).toNat = x.toNat + y.toNat := by
  rw [UInt32.toNat_or, hy, ← Nat.shiftLeft_eq, Nat.or_comm, ← Nat.shiftLeft_add_eq_or_of_lt hx,
    Nat.add_comm]

/-- Shifting and masking takes the bits from a position on. -/
theorem toNat_field (x : UInt32) {s m : UInt32} {k : Nat} (hs : s.toNat < 32)
    (hm : m.toNat = 2 ^ k - 1) : (x >>> s &&& m).toNat = x.toNat / 2 ^ s.toNat % 2 ^ k := by
  rw [UInt32.toNat_and, UInt32.toNat_shiftRight, Nat.mod_eq_of_lt hs, hm,
    Nat.and_two_pow_sub_one_eq_mod, Nat.shiftRight_eq_div_pow]

/-- The lowest eight bits are a remainder. -/
theorem toNat_low (x : UInt32) : (x &&& 0xff).toNat = x.toNat % 256 :=
  UInt32.toNat_and x 0xff ▸ Nat.and_two_pow_sub_one_eq_mod x.toNat 8

/-! ### The number of a header -/

namespace Instruction

/-- The operands in the header are small enough for their places. -/
def HeaderFits : Instruction ℓ → Prop
  | .phong _ lights => lights < 2 ^ 24
  | .linearGradientRatio _ _ _ table | .radialGradientRatio _ _ _ table =>
    table.ratios.length < 2 ^ 16
  | _ => True

/-- The number that the operands in the header make. -/
def headerValue : Instruction ℓ → Nat
  | .blendCompose compose blend => compose.code * 2 ^ 8 + blend.code * 2 ^ 16
  | .phong _ lights => lights * 2 ^ 8
  | .linearBlendRatio _ accuracy _ | .radialBlendRatio _ accuracy _ => accuracy.code * 2 ^ 8
  | .linearGradientRatio _ accuracy extend table | .radialGradientRatio _ accuracy extend table =>
    accuracy.code * 2 ^ 8 + extend.code * 2 ^ 12 + table.ratios.length * 2 ^ 16
  | .barycentricBlend triangle accuracy =>
    (if triangle.depths.isSome then 2 ^ 8 else 0) + accuracy.code * 2 ^ 16
  | _ => 0

theorem accuracy_code_lt (a : Accuracy) : a.code < 5 := a.code_lt_length

theorem extend_code_lt (e : Extend) : e.code < 3 := e.code_lt_length

/-- The fields of a gradient do not overlap, so they are added. -/
theorem toNat_gradientFields (accuracy : Accuracy) (extend : Extend) {n : Nat} (h : n < 2 ^ 16) :
    (headerField accuracy.code 8 ||| headerField extend.code 12 ||| headerField n 16).toNat =
      accuracy.code * 2 ^ 8 + extend.code * 2 ^ 12 + n * 2 ^ 16 := by
  have ha := accuracy_code_lt accuracy
  have he := extend_code_lt extend
  have hfirst : (headerField accuracy.code 8).toNat = accuracy.code * 2 ^ 8 :=
    toNat_headerField (by decide) (by show _ * 2 ^ 8 < _; omega)
  have hsecond : (headerField extend.code 12).toNat = extend.code * 2 ^ 12 :=
    toNat_headerField (by decide) (by show _ * 2 ^ 12 < _; omega)
  have hthird : (headerField n 16).toNat = n * 2 ^ 16 :=
    toNat_headerField (by decide) (by show _ * 2 ^ 16 < _; omega)
  have hjoined := toNat_or_of_lt (by omega : (headerField accuracy.code 8).toNat < 2 ^ 12) hsecond
  have hlt : (headerField accuracy.code 8 ||| headerField extend.code 12).toNat < 2 ^ 16 := by
    rw [hjoined]
    omega
  rw [toNat_or_of_lt hlt hthird, hjoined, hfirst, hsecond, hthird]

/-- The fields of a header are the number they stand for, if the values fit. -/
theorem toNat_headerFields {i : Instruction ℓ} (h : i.HeaderFits) :
    i.headerFields.toNat = i.headerValue := by
  cases i with
  | blendCompose compose blend =>
    cases compose <;> cases blend <;> rfl
  | phong shininess lights =>
    have hlights : lights < 2 ^ 24 := h
    exact toNat_headerField (by decide) (by show _ * 2 ^ 8 < _; omega)
  | linearBlendRatio ramp accuracy branches | radialBlendRatio ramp accuracy branches =>
    cases accuracy <;> rfl
  | linearGradientRatio axis accuracy extend table =>
    exact toNat_gradientFields accuracy extend h
  | radialGradientRatio circles accuracy extend table =>
    exact toNat_gradientFields accuracy extend h
  | barycentricBlend triangle accuracy =>
    rw [headerFields, headerValue]
    cases triangle.depths.isSome <;> cases accuracy <;> rfl
  | _ => rfl

theorem toNat_opcode_code (o : Opcode) : o.code.toNat < 24 := by
  cases o with
  | convert c => cases c <;> decide
  | _ => decide

/-- No field reaches into the bits of the opcode. -/
theorem headerValue_mod (i : Instruction ℓ) : i.headerValue = i.headerValue / 2 ^ 8 * 2 ^ 8 := by
  cases i with
  | barycentricBlend triangle accuracy =>
    rw [headerValue]
    split <;> omega
  | blendCompose | phong | linearBlendRatio | radialBlendRatio | linearGradientRatio
  | radialGradientRatio =>
    rw [headerValue]
    omega
  | _ => simp [headerValue]

/-- A header is its opcode and its fields, added. -/
theorem toNat_header {i : Instruction ℓ} (h : i.HeaderFits) :
    i.header.toNat = i.opcode.code.toNat + i.headerValue := by
  have hcode := toNat_opcode_code i.opcode
  rw [header, toNat_or_of_lt (s := 8) (by omega) (toNat_headerFields h ▸ i.headerValue_mod),
    toNat_headerFields h]

/-- A field of a header, as a number. -/
theorem toNat_field_header {i : Instruction ℓ} (h : i.HeaderFits) {s m : UInt32} {k : Nat}
    (hs : s.toNat < 32) (hm : m.toNat = 2 ^ k - 1) :
    (i.header >>> s &&& m).toNat =
      (i.opcode.code.toNat + i.headerValue) / 2 ^ s.toNat % 2 ^ k := by
  rw [toNat_field i.header hs hm, toNat_header h]

/-- The opcode is read back from the header. -/
theorem ofWord?_header {i : Instruction ℓ} (h : i.HeaderFits) :
    Opcode.ofWord? i.header = some i.opcode := by
  have hcode := toNat_opcode_code i.opcode
  have hvalue := i.headerValue_mod
  have hlow : (i.header &&& 0xff).toNat = i.opcode.code.toNat := by
    rw [toNat_low, toNat_header h]
    omega
  rw [Opcode.ofWord?, hlow, Opcode.ofCode?_code]

/-- The number of stops is read back from the header of a gradient. -/
theorem headerStops_header {i : Instruction ℓ} (h : i.HeaderFits) :
    headerStops i.header = i.headerValue / 2 ^ 16 := by
  have hcode := toNat_opcode_code i.opcode
  have hvalue := i.headerValue_mod
  rw [headerStops, UInt32.toNat_shiftRight, toNat_header h]
  show _ >>> 16 = _
  rw [Nat.shiftRight_eq_div_pow]
  omega

/-- The fields of a composition are read back from its header. -/
theorem composeFields {compose : Compose} {blend : Blend} {i : Instruction ℓ} (h : i.HeaderFits)
    (value : i.headerValue = compose.code * 2 ^ 8 + blend.code * 2 ^ 16) :
    (i.header >>> 8 &&& 0xff).toNat = compose.code ∧
      (i.header >>> 16 &&& 0xff).toNat = blend.code := by
  have hcode := toNat_opcode_code i.opcode
  have hc : compose.code < 2 ^ 8 := Nat.lt_of_lt_of_le compose.code_lt_length (by decide)
  have hb : blend.code < 2 ^ 8 := Nat.lt_of_lt_of_le blend.code_lt_length (by decide)
  rw [toNat_field_header (k := 8) h (by decide) rfl, toNat_field_header (k := 8) h (by decide) rfl,
    value]
  show _ / 2 ^ 8 % 2 ^ 8 = _ ∧ _ / 2 ^ 16 % 2 ^ 8 = _
  omega

theorem rampFields {accuracy : Accuracy} {i : Instruction ℓ} (h : i.HeaderFits)
    (value : i.headerValue = accuracy.code * 2 ^ 8) :
    (i.header >>> 8 &&& 0xff).toNat = accuracy.code := by
  have hcode := toNat_opcode_code i.opcode
  have ha := accuracy_code_lt accuracy
  rw [toNat_field_header (k := 8) h (by decide) rfl, value]
  show _ / 2 ^ 8 % 2 ^ 8 = _
  omega

/-- The fields of a gradient are read back from its header. -/
theorem gradientFields {accuracy : Accuracy} {extend : Extend} {n : Nat} {i : Instruction ℓ}
    (h : i.HeaderFits)
    (value : i.headerValue = accuracy.code * 2 ^ 8 + extend.code * 2 ^ 12 + n * 2 ^ 16) :
    headerStops i.header = n ∧ (i.header >>> 8 &&& 0xf).toNat = accuracy.code ∧
      (i.header >>> 12 &&& 0xf).toNat = extend.code := by
  have hcode := toNat_opcode_code i.opcode
  have ha := accuracy_code_lt accuracy
  have he := extend_code_lt extend
  rw [toNat_field_header (k := 4) h (by decide) rfl, toNat_field_header (k := 4) h (by decide) rfl,
    headerStops_header h, value]
  show _ ∧ _ / 2 ^ 8 % 2 ^ 4 = _ ∧ _ / 2 ^ 12 % 2 ^ 4 = _
  omega

/-- The number of lights is read back from a header. -/
theorem lightField {shininess : Single} {lights : Nat} (h : lights < 2 ^ 24) :
    ((phong (ℓ := ℓ) shininess lights).header >>> 8).toNat = lights := by
  have hcode := toNat_opcode_code (phong (ℓ := ℓ) shininess lights).opcode
  rw [UInt32.toNat_shiftRight, toNat_header (i := phong shininess lights) h, headerValue]
  show _ >>> 8 = _
  rw [Nat.shiftRight_eq_div_pow]
  omega

/-- The accuracy of a triangle is read back from its header. -/
theorem triangleField (triangle : Triangle Single) (accuracy : Accuracy) :
    ((barycentricBlend (ℓ := ℓ) triangle accuracy).header >>> 16 &&& 0xff).toNat =
      accuracy.code := by
  rw [header, headerFields, opcode]
  cases triangle.depths.isSome <;> cases accuracy <;> rfl

/-- The flag of a triangle tells whether it has depths. -/
theorem perspective_header {triangle : Triangle Single} {accuracy : Accuracy} :
    ((barycentricBlend (ℓ := ℓ) triangle accuracy).header &&& perspectiveFlag != 0) =
      triangle.depths.isSome := by
  rw [header, headerFields, opcode]
  cases triangle.depths.isSome <;> cases accuracy <;> rfl

/-- The length is read back from the header. -/
theorem length_header {i : Instruction ℓ} (h : i.HeaderFits) :
    i.opcode.length i.header = i.length := by
  cases i with
  | barycentricBlend triangle accuracy =>
    show (if _ then 11 else 8) = (if _ then 11 else 8)
    rw [perspective_header]
  | linearGradientRatio axis accuracy extend table =>
    show 13 + 2 * headerStops _ = 13 + 2 * table.ratios.length
    rw [(gradientFields h rfl).1]
  | radialGradientRatio circles accuracy extend table =>
    show 15 + 2 * headerStops _ = 15 + 2 * table.ratios.length
    rw [(gradientFields h rfl).1]
  | _ => rfl

end Instruction

end Shading
