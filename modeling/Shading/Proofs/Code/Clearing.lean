import Mathlib.Data.List.Nodup
import Shading.Proofs.Code.Header

/-!
# Unused bits of headers

An instruction reads its opcode and its small operands from some bits of its header and ignores the
others (`Opcode.headerMask`). Writing the instruction again gives the header with the ignored bits
cleared; that is shown on numbers, where a masked header is the sum of the fields that are read from
it.

`Cleared` relates a stream, up to its first exit, to the same stream with all ignored bits cleared.
-/

namespace Shading

variable {ℓ : Type}

/-- The bits of a header that an instruction with the opcode reads. -/
def Opcode.headerMask : Opcode → UInt32
  | .blendCompose => 0x00ffffff
  | .linearBlendRatio | .radialBlendRatio => 0x0000ffff
  | .phong | .linearGradientRatio | .radialGradientRatio => 0xffffffff
  | .barycentricBlend => 0x00ff01ff
  | _ => 0x000000ff

/-- The first stream ends with its only exit; the second one is the first with all bits of headers
cleared that are not read. -/
inductive Cleared : List UInt32 → List UInt32 → Prop
  | exit {header : UInt32} :
    Opcode.ofWord? header = some .exit → Cleared [header] [header &&& Opcode.exit.headerMask]
  | step {header : UInt32} {opcode : Opcode} {own stream cleared : List UInt32} :
    Opcode.ofWord? header = some opcode → opcode ≠ .exit →
      own.length + 1 = opcode.length header → Cleared stream cleared →
        Cleared (header :: own ++ stream) ((header &&& opcode.headerMask) :: own ++ cleared)

/-- Clearing bits changes no number of words. -/
theorem Cleared.length_eq {stream cleared : List UInt32} (h : Cleared stream cleared) :
    cleared.length = stream.length := by
  induction h with
  | exit => rfl
  | step _ _ _ _ ih => simp [ih]

/-! ### Codes read from a header -/

/-- In a list without repetitions, a case stands at the position that is its code. -/
theorem code_eq_of_getElem? {α : Type} {all : List α} {c : α} {code n : Nat} (nodup : all.Nodup)
    (hcode : all[code]? = some c) (h : all[n]? = some c) : code = n :=
  (List.getElem?_inj (List.getElem?_eq_some_iff.1 hcode).1 nodup).1 (hcode.trans h.symm)

/-- An operator is found under no code but its own. -/
theorem Compose.code_of_ofCode? {c : Compose} {n : Nat} (h : ofCode? n = some c) : c.code = n :=
  code_eq_of_getElem? (by decide) c.ofCode?_code h

theorem Blend.code_of_ofCode? {c : Blend} {n : Nat} (h : ofCode? n = some c) : c.code = n :=
  code_eq_of_getElem? (by decide) c.ofCode?_code h

theorem Accuracy.code_of_ofCode? {c : Accuracy} {n : Nat} (h : ofCode? n = some c) : c.code = n :=
  code_eq_of_getElem? (by decide) c.ofCode?_code h

theorem Extend.code_of_ofCode? {c : Extend} {n : Nat} (h : ofCode? n = some c) : c.code = n :=
  code_eq_of_getElem? (by decide) c.ofCode?_code h

section

variable {header : UInt32}

/-- The opcode stands in the lowest eight bits. -/
theorem Opcode.toNat_mod_of_ofWord? {opcode : Opcode} (h : ofWord? header = some opcode) :
    header.toNat % 2 ^ 8 = opcode.code.toNat := by
  rw [code_eq_of_getElem? (by decide) opcode.ofCode?_code h]
  exact (toNat_low header).symm

/-! ### Masked headers as numbers -/

/-- A mask of ones keeps the lowest bits. -/
theorem toNat_and_low (x : UInt32) {m : UInt32} (k : Nat) (hm : m.toNat = 2 ^ k - 1) :
    (x &&& m).toNat = x.toNat % 2 ^ k := by
  rw [UInt32.toNat_and, hm, Nat.and_two_pow_sub_one_eq_mod]

/-- The number of stops stands in the highest sixteen bits. -/
theorem toNat_headerStops (x : UInt32) : headerStops x = x.toNat / 2 ^ 16 := by
  rw [headerStops, UInt32.toNat_shiftRight]
  exact Nat.shiftRight_eq_div_pow x.toNat 16

/-- The mask of a triangle has a gap between the flag and the accuracy. -/
theorem toNat_and_triangle (x : UInt32) :
    (x &&& 0x00ff01ff).toNat = x.toNat / 2 ^ 16 % 2 ^ 8 * 2 ^ 16 + x.toNat % 2 ^ 9 := by
  have hhigh : (x.toNat &&& 0x00ff01ff) / 2 ^ 16 = x.toNat / 2 ^ 16 % 2 ^ 8 := by
    rw [Nat.and_div_two_pow]
    exact Nat.and_two_pow_sub_one_eq_mod _ 8
  have hlow : (x.toNat &&& 0x00ff01ff) % 2 ^ 16 = x.toNat % 2 ^ 16 % 2 ^ 9 := by
    rw [Nat.and_mod_two_pow]
    exact Nat.and_two_pow_sub_one_eq_mod _ 9
  rw [UInt32.toNat_and]
  show x.toNat &&& 0x00ff01ff = _
  omega

/-- The flag for depths is the ninth bit. -/
theorem perspective_iff (x : UInt32) :
    (x &&& perspectiveFlag != 0) = true ↔ x.toNat / 2 ^ 8 % 2 = 1 := by
  have hhigh : (x.toNat &&& 2 ^ 8) / 2 ^ 8 = x.toNat / 2 ^ 8 % 2 := by
    rw [Nat.and_div_two_pow]
    exact Nat.and_two_pow_sub_one_eq_mod _ 1
  have hlow : (x.toNat &&& 2 ^ 8) % 2 ^ 8 = 0 := by
    rw [Nat.and_mod_two_pow, Nat.mod_self, Nat.and_zero]
  have hbit : (x &&& perspectiveFlag).toNat = x.toNat &&& 2 ^ 8 := UInt32.toNat_and x _
  rw [bne_iff_ne, ne_eq, ← UInt32.toNat_inj, hbit]
  show ¬ _ = 0 ↔ _
  omega

/-- The bits that tell the length of an instruction are among those that are read. -/
theorem Opcode.length_and_headerMask (opcode : Opcode) :
    opcode.length (header &&& opcode.headerMask) = opcode.length header := by
  have hall : header &&& 0xffffffff = header := by
    have hlt := header.toNat_lt
    refine UInt32.toNat_inj.1 ((toNat_and_low header 32 rfl).trans ?_)
    omega
  cases opcode with
  | linearGradientRatio | radialGradientRatio => exact congrArg (length · _) hall
  | barycentricBlend =>
    have hflag : (header &&& 0x00ff01ff &&& perspectiveFlag != 0) =
        (header &&& perspectiveFlag != 0) := by
      rw [Bool.eq_iff_iff, perspective_iff, perspective_iff, toNat_and_triangle]
      omega
    show (if _ then 11 else 8) = (if _ then 11 else 8)
    rw [headerMask, hflag]
  | _ => rfl

/-! ### Headers written again -/

/-- The header of an instruction is another one with the unused bits cleared if, as a number, that
is the sum of the opcode and the operands. -/
theorem Instruction.header_eq_and {i : Instruction ℓ} (fits : i.HeaderFits)
    (h : (header &&& i.opcode.headerMask).toNat = i.opcode.code.toNat + i.headerValue) :
    i.header = header &&& i.opcode.headerMask :=
  UInt32.toNat_inj.1 (by rw [toNat_header fits, h])

/-- An instruction whose opcode is all that its header says. -/
theorem header_of_plain {i : Instruction ℓ} (opcode : Opcode.ofWord? header = some i.opcode)
    (fits : i.HeaderFits) (mask : i.opcode.headerMask = 0xff) (value : i.headerValue = 0) :
    i.header = header &&& i.opcode.headerMask := by
  refine Instruction.header_eq_and fits ?_
  rw [mask, toNat_and_low header 8 rfl, Opcode.toNat_mod_of_ofWord? opcode, value, Nat.add_zero]

/-- The header of a composition, from the opcode and two fields. -/
theorem header_of_blendCompose {compose : Compose} {blend : Blend}
    (opcode : Opcode.ofWord? header = some .blendCompose)
    (hcompose : Compose.ofCode? (header >>> 8 &&& 0xff).toNat = some compose)
    (hblend : Blend.ofCode? (header >>> 16 &&& 0xff).toNat = some blend) :
    (Instruction.blendCompose (ℓ := ℓ) compose blend).header =
      header &&& Opcode.blendCompose.headerMask := by
  have hlow := Opcode.toNat_mod_of_ofWord? opcode
  have hc := Compose.code_of_ofCode? hcompose
  have hb := Blend.code_of_ofCode? hblend
  rw [toNat_field (k := 8) header (by decide) rfl] at hc hb
  refine Instruction.header_eq_and (i := .blendCompose compose blend) trivial ?_
  refine (toNat_and_low header 24 rfl).trans ?_
  show _ = _ + (compose.code * 2 ^ 8 + blend.code * 2 ^ 16)
  replace hc : compose.code = header.toNat / 2 ^ 8 % 2 ^ 8 := hc
  replace hb : blend.code = header.toNat / 2 ^ 16 % 2 ^ 8 := hb
  show _ = Opcode.blendCompose.code.toNat + _
  omega

/-- The header of lighting, from the opcode and the number of lights. -/
theorem header_of_phong {shininess : Single} (opcode : Opcode.ofWord? header = some .phong) :
    (Instruction.phong (ℓ := ℓ) shininess (header >>> 8).toNat).header =
      header &&& Opcode.phong.headerMask := by
  have hlow := Opcode.toNat_mod_of_ofWord? opcode
  have hlights : (header >>> 8).toNat = header.toNat / 2 ^ 8 := by
    rw [UInt32.toNat_shiftRight]
    exact Nat.shiftRight_eq_div_pow header.toNat 8
  have hlt := header.toNat_lt
  refine Instruction.header_eq_and (i := .phong shininess (header >>> 8).toNat) ?_ ?_
  · show (header >>> 8).toNat < 2 ^ 24
    omega
  · refine (toNat_and_low header 32 rfl).trans ?_
    show _ = Opcode.phong.code.toNat + (header >>> 8).toNat * 2 ^ 8
    omega

/-- A dispatch on a ramp, of either shape. -/
theorem header_of_ramp {i : Instruction ℓ} {accuracy : Accuracy}
    (opcode : Opcode.ofWord? header = some i.opcode) (fits : i.HeaderFits)
    (mask : i.opcode.headerMask = 0xffff) (value : i.headerValue = accuracy.code * 2 ^ 8)
    (haccuracy : Accuracy.ofCode? (header >>> 8 &&& 0xff).toNat = some accuracy) :
    i.header = header &&& i.opcode.headerMask := by
  have hlow := Opcode.toNat_mod_of_ofWord? opcode
  have ha := Accuracy.code_of_ofCode? haccuracy
  rw [toNat_field (k := 8) header (by decide) rfl] at ha
  replace ha : accuracy.code = header.toNat / 2 ^ 8 % 2 ^ 8 := ha
  refine Instruction.header_eq_and fits ?_
  rw [mask, toNat_and_low header 16 rfl, value]
  omega

/-- A dispatch on the stops of a gradient, of either shape. -/
theorem header_of_gradient {i : Instruction ℓ} {accuracy : Accuracy} {extend : Extend}
    (opcode : Opcode.ofWord? header = some i.opcode) (fits : i.HeaderFits)
    (mask : i.opcode.headerMask = 0xffffffff)
    (value : i.headerValue =
      accuracy.code * 2 ^ 8 + extend.code * 2 ^ 12 + headerStops header * 2 ^ 16)
    (haccuracy : Accuracy.ofCode? (header >>> 8 &&& 0xf).toNat = some accuracy)
    (hextend : Extend.ofCode? (header >>> 12 &&& 0xf).toNat = some extend) :
    i.header = header &&& i.opcode.headerMask := by
  have hlow := Opcode.toNat_mod_of_ofWord? opcode
  have ha := Accuracy.code_of_ofCode? haccuracy
  have he := Extend.code_of_ofCode? hextend
  rw [toNat_field (k := 4) header (by decide) rfl] at ha he
  replace ha : accuracy.code = header.toNat / 2 ^ 8 % 2 ^ 4 := ha
  replace he : extend.code = header.toNat / 2 ^ 12 % 2 ^ 4 := he
  have hstops := toNat_headerStops header
  have hlt := header.toNat_lt
  refine Instruction.header_eq_and fits ?_
  rw [mask, toNat_and_low header 32 rfl, value]
  omega

/-- The header of a triangle, from the opcode, the flag for depths and the accuracy. -/
theorem header_of_barycentricBlend {triangle : Triangle Single} {accuracy : Accuracy}
    (opcode : Opcode.ofWord? header = some .barycentricBlend)
    (depths : triangle.depths.isSome = (header &&& perspectiveFlag != 0))
    (haccuracy : Accuracy.ofCode? (header >>> 16 &&& 0xff).toNat = some accuracy) :
    (Instruction.barycentricBlend (ℓ := ℓ) triangle accuracy).header =
      header &&& Opcode.barycentricBlend.headerMask := by
  have hlow := Opcode.toNat_mod_of_ofWord? opcode
  have ha := Accuracy.code_of_ofCode? haccuracy
  rw [toNat_field (k := 8) header (by decide) rfl] at ha
  replace ha : accuracy.code = header.toNat / 2 ^ 16 % 2 ^ 8 := ha
  have hflag : (if triangle.depths.isSome then 2 ^ 8 else 0) =
      header.toNat / 2 ^ 8 % 2 * 2 ^ 8 := by
    rw [depths]
    split
    case isTrue h => rw [(perspective_iff header).1 h, Nat.one_mul]
    case isFalse h =>
      have := mt (perspective_iff header).2 h
      omega
  refine Instruction.header_eq_and (i := .barycentricBlend triangle accuracy) trivial ?_
  refine (toNat_and_triangle header).trans ?_
  show _ = Opcode.barycentricBlend.code.toNat +
    ((if triangle.depths.isSome then 2 ^ 8 else 0) + accuracy.code * 2 ^ 16)
  omega

end

end Shading
