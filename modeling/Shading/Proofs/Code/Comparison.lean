import Shading.Code.Encode
import Shading.Code.Equality
import Shading.Proofs.Numbers

/-!
# Lists that compare as equal

Numeric equality is not reflexive: a list with a `NaN` among its operands is not the same as itself.
Without one it is, since equal bits are the first thing that the comparison of two numbers tests.

Nor does it tell the two zeros apart. What is numerically the same has the same canonical form if
the operands are also equal bit by bit: a structure of operands can be read off their list, and
everything else is compared as it stands (`canonical_eq_of_sameInstructions`).
-/

namespace Shading

variable {ℓ ℓ' : Type}

/-- The single precision operands of an instruction. -/
def Instruction.singles : Instruction ℓ → List Single
  | .pushColor color => color.toList
  | .multiplyScalar factor => [factor]
  | .filter m => m.entries ++ m.shift.toList
  | .phong shininess _ => [shininess]
  | .linearBlendRatio ramp _ _ => ramp.operands
  | .radialBlendRatio ramp _ _ => ramp.operands
  | .linearGradientRatio axis _ _ table => axis.operands ++ table.ratios
  | .radialGradientRatio circles _ _ table => circles.operands ++ table.ratios
  | .barycentricBlend triangle _ => triangle.operands
  | _ => []

/-- None of the operands is a `NaN`. -/
def AllNumbers (xs : List Single) : Prop := ∀ s ∈ xs, s.isNaN = false

theorem allNumbers_cons {s : Single} {xs : List Single} :
    AllNumbers (s :: xs) ↔ s.isNaN = false ∧ AllNumbers xs :=
  List.forall_mem_cons

theorem allNumbers_append {xs ys : List Single} :
    AllNumbers (xs ++ ys) ↔ AllNumbers xs ∧ AllNumbers ys :=
  List.forall_mem_append

theorem singles_map (f : ℓ → ℓ') (i : Instruction ℓ) : (i.map f).singles = i.singles := by
  cases i <;> rfl

/-- A number that is not `NaN` equals itself. -/
theorem Single.numericEq_self {s : Single} (h : s.isNaN = false) : s.numericEq s = true := by
  rw [numericEq, h, beq_self_eq_true]
  rfl

theorem AllNumbers.selfEqual {xs : List Single} (h : AllNumbers xs) : SelfEqual xs :=
  fun s hs ↦ Single.numericEq_self (h s hs)

theorem Vec4.eq_self {v : Vec4 Single} (h : AllNumbers v.toList) : v.eq v = true :=
  eq_of_selfEqual h.selfEqual

theorem Point.eq_self {p : Point Single} (h : AllNumbers p.toList) : p.eq p = true := by
  have hself := h.selfEqual
  simp only [toList, selfEqual_cons] at hself
  simp [eq, hself]

theorem Affine.eq_self {m : Affine Single} (h : AllNumbers m.toList) : m.eq m = true :=
  eq_of_selfEqual h.selfEqual

/-! ### Operands and the structures that hold them -/

section Operands

variable {K : Type}

theorem Vec4.toList_inj {v w : Vec4 K} (h : v.toList = w.toList) : v = w := by
  cases v
  cases w
  simpa [toList] using h

theorem LinearRamp.operands_inj {r s : LinearRamp K} (h : r.operands = s.operands) : r = s := by
  rcases r with ⟨⟨_, _⟩, _⟩
  rcases s with ⟨⟨_, _⟩, _⟩
  simpa [operands, Point.toList, and_assoc] using h

theorem RadialRamp.operands_inj {r s : RadialRamp K} (h : r.operands = s.operands) : r = s := by
  rcases r with ⟨⟨_, _, _, _, _, _⟩, _, _⟩
  rcases s with ⟨⟨_, _, _, _, _, _⟩, _, _⟩
  simpa [operands, Affine.toList, and_assoc] using h

theorem LinearAxis.operands_inj {r s : LinearAxis K} (h : r.operands = s.operands) : r = s := by
  rcases r with ⟨⟨_, _, _, _, _, _⟩, ⟨_, _⟩, _, _⟩
  rcases s with ⟨⟨_, _, _, _, _, _⟩, ⟨_, _⟩, _, _⟩
  simpa [operands, Affine.toList, Point.toList, and_assoc] using h

theorem CirclePair.operands_inj {r s : CirclePair K} (h : r.operands = s.operands) : r = s := by
  rcases r with ⟨⟨_, _, _, _, _, _⟩, ⟨_, _⟩, _, ⟨_, _⟩, _⟩
  rcases s with ⟨⟨_, _, _, _, _, _⟩, ⟨_, _⟩, _, ⟨_, _⟩, _⟩
  simpa [operands, Affine.toList, Point.toList, and_assoc] using h

theorem Triangle.operands_inj {r s : Triangle K} (h : r.operands = s.operands) : r = s := by
  rcases r with ⟨⟨⟨_, _⟩, ⟨_, _⟩, _, _⟩, _, - | ⟨_, _, _⟩⟩ <;>
    rcases s with ⟨⟨⟨_, _⟩, ⟨_, _⟩, _, _⟩, _, - | ⟨_, _, _⟩⟩ <;>
    simp_all [operands, Triple.toList, Point.toList]

theorem ColorFilter.operands_inj {m n : ColorFilter K}
    (h : m.entries ++ m.shift.toList = n.entries ++ n.shift.toList) : m = n := by
  rcases m with ⟨⟨_, _, _, _⟩, ⟨_, _, _, _⟩, ⟨_, _, _, _⟩, ⟨_, _, _, _⟩, _, _, _, _⟩
  rcases n with ⟨⟨_, _, _, _⟩, ⟨_, _, _, _⟩, ⟨_, _, _, _⟩, ⟨_, _, _, _⟩, _, _, _, _⟩
  simpa [entries, Vec4.toList, and_assoc] using h

end Operands

/-! ### Instructions -/

namespace Instruction

variable [DecidableEq ℓ]

theorem listEq_self {xs : List Single} (h : AllNumbers xs) : numericEq.listEq xs xs = true := by
  induction xs with
  | nil => rfl
  | cons s xs ih =>
    rw [allNumbers_cons] at h
    rw [numericEq.listEq, Single.numericEq_self h.1, ih h.2]
    rfl

theorem tableEq_self {table : StopTable ℓ} (h : AllNumbers table.ratios) :
    numericEq.tableEq table table = true := by
  simp [numericEq.tableEq, listEq_self h]

theorem triangleEq_self {triangle : Triangle Single} (h : AllNumbers triangle.operands) :
    numericEq.triangleEq triangle triangle = true := by
  simp only [Triangle.operands, Triple.toList, List.flatMap_cons, allNumbers_append,
    allNumbers_cons] at h
  rcases hdepths : triangle.depths with - | depths
  · simp [numericEq.triangleEq, Point.eq_self, Single.numericEq_self, hdepths, h]
  · rw [hdepths] at h
    have hlist : numericEq.listEq depths.toList depths.toList = true := listEq_self h.2
    simp [numericEq.triangleEq, Point.eq_self, Single.numericEq_self, hdepths, hlist, h]

/-- An instruction is the same as itself if none of its operands is a `NaN`. -/
theorem numericEq_self {i : Instruction ℓ} (h : AllNumbers i.singles) : i.numericEq i = true := by
  cases i with
  | pushColor color => exact Vec4.eq_self h
  | multiplyScalar factor => exact Single.numericEq_self (h factor List.mem_cons_self)
  | filter m =>
    simp only [singles, ColorFilter.entries, allNumbers_append] at h
    simp [numericEq, ColorFilter.eq, Vec4.eq_self, h]
  | phong shininess lights =>
    simp [numericEq, Single.numericEq_self (h shininess List.mem_cons_self)]
  | linearBlendRatio ramp accuracy branches =>
    simp only [singles, LinearRamp.operands, allNumbers_append, allNumbers_cons] at h
    simp [numericEq, Point.eq_self, Single.numericEq_self, h]
  | radialBlendRatio ramp accuracy branches =>
    simp only [singles, RadialRamp.operands, allNumbers_append, allNumbers_cons] at h
    simp [numericEq, Affine.eq_self, Single.numericEq_self, h]
  | linearGradientRatio axis accuracy extend table =>
    simp only [singles, LinearAxis.operands, allNumbers_append] at h
    simp [numericEq, Affine.eq_self, Point.eq_self, tableEq_self, h]
  | radialGradientRatio circles accuracy extend table =>
    simp only [singles, CirclePair.operands, allNumbers_append, allNumbers_cons] at h
    simp [numericEq, Affine.eq_self, Point.eq_self, Single.numericEq_self, tableEq_self, h]
  | barycentricBlend triangle accuracy =>
    have htriangle : AllNumbers triangle.operands := h
    simp [numericEq, triangleEq_self htriangle]
  | _ => simp [numericEq]

/-- Tables that are equal, with ratios of the same bits, are the same. -/
theorem eq_of_tableEq {t t' : StopTable ℓ} (h : numericEq.tableEq t t' = true)
    (bits : t.ratios = t'.ratios) : t = t' := by
  simp only [numericEq.tableEq, Bool.and_eq_true, decide_eq_true_eq] at h
  obtain ⟨⟨⟨-, hstops⟩, hblend⟩, hdone⟩ := h
  cases t
  cases t'
  simp_all

/-- Instructions that are numerically the same are the same if their operands are equal bit by
bit. -/
theorem eq_of_numericEq {i j : Instruction ℓ} (h : i.numericEq j = true)
    (bits : i.singles = j.singles) : i = j := by
  fun_cases numericEq i j with
  | case1 c c' => exact congrArg pushColor (Vec4.toList_inj bits)
  | case2 f f' => exact congrArg multiplyScalar (List.singleton_inj.1 bits)
  | case3 m m' => exact congrArg filter (ColorFilter.operands_inj bits)
  | case4 s n s' n' =>
    rw [numericEq, Bool.and_eq_true, beq_iff_eq] at h
    rw [List.singleton_inj.1 bits, h.2]
  | case5 r k b r' k' b' =>
    simp only [numericEq, Bool.and_eq_true, beq_iff_eq, decide_eq_true_eq] at h
    rw [LinearRamp.operands_inj bits, h.1.2, h.2]
  | case6 r k b r' k' b' =>
    simp only [numericEq, Bool.and_eq_true, beq_iff_eq, decide_eq_true_eq] at h
    rw [RadialRamp.operands_inj bits, h.1.2, h.2]
  | case7 r k x t r' k' x' t' =>
    simp only [numericEq, Bool.and_eq_true, beq_iff_eq] at h
    obtain ⟨haxis, hratios⟩ := List.append_inj bits rfl
    rw [LinearAxis.operands_inj haxis, h.1.1.2, h.1.2, eq_of_tableEq h.2 hratios]
  | case8 r k x t r' k' x' t' =>
    simp only [numericEq, Bool.and_eq_true, beq_iff_eq] at h
    obtain ⟨hcircles, hratios⟩ := List.append_inj bits rfl
    rw [CirclePair.operands_inj hcircles, h.1.1.2, h.1.2, eq_of_tableEq h.2 hratios]
  | case9 t k t' k' =>
    simp only [numericEq, Bool.and_eq_true, beq_iff_eq] at h
    rw [Triangle.operands_inj bits, h.2]
  | case10 => rwa [numericEq, decide_eq_true_eq] at h <;> assumption

end Instruction

/-- Instructions without `NaN` equal themselves. -/
theorem instructionsEq_self [DecidableEq ℓ] {is : List (Instruction ℓ)}
    (h : ∀ i ∈ is, AllNumbers i.singles) : instructionsEq is is = true := by
  induction is with
  | nil => rfl
  | cons i is ih =>
    rw [List.forall_mem_cons] at h
    rw [instructionsEq, Instruction.numericEq_self h.1, ih h.2]
    rfl

/-- Lists with the same canonical form are the same if no operand is a `NaN`. -/
theorem sameInstructions_of_canonical_eq {xs ys : List Line} (h : canonical xs = canonical ys)
    (numbers : ∀ i ∈ Line.instructions ys, AllNumbers i.singles) :
    sameInstructions xs ys = true := by
  rw [sameInstructions, h]
  refine instructionsEq_self fun i hi ↦ ?_
  obtain ⟨j, hj, rfl⟩ := List.mem_map.1 hi
  rw [singles_map]
  exact numbers j hj

/-- Instructions that are equal, with numbers of the same bits, are the same. -/
theorem eq_of_instructionsEq [DecidableEq ℓ] {is js : List (Instruction ℓ)}
    (h : instructionsEq is js = true)
    (bits : is.map Instruction.singles = js.map Instruction.singles) : is = js := by
  induction is generalizing js with
  | nil =>
    cases js with
    | nil => rfl
    | cons j js => cases bits
  | cons i is ih =>
    cases js with
    | nil => cases bits
    | cons j js =>
      obtain ⟨hbits, hrest⟩ := List.cons.inj bits
      rw [instructionsEq, Bool.and_eq_true] at h
      rw [Instruction.eq_of_numericEq h.1 hbits, ih h.2 hrest]

/-- Lists that are the same, with operands that are equal bit by bit, have the same canonical
form. -/
theorem canonical_eq_of_sameInstructions {xs ys : List Line} (h : sameInstructions xs ys = true)
    (bits : (Line.instructions xs).map Instruction.singles =
      (Line.instructions ys).map Instruction.singles) : canonical xs = canonical ys := by
  have hsingles (lines : List Line) : (canonical lines).map Instruction.singles =
      (Line.instructions lines).map Instruction.singles := by
    rw [canonical, List.map_map]
    exact List.map_congr_left fun i _ ↦ singles_map _ i
  exact eq_of_instructionsEq h (by rw [hsingles, hsingles, bits])

end Shading
