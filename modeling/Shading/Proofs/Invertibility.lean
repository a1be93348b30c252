import Shading.Proofs.Motion

/-!
# Motions and invertible maps

A kind that carries a map of its own, as radial blends and gradients do, is valid only if the
determinant of the map exceeds the gap between 1 and the next double. A motion multiplies the
determinant by its own, which has to exceed the same gap, but the product is not looked at. So a
program that is moved is always found, and everything else that makes it valid is kept, but its maps
may come to count as not invertible (`transformed_shrunkBlend`). Which programs stay valid under
motions in turn is a matter of the product of their determinants (`transformedInTurn_valid`), and
motions that do not make areas smaller keep every program valid.
-/

namespace Shading

-- Numerals in statements are those of the reals, as in the library's tactics.
attribute [local instance(200)] instOfNatAtLeastTwo

variable {m : Affine ℝ} {ms : List (Affine ℝ)}

/-- A motion is accepted exactly if its determinant is large enough. -/
theorem checkTransform_eq_ok_iff {what : Quantity} :
    checkTransform what m = .ok () ↔ Scalar.doubleEpsilon < |m.determinant| := by
  have hfinite : m.isFinite = true := List.all_eq_true.2 fun _ _ ↦ rfl
  have hinvertible : m.isInvertible = true ↔ Scalar.doubleEpsilon < |m.determinant| := by
    simp [Affine.isInvertible]
  rw [checkTransform, check_bind_eq_ok_iff, require_eq_ok_iff, require_eq_ok_iff, hinvertible]
  exact and_iff_right hfinite

namespace Kind

variable {k : Kind ℝ} {count : Nat}

/-- The determinant of the map that the kind carries, if it carries one. -/
noncomputable def determinant? : Kind ℝ → Option ℝ
  | .radialBlend t .. | .linearGradient t .. | .radialGradient t .. => some t.determinant
  | _ => none

/-- The kind with another map in place of its own, if it carries one. -/
def withTransform (t : Affine ℝ) : Kind ℝ → Kind ℝ
  | .radialBlend _ radius0 radius1 accuracy => .radialBlend t radius0 radius1 accuracy
  | .linearGradient _ start stop ratios extend accuracy =>
    .linearGradient t start stop ratios extend accuracy
  | .radialGradient _ start startRadius stop stopRadius ratios extend accuracy =>
    .radialGradient t start startRadius stop stopRadius ratios extend accuracy
  | k => k

/-- The map of the kind has a determinant that is large enough still when it is multiplied by a
number. -/
def StaysInvertible (factor : ℝ) (k : Kind ℝ) : Prop :=
  ∀ d, k.determinant? = some d → Scalar.doubleEpsilon < |factor * d|

theorem checkTransform_one {what : Quantity} :
    checkTransform what (⟨1, 0, 0, 1, 0, 0⟩ : Affine ℝ) = .ok () := by
  rw [checkTransform_eq_ok_iff]
  norm_num [Affine.determinant_eq, doubleEpsilon_eq]

/-- A kind is valid if its map is, and if it is valid with a map that is. -/
theorem validate_eq_ok_iff : k.validate count = .ok () ↔
    k.StaysInvertible 1 ∧ (k.withTransform ⟨1, 0, 0, 1, 0, 0⟩).validate count = .ok () := by
  have hmap : ∀ {t : Affine ℝ} {what : Quantity}, k.determinant? = some t.determinant →
      (checkTransform what t = .ok () ↔ k.StaysInvertible 1) := by
    intro t what h
    rw [checkTransform_eq_ok_iff, StaysInvertible, h]
    simp
  cases k with
  | radialBlend | linearGradient | radialGradient =>
    rw [withTransform, validate, check_bind_eq_ok_iff, hmap rfl]
    refine and_congr_right' ?_
    rw [validate, checkTransform_one]
    rfl
  | _ => exact (and_iff_right nofun).symm

/-- A motion multiplies determinants by its own. -/
theorem determinant?_transformed :
    ((k.transformed? m).getD k).determinant? = k.determinant?.map (m.determinant * ·) := by
  cases k with
  | radialBlend | linearGradient | radialGradient =>
    exact congrArg some Affine.determinant_compose
  | _ => rfl

/-- Apart from the map, a motion changes nothing that is checked. -/
theorem validate_withTransform_transformed (t : Affine ℝ) :
    (((k.transformed? m).getD k).withTransform t).validate count =
      (k.withTransform t).validate count := by
  cases k with
  | linearBlend => rfl
  | barycentricBlend => rfl
  | _ => rfl

/-- The kind moved by maps in turn. -/
noncomputable def movedBy : List (Affine ℝ) → Kind ℝ → Kind ℝ
  | [], k => k
  | m :: ms, k => movedBy ms ((k.transformed? m).getD k)

/-- Moving a kind multiplies its determinant by those of the motions. -/
theorem determinant?_movedBy :
    (k.movedBy ms).determinant? = k.determinant?.map ((ms.map Affine.determinant).prod * ·) := by
  induction ms generalizing k with
  | nil => simp [movedBy]
  | cons m ms ih =>
    rw [movedBy, ih, determinant?_transformed, Option.map_map, List.map_cons, List.prod_cons]
    congr 1
    funext d
    show (ms.map Affine.determinant).prod * (m.determinant * d) = _
    ring

/-- Moving a kind changes only what is checked of its transform. -/
theorem validate_withTransform_movedBy (t : Affine ℝ) :
    ((k.movedBy ms).withTransform t).validate count = (k.withTransform t).validate count := by
  induction ms generalizing k with
  | nil => rfl
  | cons m ms ih => rw [movedBy, ih, validate_withTransform_transformed]

/-- What was valid before motions is valid after them if its map is invertible still. -/
theorem validate_movedBy (valid : k.validate count = .ok ()) :
    (k.movedBy ms).validate count = .ok () ↔
      k.StaysInvertible (ms.map Affine.determinant).prod := by
  obtain ⟨-, hrest⟩ := validate_eq_ok_iff.1 valid
  rw [validate_eq_ok_iff, validate_withTransform_movedBy, and_iff_left hrest, StaysInvertible,
    determinant?_movedBy]
  simp [StaysInvertible]

end Kind

namespace Program

variable {ι : Type} {p : Program ι ℝ}

/-- Validity as an analysis of the program. -/
theorem valid_iff_fold : p.Valid ↔
    p.fold fun k (valid : List Prop) ↦ k.validate valid.length = .ok () ∧ ∀ v ∈ valid, v := by
  induction p using Program.induct with
  | node n k cs ih =>
    rw [fold_node, List.length_map, List.forall_mem_map]
    refine ⟨fun ⟨hk, hcs⟩ ↦ ⟨hk, fun c hc ↦ (ih c hc).1 (hcs c hc)⟩,
      fun ⟨hk, hcs⟩ ↦ .node hk fun c hc ↦ (ih c hc).2 (hcs c hc)⟩

/-- A valid program is valid with its kinds moved if their maps are invertible still. -/
theorem fold_validate_movedBy (valid : p.Valid) :
    (p.fold fun k (valid : List Prop) ↦
        (k.movedBy ms).validate valid.length = .ok () ∧ ∀ v ∈ valid, v) ↔
      p.Everywhere (Kind.StaysInvertible (ms.map Affine.determinant).prod) := by
  induction valid with
  | @node n k cs hk _ ih =>
    rw [fold_node, List.length_map, List.forall_mem_map, Kind.validate_movedBy hk]
    refine ⟨fun ⟨hk, hcs⟩ ↦ .node hk fun c hc ↦ (ih c hc).1 (hcs c hc),
      fun ⟨hk, hcs⟩ ↦ ⟨hk, fun c hc ↦ (ih c hc).2 (hcs c hc)⟩⟩

/-- What is invertible stays so when areas do not get smaller. -/
theorem everywhere_staysInvertible (valid : p.Valid) {factor : ℝ} (h : 1 ≤ |factor|) :
    p.Everywhere (Kind.StaysInvertible factor) := by
  induction valid with
  | node hk _ ih =>
    refine .node (fun d hd ↦ ?_) ih
    have hbefore := (Kind.validate_eq_ok_iff.1 hk).1 d hd
    rw [one_mul] at hbefore
    rw [abs_mul]
    exact hbefore.trans_le (le_mul_of_one_le_left (abs_nonneg d) h)

end Program

/-! ### Motions in turn -/

/-- The program moved by maps in turn. -/
noncomputable def Build.transformedInTurn :
    List (Affine ℝ) → Shared ℝ → Build ℝ (Except ValidationError (Shared ℝ))
  | [], p => return .ok p
  | m :: ms, p => do
    match ← transformed m p with
    | .error cause => return .error cause
    | .ok q => transformedInTurn ms q

/-- Moving in turn starts with the first motion. -/
theorem Build.transformedInTurn_of_ok {w : Workspace ℝ} {p q : Shared ℝ}
    (h : (transformed m p w).1 = .ok q) :
    transformedInTurn (m :: ms) p w = transformedInTurn ms q (transformed m p w).2 := by
  show (match (transformed m p w).1 with
    | Except.error cause => pure (Except.error cause)
    | Except.ok q => transformedInTurn ms q : Build ℝ (Except ValidationError (Shared ℝ)))
      (transformed m p w).2 = _
  rw [h]

open Program

/-- An analysis of the second program is the analysis of the first one with every kind moved by the
maps in turn. -/
def MovedInTurn (ms : List (Affine ℝ)) (p q : Shared ℝ) : Prop :=
  ∀ {α : Type} (f : Kind ℝ → List α → α), q.fold f = p.fold fun k ↦ f (k.movedBy ms)

/-- Moving in turn is moving once, and then by the other motions. -/
theorem Moved.cons {p q r : Shared ℝ} (h : Moved m p q) (h' : MovedInTurn ms q r) :
    MovedInTurn (m :: ms) p r := fun f ↦ (h' f).trans (h fun k ↦ f (k.movedBy ms))

/-- The result is valid exactly if the maps in the program are invertible after the motions. -/
theorem MovedInTurn.valid_iff {p q : Shared ℝ} (h : MovedInTurn ms p q) (valid : p.Valid) :
    q.Valid ↔ p.Everywhere (Kind.StaysInvertible (ms.map Affine.determinant).prod) := by
  rw [valid_iff_fold, h]
  exact fold_validate_movedBy valid

variable {w : Workspace ℝ} {ps : List (Shared ℝ)} {p : Shared ℝ}

/-- A motion that is accepted moves every program of a session. -/
theorem exists_transformed (session : Session w ps) (mem : p ∈ ps)
    (accepted : checkTransform .programTransform m = .ok ()) :
    ∃ q, (Build.transformed m p w).1 = .ok q ∧ Moved m p q := by
  obtain ⟨nodes, hw, known⟩ := session.allKnown simplifying_true
  obtain ⟨_, -, -, q, hq, -, hmoved⟩ := Build.yields_moved accepted (known p mem) w hw
  exact ⟨q, hq, hmoved⟩

/-- Motions that are accepted move every program of a session in turn. -/
theorem exists_transformedInTurn (session : Session w ps) (mem : p ∈ ps)
    (accepted : ∀ m ∈ ms, checkTransform .programTransform m = .ok ()) :
    ∃ q, (Build.transformedInTurn ms p w).1 = .ok q ∧ MovedInTurn ms p q := by
  induction ms generalizing w ps p with
  | nil => exact ⟨p, rfl, fun _ ↦ rfl⟩
  | cons m ms ih =>
    rw [List.forall_mem_cons] at accepted
    obtain ⟨q, hq, hmoved⟩ := exists_transformed session mem accepted.1
    obtain ⟨r, hr, hturn⟩ := ih (session.transformed m mem hq) List.mem_cons_self accepted.2
    rw [Build.transformedInTurn_of_ok hq]
    exact ⟨r, hr, hmoved.cons hturn⟩

/-- Numbers of absolute value one at least have such a product. -/
theorem one_le_abs_prod {xs : List ℝ} (h : ∀ x ∈ xs, 1 ≤ |x|) : 1 ≤ |xs.prod| := by
  induction xs with
  | nil => simp
  | cons x xs ih =>
    rw [List.forall_mem_cons] at h
    rw [List.prod_cons, abs_mul]
    exact one_le_mul_of_one_le_of_one_le h.1 (ih h.2)

/-- A valid program of a session can be moved by any maps in turn that are accepted, and the result
is valid exactly if the product of all determinants is large enough at each kind with a map of its
own. It is large enough if none of the maps makes areas smaller. -/
theorem transformedInTurn_valid (session : Session w ps) (mem : p ∈ ps) (valid : p.Valid)
    (accepted : ∀ m ∈ ms, checkTransform .programTransform m = .ok ()) :
    ∃ q, (Build.transformedInTurn ms p w).1 = .ok q ∧
      (q.Valid ↔ p.Everywhere (Kind.StaysInvertible (ms.map Affine.determinant).prod)) ∧
      ((∀ m ∈ ms, 1 ≤ |m.determinant|) → q.Valid) := by
  obtain ⟨q, hq, hmoved⟩ := exists_transformedInTurn session mem accepted
  refine ⟨q, hq, hmoved.valid_iff valid, fun h ↦ (hmoved.valid_iff valid).2 ?_⟩
  exact everywhere_staysInvertible valid (one_le_abs_prod (List.forall_mem_map.2 h))

/-! ### A blend that is shrunk -/

/-- A scaling by `2 ^ -14`. -/
noncomputable def shrinking : Affine ℝ := ⟨1 / 16384, 0, 0, 1 / 16384, 0, 0⟩

/-- A radial blend in a shrunk space. -/
noncomputable def shrunkBlend : Shared ℝ :=
  .node 2 (.radialBlend shrinking 0 1 .unsplitPixelCenter) [redCorner, greenCorner]

theorem session_shrunkBlend : Session ⟨3, {}⟩ [shrunkBlend, greenCorner, redCorner] := by
  have hred : Session ⟨1, {}⟩ [redCorner] := .node (.color ⟨1, 0, 0, 1⟩) .start nofun
  have hgreen : Session ⟨2, {}⟩ [greenCorner, redCorner] :=
    .node (.color ⟨0, 1, 0, 1⟩) hred nofun
  exact .node (.radialBlend shrinking 0 1 .unsplitPixelCenter) hgreen (by simp)

theorem shrinking_accepted {what : Quantity} : checkTransform what shrinking = .ok () := by
  rw [checkTransform_eq_ok_iff, shrinking]
  norm_num [Affine.determinant_eq, doubleEpsilon_eq]

/-- The blend is small, but passes the check of its transform. -/
theorem valid_shrunkBlend : shrunkBlend.Valid := by
  have hred : redCorner.Valid := .node rfl nofun
  have hgreen : greenCorner.Valid := .node rfl nofun
  exact .node (check_bind_eq_ok_iff.2 ⟨shrinking_accepted, rfl⟩) (by simp [hred, hgreen])

/-- A valid program that is moved by a map that is accepted, with a result that is not valid. -/
theorem transformed_shrunkBlend :
    Session ⟨3, {}⟩ [shrunkBlend, greenCorner, redCorner] ∧ shrunkBlend.Valid ∧
      ∃ q, (Build.transformed shrinking shrunkBlend ⟨3, {}⟩).1 = .ok q ∧ ¬ q.Valid := by
  obtain ⟨q, hq, hmoved⟩ :=
    exists_transformed session_shrunkBlend List.mem_cons_self shrinking_accepted
  have hturn : MovedInTurn [shrinking] shrunkBlend q := hmoved.cons fun _ ↦ rfl
  refine ⟨session_shrunkBlend, valid_shrunkBlend, q, hq, fun hvalid ↦ ?_⟩
  obtain ⟨hroot, -⟩ := (hturn.valid_iff valid_shrunkBlend).1 hvalid
  have hlarge := hroot shrinking.determinant rfl
  norm_num [shrinking, Affine.determinant_eq, doubleEpsilon_eq] at hlarge

/-- A blend is still valid after two motions that keep areas. -/
theorem transformedInTurn_shrunkBlend :
    Session ⟨3, {}⟩ [shrunkBlend, greenCorner, redCorner] ∧ shrunkBlend.Valid ∧
      (∀ m ∈ [slant, slant], checkTransform .programTransform m = .ok ()) ∧
      ∃ q, (Build.transformedInTurn [slant, slant] shrunkBlend ⟨3, {}⟩).1 = .ok q ∧ q.Valid := by
  have haccepted : ∀ m ∈ [slant, slant], checkTransform .programTransform m = .ok () := by
    simp [slant_accepted]
  have harea : |slant.determinant| = 1 := by simp [slant, Affine.determinant_eq]
  obtain ⟨q, hq, -, hvalid⟩ := transformedInTurn_valid session_shrunkBlend List.mem_cons_self
    valid_shrunkBlend haccepted
  exact ⟨session_shrunkBlend, valid_shrunkBlend, haccepted, q, hq, hvalid (by simp [harea])⟩

end Shading
