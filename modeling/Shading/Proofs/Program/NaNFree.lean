import Shading.Proofs.Numbers
import Shading.Proofs.Program.Parts
import Shading.Proofs.Program.Shape

/-!
# Programs without a NaN

A program that holds no `NaN` is equal to itself, and no rule brings one in: a constant is only
folded if it is finite, and factors are only multiplied if neither is zero, since a node with a
factor of zero is transparent. Valid programs hold none, since all their numbers are finite.
-/

namespace Shading

variable {ι R : Type}

/-- The numbers that a node holds. -/
def Kind.numbers : Kind R → List R
  | .color c => c.toList
  | .alpha factor => [factor]
  | .linearBlend ramp _ => [ramp.normal.x, ramp.normal.y, ramp.offset]
  | .radialBlend transform radius0 radius1 _ => transform.toList ++ [radius0, radius1]
  | .barycentricBlend corners depths _ =>
    corners.toList.flatMap (fun p ↦ [p.x, p.y]) ++ (depths.map Triple.toList).getD []
  | .linearGradient transform start stop ratios _ _ =>
    transform.toList ++ [start.x, start.y, stop.x, stop.y] ++ ratios
  | .radialGradient transform start startRadius stop stopRadius ratios _ _ =>
    transform.toList ++ [start.x, start.y, startRadius, stop.x, stop.y, stopRadius] ++ ratios
  | .filter m => m.entries ++ m.shift.toList
  | .phong shininess => [shininess]
  | .premultiply | .unpremultiply | .convert _ | .normalize | .blendCompose .. | .stack
  | .pathBoolean _ => []

/-- No node of the program holds a `NaN`. -/
def Program.NaNFree [Scalar R] (p : Program ι R) : Prop :=
  p.Everywhere fun k ↦ SelfEqual k.numbers

section

variable [Scalar R]

/-- A kind without a `NaN` is equal to itself. -/
theorem Kind.eq_self {k : Kind R} (h : SelfEqual k.numbers) : k.eq k = true := by
  cases k with
  | color c => exact Vec4.eq_of_selfEqual h
  | alpha factor => exact h factor List.mem_cons_self
  | linearBlend ramp accuracy =>
    simp only [numbers, selfEqual_cons] at h
    simp [eq, Point.eq, h]
  | radialBlend transform radius0 radius1 accuracy =>
    simp only [numbers, selfEqual_append, selfEqual_cons] at h
    simp [eq, Affine.eq_of_selfEqual h.1, h]
  | barycentricBlend corners depths accuracy =>
    cases depths <;>
      simp only [numbers, Triple.toList, List.flatMap_cons, selfEqual_append, selfEqual_cons,
        Option.map_none, Option.map_some, Option.getD_some] at h <;>
      simp [eq, eq.depthsEq, tripleEq, Point.eq, h]
  | linearGradient transform start stop ratios extend accuracy =>
    simp only [numbers, selfEqual_append, selfEqual_cons] at h
    simp [eq, Affine.eq_of_selfEqual h.1.1, Point.eq, listEq_of_selfEqual h.2, h]
  | radialGradient transform start startRadius stop stopRadius ratios extend accuracy =>
    simp only [numbers, selfEqual_append, selfEqual_cons] at h
    simp [eq, Affine.eq_of_selfEqual h.1.1, Point.eq, listEq_of_selfEqual h.2, h]
  | filter m =>
    simp only [numbers, ColorFilter.entries, selfEqual_append] at h
    simp [eq, ColorFilter.eq, Vec4.eq_of_selfEqual, h]
  | phong shininess => exact h shininess List.mem_cons_self
  | _ => simp [eq]

/-- The numbers of a kind without `NaN` equal themselves. -/
theorem Program.NaNFree.numbers {p : Program ι R} (h : p.NaNFree) : SelfEqual p.kind.numbers := by
  obtain ⟨hk, -⟩ := h
  exact hk

theorem Program.NaNFree.of_mem {p c : Program ι R} (h : p.NaNFree) (hc : c ∈ p.children) :
    c.NaNFree := by
  obtain ⟨-, hcs⟩ := h
  exact hcs c hc

theorem Program.NaNFree.of_part {p q : Program ι R} (h : p.NaNFree) (part : q.Part p) :
    q.NaNFree :=
  part.of_within (fun _ _ _ hnode _ ↦ hnode.of_mem) h

/-! ### Numbers of valid kinds -/

/-- Depths that pass the check are finite. -/
theorem isFinite_of_checkDepths {depths : List R} (h : Kind.checkDepths depths = .ok ()) :
    ∀ d ∈ depths, Scalar.isFinite d = true := by
  induction depths with
  | nil => exact List.forall_mem_nil _
  | cons d depths ih =>
    rw [Kind.checkDepths] at h
    obtain ⟨hd, h⟩ := check_bind_eq_ok_iff.1 h
    obtain ⟨-, h⟩ := check_bind_eq_ok_iff.1 h
    exact List.forall_mem_cons.2 ⟨require_eq_ok_iff.1 hd, ih h⟩

theorem isFinite_of_checkRadii {radii : List R} (h : Kind.checkRadii radii = .ok ()) :
    ∀ r ∈ radii, Scalar.isFinite r = true := by
  induction radii with
  | nil => exact List.forall_mem_nil _
  | cons r radii ih =>
    rw [Kind.checkRadii] at h
    obtain ⟨hr, h⟩ := check_bind_eq_ok_iff.1 h
    obtain ⟨-, h⟩ := check_bind_eq_ok_iff.1 h
    exact List.forall_mem_cons.2 ⟨require_eq_ok_iff.1 hr, ih h⟩

theorem isFinite_of_checkStops {ratios : List R} (h : checkStops ratios = .ok ()) :
    ∀ r ∈ ratios, Scalar.isFinite r = true := by
  rw [checkStops] at h
  obtain ⟨-, h⟩ := check_bind_eq_ok_iff.1 h
  obtain ⟨-, h⟩ := check_bind_eq_ok_iff.1 h
  obtain ⟨h, -⟩ := check_bind_eq_ok_iff.1 h
  exact List.all_eq_true.1 (require_eq_ok_iff.1 h)

/-- A motion that passes the check is finite. -/
theorem isFinite_of_checkTransform {what : Quantity} {m : Affine R}
    (h : checkTransform what m = .ok ()) : ∀ x ∈ m.toList, Scalar.isFinite x = true := by
  obtain ⟨h, -⟩ := check_bind_eq_ok_iff.1 h
  exact List.all_eq_true.1 (require_eq_ok_iff.1 h)

/-- All numbers that a valid kind holds are finite. -/
theorem Kind.isFinite_of_validate {k : Kind R} {n : Nat} (h : k.validate n = .ok ()) :
    ∀ x ∈ k.numbers, Scalar.isFinite x = true := by
  cases k with
  | premultiply | unpremultiply | convert | normalize | blendCompose | stack | pathBoolean =>
    exact List.forall_mem_nil _
  | color c =>
    have hc := Kind.isFinite_of_validate_color h
    simp only [Vec4.isFinite, Bool.and_eq_true] at hc
    simpa [numbers, Vec4.toList, and_assoc] using hc
  | alpha factor | phong factor =>
    obtain ⟨h, -⟩ := check_bind_eq_ok_iff.1 h
    exact List.forall_mem_singleton.2 (require_eq_ok_iff.1 h)
  | linearBlend ramp =>
    obtain ⟨hnormal, h⟩ := check_bind_eq_ok_iff.1 h
    obtain ⟨hoffset, -⟩ := check_bind_eq_ok_iff.1 h
    have hnormal := require_eq_ok_iff.1 hnormal
    have hoffset := require_eq_ok_iff.1 hoffset
    simp only [Point.isFinite, Bool.and_eq_true] at hnormal
    simp [numbers, hnormal, hoffset]
  | radialBlend transform radius0 radius1 =>
    obtain ⟨htransform, h⟩ := check_bind_eq_ok_iff.1 h
    obtain ⟨hradii, -⟩ := check_bind_eq_ok_iff.1 h
    have hradii := require_eq_ok_iff.1 hradii
    rw [Bool.and_eq_true] at hradii
    exact List.forall_mem_append.2 ⟨isFinite_of_checkTransform htransform, by simp [hradii]⟩
  | barycentricBlend corners depths =>
    obtain ⟨hcorners, h⟩ := check_bind_eq_ok_iff.1 h
    obtain ⟨hdepths, -⟩ := check_bind_eq_ok_iff.1 h
    have hcorners := require_eq_ok_iff.1 hcorners
    refine List.forall_mem_append.2 ⟨?_, isFinite_of_checkDepths hdepths⟩
    simp only [Triple.toList, List.all_cons, Point.isFinite, Bool.and_eq_true] at hcorners
    simp [Triple.toList, hcorners]
  | linearGradient transform start stop ratios =>
    obtain ⟨htransform, h⟩ := check_bind_eq_ok_iff.1 h
    obtain ⟨hstart, h⟩ := check_bind_eq_ok_iff.1 h
    obtain ⟨hstop, h⟩ := check_bind_eq_ok_iff.1 h
    obtain ⟨hratios, -⟩ := check_bind_eq_ok_iff.1 h
    have hstart := require_eq_ok_iff.1 hstart
    have hstop := require_eq_ok_iff.1 hstop
    simp only [Point.isFinite, Bool.and_eq_true] at hstart hstop
    refine List.forall_mem_append.2 ⟨List.forall_mem_append.2
      ⟨isFinite_of_checkTransform htransform, ?_⟩, isFinite_of_checkStops hratios⟩
    simp [hstart, hstop]
  | radialGradient transform start startRadius stop stopRadius ratios =>
    obtain ⟨htransform, h⟩ := check_bind_eq_ok_iff.1 h
    obtain ⟨hstart, h⟩ := check_bind_eq_ok_iff.1 h
    obtain ⟨hstop, h⟩ := check_bind_eq_ok_iff.1 h
    obtain ⟨hradii, h⟩ := check_bind_eq_ok_iff.1 h
    obtain ⟨hratios, -⟩ := check_bind_eq_ok_iff.1 h
    have hstart := require_eq_ok_iff.1 hstart
    have hstop := require_eq_ok_iff.1 hstop
    have hradii := isFinite_of_checkRadii hradii
    simp only [Point.isFinite, Bool.and_eq_true] at hstart hstop
    refine List.forall_mem_append.2 ⟨List.forall_mem_append.2
      ⟨isFinite_of_checkTransform htransform, ?_⟩, isFinite_of_checkStops hratios⟩
    simp [hstart, hstop, hradii]
  | filter m =>
    obtain ⟨h, -⟩ := check_bind_eq_ok_iff.1 h
    have hm := require_eq_ok_iff.1 h
    rw [ColorFilter.isFinite, Bool.and_eq_true] at hm
    refine List.forall_mem_append.2 ⟨List.all_eq_true.1 hm.1, ?_⟩
    simpa [Vec4.isFinite, Vec4.toList, and_assoc] using hm.2

end

/-! ### Simplification -/

variable [ColorModel R] [NaNLaws R] {same : Program ι R → Program ι R → Bool} {p : Program ι R}

/-- A finite color equals itself. -/
theorem selfEqual_of_isFinite {c : Vec4 R} (h : c.isFinite = true) : SelfEqual c.toList := by
  simp only [Vec4.isFinite, Bool.and_eq_true] at h
  simp only [Vec4.toList, selfEqual_cons]
  exact ⟨NaNLaws.eq_of_isFinite h.1.1.1, NaNLaws.eq_of_isFinite h.1.1.2,
    NaNLaws.eq_of_isFinite h.1.2, NaNLaws.eq_of_isFinite h.2, selfEqual_nil⟩

theorem selfEqual_zero : SelfEqual (Vec4.zero : Vec4 R).toList := by
  simp only [Vec4.toList, selfEqual_cons]
  exact ⟨NaNLaws.zero_eq, NaNLaws.zero_eq, NaNLaws.zero_eq, NaNLaws.zero_eq, selfEqual_nil⟩

omit [NaNLaws R] in
/-- Nested factors that do not make a node transparent are not zero. -/
theorem factors_ne_zero {outer inner : R} {l : ι} {ds : List (Program ι R)}
    (hkind : p.kind = .alpha outer) (hchildren : p.children = [.node l (.alpha inner) ds])
    (h : p.isTransparent = false) : (outer == 0) = false ∧ (inner == 0) = false := by
  obtain ⟨n, k, cs⟩ := p
  obtain rfl : k = .alpha outer := hkind
  obtain rfl : cs = [.node l (.alpha inner) ds] := hchildren
  simp only [Program.isTransparent, Program.flags_node, Kind.flags, Kind.coverage, List.map_cons,
    List.getElem?_cons_zero, Option.getD_some, Bool.or_eq_false_iff] at h
  exact ⟨h.1, h.2.1⟩

/-- What takes the place of a node without a `NaN` has none either. -/
theorem nanFree_of_reduce? {r : Replacement ι R} {m : ι} (free : p.NaNFree)
    (h : reduce? same p = some r) : (r.program m).NaNFree := by
  have hparts := parts_of_reduce? h
  have of_child : ∀ q : Program ι R, (∃ c ∈ p.children, q.Part c) → q.NaNFree := by
    rintro q ⟨c, hc, part⟩
    exact (free.of_mem hc).of_part part
  cases r with
  | existing q => exact of_child q hparts
  | fresh k ds =>
    refine .node ?_ fun d hd ↦ of_child d (hparts d hd)
    rcases fresh_of_reduce? h with ⟨color, rfl, rfl, rfl | hfinite⟩ | ⟨rfl, -, -⟩ |
      ⟨outer, inner, l, rfl, hkind, hchildren, htransparent⟩
    · exact selfEqual_zero
    · exact selfEqual_of_isFinite hfinite
    · exact selfEqual_nil
    · obtain ⟨houter, hinner⟩ := factors_ne_zero hkind hchildren htransparent
      have hfactor := free.numbers
      have hchild := free.of_mem (hchildren ▸ List.mem_cons_self)
      rw [hkind] at hfactor
      exact selfEqual_cons.2 ⟨NaNLaws.mul_eq (hfactor outer List.mem_cons_self)
        (hchild.numbers inner List.mem_cons_self) houter hinner, selfEqual_nil⟩

/-- Valid programs hold no `NaN`. -/
theorem Program.Valid.nanFree {p : Program ι R} (h : p.Valid) : p.NaNFree := by
  induction h with
  | node hvalid _ ih =>
    exact .node (fun x hx ↦ NaNLaws.eq_of_isFinite (Kind.isFinite_of_validate hvalid x hx)) ih

end Shading
