import Shading.Program.Valid
import Shading.Proofs.Failure

/-!
# The shape of valid programs

What a proof about all programs needs of validity. Most of them only need the numbers of children
that a kind accepts (`Kind.Accepts`), without the conditions on parameters. `Program.Everywhere`
says that a condition on kinds holds at every node; conditions that are not part of validity are
stated with it, such as that no choice between the sides of a path is left (`PathFree`).
-/

namespace Shading

variable {ι R : Type}

theorem forall_mem_pair {α : Type} {fits : α → Prop} {a b : α} (ha : fits a) (hb : fits b) :
    ∀ x ∈ [a, b], fits x :=
  List.forall_mem_cons.2 ⟨ha, List.forall_mem_singleton.2 hb⟩

namespace Kind

def isPathBoolean : Kind R → Bool
  | .pathBoolean _ => true
  | _ => false

/-- The numbers of children that a kind accepts. -/
def Accepts : Kind R → Nat → Prop
  | .color _, n => n = 0
  | .premultiply, n | .unpremultiply, n | .convert _, n | .alpha _, n | .normalize, n
  | .filter _, n => n = 1
  | .linearBlend .., n | .radialBlend .., n | .blendCompose .., n | .pathBoolean _, n => n = 2
  | .barycentricBlend .., n => n = 3
  | .linearGradient _ _ _ ratios _ _, n | .radialGradient _ _ _ _ _ ratios _ _, n =>
    n = ratios.length ∧ 1 ≤ n ∧ n ≤ 65535
  | .phong _, n => 5 ≤ n ∧ (n - 5) % 2 = 0
  | .stack, _ => True

/-- The kind can be written as instructions: no side of a path is left to be chosen, and a constant
is finite. -/
def Writable [Scalar R] : Kind R → Prop
  | .color c => c.isFinite = true
  | .pathBoolean _ => False
  | _ => True

end Kind

variable [Scalar R]

/-- Lighting has a value from five inputs on. -/
theorem exists_phong (shininess : R) {inputs : List (Vec4 R)} (h : 5 ≤ inputs.length) :
    ∃ v, phong? shininess inputs = some v := by
  match inputs, h with
  | _ :: _ :: _ :: _ :: _ :: _, _ => exact ⟨_, rfl⟩

/-- The checks that the stops of a gradient pass: there are some, but not too many. -/
theorem length_of_checkStops {ratios : List R} (h : checkStops ratios = .ok ()) :
    1 ≤ ratios.length ∧ ratios.length ≤ 65535 := by
  rw [checkStops] at h
  obtain ⟨hne, h⟩ := check_bind_eq_ok_iff.1 h
  obtain ⟨hle, -⟩ := check_bind_eq_ok_iff.1 h
  refine ⟨?_, by simpa using require_eq_ok_iff.1 hle⟩
  rcases ratios with - | ⟨r, ratios⟩
  · exact absurd (require_eq_ok_iff.1 hne) (by simp)
  · simp

namespace Kind

/-- A kind is only valid with a number of children that it accepts. -/
theorem accepts_of_validate {k : Kind R} {n : Nat} (h : k.validate n = .ok ()) : k.Accepts n := by
  cases k with
  | color c =>
    obtain ⟨-, h⟩ := check_bind_eq_ok_iff.1 h
    simpa [Accepts] using require_eq_ok_iff.1 h
  | premultiply | unpremultiply | convert | normalize | blendCompose | pathBoolean =>
    simpa [Accepts] using require_eq_ok_iff.1 h
  | alpha | filter =>
    obtain ⟨-, h⟩ := check_bind_eq_ok_iff.1 h
    simpa [Accepts] using require_eq_ok_iff.1 h
  | linearBlend | radialBlend | barycentricBlend =>
    obtain ⟨-, h⟩ := check_bind_eq_ok_iff.1 h
    obtain ⟨-, h⟩ := check_bind_eq_ok_iff.1 h
    simpa [Accepts] using require_eq_ok_iff.1 h
  | linearGradient =>
    obtain ⟨-, h⟩ := check_bind_eq_ok_iff.1 h
    obtain ⟨-, h⟩ := check_bind_eq_ok_iff.1 h
    obtain ⟨-, h⟩ := check_bind_eq_ok_iff.1 h
    obtain ⟨hstops, h⟩ := check_bind_eq_ok_iff.1 h
    have hn := eq_of_beq (require_eq_ok_iff.1 h)
    exact ⟨hn, hn ▸ length_of_checkStops hstops⟩
  | radialGradient =>
    obtain ⟨-, h⟩ := check_bind_eq_ok_iff.1 h
    obtain ⟨-, h⟩ := check_bind_eq_ok_iff.1 h
    obtain ⟨-, h⟩ := check_bind_eq_ok_iff.1 h
    obtain ⟨-, h⟩ := check_bind_eq_ok_iff.1 h
    obtain ⟨hstops, h⟩ := check_bind_eq_ok_iff.1 h
    have hn := eq_of_beq (require_eq_ok_iff.1 h)
    exact ⟨hn, hn ▸ length_of_checkStops hstops⟩
  | phong shininess =>
    obtain ⟨-, h⟩ := check_bind_eq_ok_iff.1 h
    simpa [Accepts] using require_eq_ok_iff.1 h
  | stack => trivial

theorem isFinite_of_validate_color {c : Vec4 R} {n : Nat}
    (h : (Kind.color c).validate n = .ok ()) : c.isFinite = true :=
  require_eq_ok_iff.1 (check_bind_eq_ok_iff.1 h).1

end Kind

namespace Program

/-- The condition holds of the kind of every node. -/
inductive Everywhere (fits : Kind R → Prop) : Program ι R → Prop
  | node {n : ι} {k : Kind R} {cs : List (Program ι R)} :
    fits k → (∀ c ∈ cs, Everywhere fits c) → Everywhere fits (.node n k cs)

/-- No choice between the sides of a path is left. -/
def PathFree (p : Program ι R) : Prop := p.Everywhere fun k ↦ k.isPathBoolean = false

/-- Every node has a number of children that its kind accepts. -/
inductive Formed : Program ι R → Prop
  | node {n : ι} {k : Kind R} {cs : List (Program ι R)} :
    k.Accepts cs.length → (∀ c ∈ cs, Formed c) → Formed (.node n k cs)

variable {p : Program ι R}

/-- A valid program is formed. -/
theorem Valid.formed (h : p.Valid) : p.Formed := by
  induction h with
  | node hvalid _ ih => exact .node (Kind.accepts_of_validate hvalid) ih

/-- A valid program without paths can be written. -/
theorem Valid.writable (h : p.Valid) (pathFree : p.PathFree) : p.Everywhere Kind.Writable := by
  induction h with
  | @node n k cs hvalid _ ih =>
    obtain ⟨hpath, hcs⟩ := pathFree
    refine .node ?_ fun c hc ↦ ih c hc (hcs c hc)
    cases k with
    | color c => exact Kind.isFinite_of_validate_color hvalid
    | pathBoolean path => cases hpath
    | _ => trivial

end Program

end Shading
