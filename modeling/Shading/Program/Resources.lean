import Shading.Program.Basic
import Shading.Settings

/-!
# Resources

The greatest depths that the operand stack and the return stack reach while the instructions of a
program run, read off its tree.
-/

namespace Shading

/-- Depths of the operand stack and of the return stack. -/
structure Resources where
  stackDepth : Nat
  returnDepth : Nat
deriving DecidableEq, Repr, Inhabited

/-- Why a program does not fit the limits. -/
inductive LimitError where
  | operandStack (needed limit : Nat)
  | returnStack (needed limit : Nat)
deriving DecidableEq, Repr

def LimitError.message : LimitError → String
  | .operandStack needed limit => s!"program needs an operand stack of {needed} (limit {limit})"
  | .returnStack needed limit => s!"program needs a return stack of {needed} (limit {limit})"

namespace Resources

/-- Nothing at all. -/
def none : Resources := ⟨0, 0⟩

/-- Room for one value. -/
def value : Resources := ⟨1, 0⟩

/-- The depths on top of values and return addresses that are there already. -/
def above (r : Resources) (values returns : Nat) : Resources :=
  ⟨r.stackDepth + values, r.returnDepth + returns⟩

/-- Room for either of two. -/
def max (r s : Resources) : Resources :=
  ⟨Nat.max r.stackDepth s.stackDepth, Nat.max r.returnDepth s.returnDepth⟩

/-- Room for each of a list on its own. -/
def greatest (rs : List Resources) : Resources := rs.foldl max none

/-- One after the other, each on top of the values of those before it. -/
def sequential (rs : List Resources) : Resources :=
  greatest (rs.zipIdx.map fun r ↦ r.1.above r.2 0)

/-- The depths stay within the limits. -/
def check (r : Resources) (limits : Limits) : Except LimitError Unit :=
  if limits.stackDepth < r.stackDepth then .error (.operandStack r.stackDepth limits.stackDepth)
  else if limits.returnDepth < r.returnDepth then
    .error (.returnStack r.returnDepth limits.returnDepth)
  else .ok ()

end Resources

/-- The resources of a node from its kind and the resources of its children. -/
def Kind.resources {R : Type} (kind : Kind R) (children : List Resources) : Resources :=
  let child (i : Nat) : Resources := children[i]?.getD .none
  match kind with
  | .color _ => .value
  | .premultiply | .unpremultiply | .convert _ | .alpha _ | .normalize | .filter _ => child 0
  | .phong _ | .blendCompose .. | .barycentricBlend .. => .sequential children
  -- While `one` runs, the ratio and the value of `zero` lie below it.
  | .linearBlend .. | .radialBlend .. => ((child 0).above 1 2).max ((child 1).above 2 1)
  | .linearGradient .. | .radialGradient .. => .greatest (children.map (·.above 2 2))
  | .stack =>
    match children.reverse with
    | [] => .value
    | top :: below => below.reverse.foldl (fun r c ↦ r.max (c.above 1 0)) top
  | .pathBoolean _ => (child 0).max (child 1)

def Program.resources {ι R : Type} : Program ι R → Resources := fold Kind.resources

end Shading
