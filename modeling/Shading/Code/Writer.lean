import Shading.Code.Basic
import Shading.Program.Basic

/-!
# Writing programs as instructions

The instructions of a program leave its color on top of the stack. What depends on the position of
the sample is written as an instruction that computes a ratio and then calls one or two blocks; a
block ends by returning, and the places to return to are put down before a block is entered. So all
jumps go forward.

Shape decisions: a draft holds the lines so far and the next unused location. Writing may fail in
the middle, and what was written up to then stays in the draft. A kind is written from the writers
of its children, so writing a program is a `fold`.

Locations and the number of lights have 32 bits where they are stored. Here both are natural numbers
and do not wrap, so drafts agree while they hand out fewer than 2^32 locations, and lighting while
it has fewer than 2^32 lights. Either bound takes more than 2^32 lines, or more than 2^33 children
of one node.
-/

namespace Shading

/-- Why a program cannot be written as instructions. -/
inductive LoweringError (R : Type) where
  | notFinite (color : Vec4 R)
  | unresolvedPath (id : Nat)
  /-- The kind lacks children. -/
  | malformed (kind : String)
deriving DecidableEq, Repr

/-- The lines written so far, and the next unused location. -/
structure Draft where
  lines : Array Line := #[]
  next : Nat := 0
deriving Inhabited

/-- Writing into a draft, which may fail. -/
abbrev Emit (R : Type) := ExceptT (LoweringError R) (StateM Draft)

namespace Emit

variable {R : Type}

/-- A location of which nothing is known yet. -/
def newLocation : Emit R Nat :=
  fun d ↦ (.ok d.next, { d with next := d.next + 1 })

def line (l : Line) : Emit R Unit :=
  fun d ↦ (.ok (), { d with lines := d.lines.push l })

/-- The next instruction. -/
def op (i : Instruction Nat) : Emit R Unit := line (.op i)

/-- The location is here. -/
def mark (location : Nat) : Emit R Unit := line (.mark location)

def fail (cause : LoweringError R) : Emit R Unit := fun d ↦ (.error cause, d)

/-- Locations for each of some blocks. -/
def newLocations : List (Emit R Unit) → Emit R (List Nat)
  | [] => return []
  | _ :: rest => do
    let location ← newLocation
    return location :: (← newLocations rest)

/-- One after the other. -/
def sequence : List (Emit R Unit) → Emit R Unit
  | [] => return ()
  | w :: rest => do
    w
    sequence rest

/-- Blocks that end by returning, each at its location. -/
def blocks : List (Nat × Emit R Unit) → Emit R Unit
  | [] => return ()
  | (location, w) :: rest => do
    mark location
    w
    op .ret
    blocks rest

/-- The places behind the blocks of a blend or a gradient: the mixing of two values, and the end. -/
def mixAndEnd (blend done : Nat) : Emit R Unit := do
  mark blend
  op .mix
  mark done

/-- Two blocks, called by the instruction that is given the places. -/
def blend (instruction : Branches Nat → Instruction Nat) (first second : Emit R Unit) :
    Emit R Unit := do
  let atZero ← newLocation
  let atOne ← newLocation
  let blend ← newLocation
  let done ← newLocation
  op (instruction ⟨atZero, atOne, blend, done⟩)
  blocks [(atZero, first), (atOne, second)]
  mixAndEnd blend done

/-- A block for each stop, called by the instruction that is given the places. -/
def gradient (instruction : StopTable Nat → Instruction Nat) (ratios : List Single)
    (children : List (Emit R Unit)) : Emit R Unit := do
  let stops ← newLocations children
  let blend ← newLocation
  let done ← newLocation
  op (instruction ⟨ratios, stops, blend, done⟩)
  blocks (stops.zip children)
  mixAndEnd blend done

/-- Layers below a value, from the top. Each is skipped with all further ones if the value is
opaque. -/
def layersBelow (done : Nat) : List (Emit R Unit) → Emit R Unit
  | [] => return ()
  | layer :: below => do
    op (.opaqueJump done)
    layer
    op .stackBlend
    layersBelow done below

variable [Scalar R] [Rounding R Single]

/-- The layers of a stack, from the top. -/
def stack : List (Emit R Unit) → Emit R Unit
  | [] => op (.pushColor ((Vec4.zero : Vec4 R).map narrow))
  | [top] => top
  | top :: below => do
    top
    let done ← newLocation
    layersBelow done below
    mark done

end Emit

namespace Kind

variable {R : Type} [Scalar R] [Rounding R Single]

/-- The instructions of a node from those of its children. -/
def write (kind : Kind R) (children : List (Emit R Unit)) : Emit R Unit :=
  match kind, children with
  | .color c, _ =>
    if c.isFinite then Emit.op (.pushColor (c.map narrow)) else Emit.fail (.notFinite c)
  | .premultiply, [child] => unary child .premultiply
  | .unpremultiply, [child] => unary child .unpremultiply
  | .convert conversion, [child] => unary child (.convert conversion)
  | .alpha factor, [child] => unary child (.multiplyScalar (narrow factor))
  | .normalize, [child] => unary child .normalize
  | .filter m, [child] => unary child (.filter (m.map narrow))
  | .phong shininess, children => do
    Emit.sequence children
    Emit.op (.phong (narrow shininess) ((children.length - 5) / 2))
  | .blendCompose compose blend, [a, b] => do
    Emit.sequence [a, b]
    Emit.op (.blendCompose compose blend)
  | .stack, children => Emit.stack children.reverse
  | .linearBlend ramp accuracy, [zero, one] =>
    Emit.blend (.linearBlendRatio (ramp.map narrow) accuracy) zero one
  | .radialBlend transform radius0 radius1 accuracy, [zero, one] =>
    let ramp : RadialRamp R := ⟨transform.inverse, radius0, radius1⟩
    Emit.blend (.radialBlendRatio (ramp.map narrow) accuracy) zero one
  | .linearGradient transform start stop ratios extend accuracy, children =>
    let axis := linearAxis transform start stop
    Emit.gradient (.linearGradientRatio (axis.map narrow) accuracy extend) (ratios.map narrow)
      children
  | .radialGradient transform start startRadius stop stopRadius ratios extend accuracy, children =>
    let circles := circlePair transform start startRadius stop stopRadius
    Emit.gradient (.radialGradientRatio (circles.map narrow) accuracy extend) (ratios.map narrow)
      children
  | .barycentricBlend corners depths accuracy, children => do
    Emit.sequence children
    Emit.op (.barycentricBlend ((Triangle.ofCorners corners depths).map narrow) accuracy)
  | .pathBoolean path, _ => Emit.fail (.unresolvedPath path.id)
  | kind, _ => Emit.fail (.malformed kind.name)
where
  unary (child : Emit R Unit) (i : Instruction Nat) : Emit R Unit := do
    child
    Emit.op i

end Kind

namespace Program

variable {ι R : Type} [Scalar R] [Rounding R Single]

/-- Writes the instructions that leave the color of the program on top of the stack. -/
def write : Program ι R → Emit R Unit := fold Kind.write

/-- The instructions of a program as it stands, with the final exit. -/
def instructions (p : Program ι R) : Except (LoweringError R) (List Line) :=
  let written : Emit R Unit := do
    p.write
    Emit.op .exit
  match written {} with
  | (.ok (), draft) => .ok draft.lines.toList
  | (.error cause, _) => .error cause

end Program

end Shading
