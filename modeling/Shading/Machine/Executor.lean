import Shading.Color.Blend
import Shading.Context
import Shading.Lighting
import Shading.Machine.Linked
import Shading.Machine.Stack
import Shading.Ramp

/-!
# Execution

The machine that runs linked instructions for one sample. Position dependent instructions compute a
ratio and call blocks: they put down where to go on before they jump, so control moves forward, or
back to a place taken from the return stack.

Shape decisions: what the machine sees of its surroundings is a record, `Environment`: where to
sample, whether the answer stays premultiplied, and how a value is kept on the stack. The host keeps
values as they are. A step is a function from a machine state to the next one; `run` repeats it as
often as the limits allow.
-/

namespace Shading

/-- What a machine takes from outside its program. -/
structure Environment (R : Type) where
  sample : Accuracy → Point R
  premultiplied : Bool
  /-- The value that is kept when one is pushed. -/
  keep : Vec4 R → Vec4 R := id

/-- The surroundings of a program run in a context. -/
def Environment.ofContext {R : Type} [Scalar R] (ctx : Context R) : Environment R where
  sample := ctx.samplePoint
  premultiplied := ctx.premultiplied

/-- Where the machine goes from an instruction. -/
inductive Flow where
  | next
  | jump (index : Nat)
  | halt
deriving DecidableEq, Repr

namespace Machine

variable {R : Type} [ColorModel R] [Rounding R Single]

section Steps

variable (limits : Limits) (env : Environment R)

/-- Puts a value on the stack as the environment keeps it. -/
def push (value : Vec4 R) : StackM R Unit := Stacks.push limits (env.keep value)

/-- Replaces the value on top. -/
def unary (f : Vec4 R → Vec4 R) : StackM R Flow := do
  let value ← Stacks.pop
  push limits env (f value)
  return .next

/-- Calls the side of a blend that a ratio falls on, or both sides with the ratio below them. -/
def dispatchBlend (t : R) (branches : Branches Nat) : StackM R Flow := do
  if t ≤ 0 then
    Stacks.pushReturn limits branches.done
    return .jump branches.zero
  else if 1 ≤ t then
    Stacks.pushReturn limits branches.done
    return .jump branches.one
  else
    push limits env (.splat t)
    Stacks.pushReturn limits branches.blend
    Stacks.pushReturn limits branches.one
    return .jump branches.zero

/-- The place of a stop. -/
def stopAt (table : StopTable Nat) (i : Nat) : StackM R Nat :=
  match table.stops[i]? with
  | some target => return target
  | none => Stacks.fail (.missingStop i)

/-- Calls the stops that a ratio falls on; without a ratio the value is zero. -/
def dispatchGradient (t : Option R) (extend : Extend) (table : StopTable Nat) :
    StackM R Flow := do
  match t with
  | none =>
    push limits env .zero
    return .jump table.done
  | some t =>
    match Selection.select (table.ratios.map widen) (extend.apply t) with
    | .single i =>
      Stacks.pushReturn limits table.done
      return .jump (← stopAt table i)
    | .between i ratio =>
      push limits env (.splat ratio)
      Stacks.pushReturn limits table.blend
      Stacks.pushReturn limits (← stopAt table (i + 1))
      return .jump (← stopAt table i)

/-- Lights a surface by the values on the stack. -/
def light (shininess : R) (lights : Nat) : StackM R Flow := do
  let count := 5 + 2 * lights
  let available := (← get).values.length
  if available < count then Stacks.fail (.phongOperands count available)
  else
    match phong? shininess (← Stacks.popMany count) with
    | some value =>
      push limits env value
      return .next
    | none => Stacks.fail (.phongOperands count available)

/-- The effect of an instruction on the stacks, and where to go from it. -/
def step : Instruction Nat → StackM R Flow
  | .exit => return .halt
  | .ret => return .jump (← Stacks.popReturn)
  | .pushColor color => do
    push limits env (color.map widen)
    return .next
  | .opaqueJump target => do
    let top ← Stacks.peek
    return if isOpaqueAlpha top.w then .jump target else .next
  | .stackBlend => do
    let background ← Stacks.pop
    let foreground ← Stacks.pop
    push limits env (Shading.stackBlend foreground background)
    return .next
  | .mix => do
    let one ← Stacks.pop
    let zero ← Stacks.pop
    let ratio ← Stacks.pop
    push limits env (zero.lerp one ratio.x)
    return .next
  | .blendCompose compose blend => do
    let b ← Stacks.pop
    let a ← Stacks.pop
    push limits env (Shading.blendCompose a b compose blend)
    return .next
  | .premultiply => unary limits env Shading.premultiply
  | .unpremultiply => unary limits env Shading.unpremultiply
  | .convert conversion => unary limits env (ColorModel.convert conversion)
  | .multiplyScalar factor => unary limits env fun v ↦ v * (widen factor : R)
  | .normalize => unary limits env Vec4.normalized
  | .filter m => unary limits env (m.map widen).apply
  | .phong shininess lights => light limits env (widen shininess) lights
  | .linearBlendRatio ramp accuracy branches =>
    dispatchBlend limits env ((ramp.map widen).ratio (env.sample accuracy)) branches
  | .radialBlendRatio ramp accuracy branches =>
    dispatchBlend limits env ((ramp.map widen).ratio (env.sample accuracy)) branches
  | .linearGradientRatio axis accuracy extend table =>
    dispatchGradient limits env (some ((axis.map widen).ratio (env.sample accuracy))) extend table
  | .radialGradientRatio circles accuracy extend table =>
    dispatchGradient limits env ((circles.map widen).ratio? (env.sample accuracy)) extend table
  | .barycentricBlend triangle accuracy => do
    let c ← Stacks.pop
    let b ← Stacks.pop
    let a ← Stacks.pop
    let w := (triangle.map widen).weights (env.sample accuracy)
    push limits env (a * w.a + b * w.b + c * w.c)
    return .next

end Steps

/-- The state of a machine: the index of the next instruction, and the stacks. -/
structure State (R : Type) where
  index : Nat := 0
  store : Stacks R := {}

/-- What a step leads to. -/
inductive Outcome (R : Type) where
  | running (state : State R)
  | halted (store : Stacks R)
  | failed (cause : ExecutionError)

/-- One instruction executed. -/
def advance (limits : Limits) (env : Environment R) (program : Linked) (s : State R) : Outcome R :=
  match program.code[s.index]? with
  | none => .failed (.ranPastEnd s.index)
  | some i =>
    match step limits env i s.store with
    | (.error cause, _) => .failed cause
    | (.ok .next, store) => .running ⟨s.index + 1, store⟩
    | (.ok (.jump index), store) => .running ⟨index, store⟩
    | (.ok .halt, store) => .halted store

/-- The stacks at the exit, if it is reached within the given number of instructions. -/
def run (limits : Limits) (env : Environment R) (program : Linked) :
    Nat → State R → Except ExecutionError (Stacks R)
  | 0, _ => .error (.iterationCap limits.iterations)
  | fuel + 1, s =>
    match advance limits env program s with
    | .running s => run limits env program fuel s
    | .halted store => .ok store
    | .failed cause => .error cause

/-- The color of a program in an environment. -/
def executeIn (limits : Limits) (env : Environment R) (program : Linked) :
    Except ExecutionError (Vec4 R) := do
  let store ← run limits env program limits.iterations {}
  let value ← store.finish
  return if env.premultiplied then value else Shading.unpremultiply value

/-- The color of a program in a context. -/
def execute (limits : Limits) (program : Linked) (ctx : Context R) :
    Except ExecutionError (Vec4 R) :=
  executeIn limits (Environment.ofContext ctx) program

end Machine

end Shading
