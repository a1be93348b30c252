import Shading.Machine.Executor

/-!
# Programs with their locations

A program as it is kept for execution: the instructions still refer to locations, and a table beside
them has the index that each location marks. A jump looks up its location when it is taken, and so
does a call, which puts the index on the return stack.

Shape decisions: `load` reads the marks and checks the jumps as `link` does. Instructions without
references do what they do in linked code; only the ones that jump are executed here.
-/

namespace Shading

/-- Instructions that refer to locations, and the indices that the locations mark. -/
structure Executable where
  code : Array (Instruction Nat)
  addresses : List (Nat × Nat)
deriving Repr

/-- The jumps of the instructions from an index on go forward by the table. -/
def checkJumps (table : List (Nat × Nat)) (index : Nat) :
    List (Instruction Nat) → Except ValidationError Unit
  | [] => .ok ()
  | i :: rest => do
    checkForward table index i.targets
    checkJumps table (index + 1) rest

/-- A list with its marks taken out into a table. -/
def load (lines : List Line) : Except ValidationError Executable := do
  let table ← markedIndices 0 [] lines
  checkJumps table 0 (Line.instructions lines)
  return ⟨(Line.instructions lines).toArray, table⟩

namespace Executable

variable {R : Type} [ColorModel R] [Rounding R Single]

section Steps

variable (limits : Limits) (env : Environment R) (program : Executable)

/-- The index that a location marks. -/
def address (location : Nat) : StackM R Nat :=
  match program.addresses.lookup location with
  | some index => return index
  | none => Stacks.fail (.unresolved location)

def jump (location : Nat) : StackM R Flow := do
  return .jump (← program.address location)

/-- Puts down where to go on after the next return. -/
def callThen (location : Nat) : StackM R Unit := do
  Stacks.pushReturn limits (← program.address location)

/-- Calls the side of a blend that a ratio falls on, or both sides with the ratio below them. -/
def dispatchBlend (t : R) (branches : Branches Nat) : StackM R Flow := do
  if t ≤ 0 then
    program.callThen limits branches.done
    program.jump branches.zero
  else if 1 ≤ t then
    program.callThen limits branches.done
    program.jump branches.one
  else
    Machine.push limits env (.splat t)
    program.callThen limits branches.blend
    program.callThen limits branches.one
    program.jump branches.zero

/-- Calls the stops that a ratio falls on; without a ratio the value is zero. -/
def dispatchGradient (t : Option R) (extend : Extend) (table : StopTable Nat) :
    StackM R Flow := do
  match t with
  | none =>
    Machine.push limits env .zero
    program.jump table.done
  | some t =>
    match Selection.select (table.ratios.map widen) (extend.apply t) with
    | .single i =>
      program.callThen limits table.done
      program.jump (← Machine.stopAt table i)
    | .between i ratio =>
      Machine.push limits env (.splat ratio)
      program.callThen limits table.blend
      program.callThen limits (← Machine.stopAt table (i + 1))
      program.jump (← Machine.stopAt table i)

/-- The effect of an instruction on the stacks, and where to go from it. -/
def step : Instruction Nat → StackM R Flow
  | .opaqueJump target => do
    let top ← Stacks.peek
    if isOpaqueAlpha top.w then program.jump target else return .next
  | .linearBlendRatio ramp accuracy branches =>
    program.dispatchBlend limits env ((ramp.map widen).ratio (env.sample accuracy)) branches
  | .radialBlendRatio ramp accuracy branches =>
    program.dispatchBlend limits env ((ramp.map widen).ratio (env.sample accuracy)) branches
  | .linearGradientRatio axis accuracy extend table =>
    program.dispatchGradient limits env
      (some ((axis.map widen).ratio (env.sample accuracy))) extend table
  | .radialGradientRatio circles accuracy extend table =>
    program.dispatchGradient limits env
      ((circles.map widen).ratio? (env.sample accuracy)) extend table
  | i => Machine.step limits env i

/-- One instruction executed. -/
def advance (s : Machine.State R) : Machine.Outcome R :=
  match program.code[s.index]? with
  | none => .failed (.ranPastEnd s.index)
  | some i =>
    match program.step limits env i s.store with
    | (.error cause, _) => .failed cause
    | (.ok .next, store) => .running ⟨s.index + 1, store⟩
    | (.ok (.jump index), store) => .running ⟨index, store⟩
    | (.ok .halt, store) => .halted store

/-- The stacks at the exit, if it is reached within the given number of instructions. -/
def run : Nat → Machine.State R → Except ExecutionError (Stacks R)
  | 0, _ => .error (.iterationCap limits.iterations)
  | fuel + 1, s =>
    match program.advance limits env s with
    | .running s => run fuel s
    | .halted store => .ok store
    | .failed cause => .error cause

end Steps

/-- The color of a program in a context. -/
def execute (limits : Limits) (program : Executable) (ctx : Context R) :
    Except ExecutionError (Vec4 R) := do
  let store ← program.run limits (Environment.ofContext ctx) limits.iterations {}
  let value ← store.finish
  return if ctx.premultiplied then value else unpremultiply value

end Executable

end Shading
