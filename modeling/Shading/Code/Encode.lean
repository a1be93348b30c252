import Shading.Code.Opcode

/-!
# Encoding

A list of instructions as a stream of words. A jump is stored as its distance from the first word of
the jumping instruction, so a stream may be copied to any place of a larger buffer.

Shape decisions: encoding first gives every location its address (`locate`), then writes the
instructions one after the other; each is written from its address and the table of addresses alone
(`encodeInstruction`).
-/

namespace Shading

/-- Why a list cannot be encoded. -/
inductive EncodeError where
  | noExit
  | declaredTwice (location : Nat)
  | tooLong
  | undeclared (location : Nat)
  /-- A jump does not lead past the instruction it belongs to. -/
  | notForward (location target address : Nat)
  | lightCount
  | stopCount (ratios stops : Nat)
  | wrongLength (written expected : Nat)
  | bufferFull
  | poolFull
deriving DecidableEq, Repr

def EncodeError.message : EncodeError → String
  | .noExit => "instruction list must end with exit"
  | .declaredTwice location => s!"location L{location} is declared twice"
  | .tooLong => "instruction list too long"
  | .undeclared location => s!"location L{location} is never declared"
  | .notForward location target address =>
    s!"jump to L{location} is not forward ({target} <= {address})"
  | .lightCount => "phong light count does not fit 24 bits"
  | .stopCount ratios stops =>
    s!"gradient needs 1..=65535 stops with one location each, got {ratios} ratios and {stops} stops"
  | .wrongLength written expected => s!"wrote {written} words for a {expected}-word instruction"
  | .bufferFull => "instruction buffer exceeds u32 addressing"
  | .poolFull => "program buffer exceeds u32 addressing"

/-- The number of addresses of words. -/
def addressSpace : Nat := 4294967296

/-- The addresses of locations, the latest first. -/
abbrev AddressTable := List (Nat × Nat)

/-- The addresses of all locations, given those before and the address that comes next. -/
def locate (next : Nat) (table : AddressTable) : List Line → Except EncodeError AddressTable
  | [] => .ok table
  | .mark location :: rest =>
    if (table.lookup location).isSome then .error (.declaredTwice location)
    else locate next ((location, next) :: table) rest
  | .op i :: rest =>
    if addressSpace ≤ next + i.length then .error .tooLong
    else locate (next + i.length) table rest

/-- The distance from an address to a location that lies ahead of it. -/
def distance (table : AddressTable) (address location : Nat) : Except EncodeError UInt32 :=
  match table.lookup location with
  | none => .error (.undeclared location)
  | some target =>
    if target ≤ address then .error (.notForward location target address)
    else .ok (UInt32.ofNat (target - address))

/-- The words of single precision operands. -/
def operandWords (operands : List Single) : List UInt32 := operands.map Single.bits

def Point.toList {K : Type} (p : Point K) : List K := [p.x, p.y]

def LinearRamp.operands {K : Type} (r : LinearRamp K) : List K := r.normal.toList ++ [r.offset]

def RadialRamp.operands {K : Type} (r : RadialRamp K) : List K :=
  r.inverse.toList ++ [r.radius0, r.radius1]

def LinearAxis.operands {K : Type} (r : LinearAxis K) : List K :=
  r.inverse.toList ++ r.start.toList ++ r.delta.toList

def CirclePair.operands {K : Type} (r : CirclePair K) : List K :=
  r.inverse.toList ++ r.start.toList ++ [r.startRadius] ++ r.stop.toList ++ [r.stopRadius]

def Triangle.operands {K : Type} (t : Triangle K) : List K :=
  [t.inverseDeterminant] ++ t.corners.toList.flatMap Point.toList ++
    ((t.depths.map Triple.toList).getD [])

/-- A small operand in its place within a header. -/
def headerField (value : Nat) (shift : UInt32) : UInt32 := UInt32.ofNat value <<< shift

/-- The operands that the header of an instruction holds. -/
def Instruction.headerFields {ℓ : Type} : Instruction ℓ → UInt32
  | .blendCompose compose blend => headerField compose.code 8 ||| headerField blend.code 16
  | .phong _ lights => headerField lights 8
  | .linearBlendRatio _ accuracy _ | .radialBlendRatio _ accuracy _ => headerField accuracy.code 8
  | .linearGradientRatio _ accuracy extend table | .radialGradientRatio _ accuracy extend table =>
    headerField accuracy.code 8 ||| headerField extend.code 12 |||
      headerField table.ratios.length 16
  | .barycentricBlend triangle accuracy =>
    (if triangle.depths.isSome then perspectiveFlag else 0) ||| headerField accuracy.code 16
  | _ => 0

/-- The first word of an instruction: its opcode and the operands that fit beside it. -/
def Instruction.header {ℓ : Type} (i : Instruction ℓ) : UInt32 := i.opcode.code ||| i.headerFields

section

variable {ℓ : Type} (resolve : ℓ → Except EncodeError UInt32)

/-- The distances of several jumps, in order. -/
def resolveAll : List ℓ → Except EncodeError (List UInt32)
  | [] => .ok []
  | l :: rest => do return (← resolve l) :: (← resolveAll rest)

/-- The words of the jumps of a gradient and of its ratios: the two places behind the stops come
first, the stops last. -/
def encodeStops (table : StopTable ℓ) : Except EncodeError (List UInt32) := do
  let ends ← resolveAll resolve [table.blend, table.done]
  let stops ← resolveAll resolve table.stops
  return ends ++ operandWords table.ratios ++ stops

/-- The number of ratios fits the header, and each has its place. -/
def checkTable (table : StopTable ℓ) : Except EncodeError Unit :=
  let n := table.ratios.length
  if n = 0 ∨ 65535 < n ∨ table.stops.length ≠ n then .error (.stopCount n table.stops.length)
  else .ok ()

/-- The words of an instruction behind its header. -/
def encodeOperands : Instruction ℓ → Except EncodeError (List UInt32)
  | .pushColor color => .ok (operandWords color.toList)
  | .opaqueJump target => resolveAll resolve [target]
  | .multiplyScalar factor => .ok (operandWords [factor])
  | .filter m => .ok (operandWords (m.entries ++ m.shift.toList))
  | .phong shininess lights =>
    if 0xffffff < lights then .error .lightCount else .ok (operandWords [shininess])
  | .linearBlendRatio ramp _ branches => do
    return operandWords ramp.operands ++ (← resolveAll resolve branches.targets)
  | .radialBlendRatio ramp _ branches => do
    return operandWords ramp.operands ++ (← resolveAll resolve branches.targets)
  | .linearGradientRatio axis _ _ table => do
    checkTable table
    return operandWords axis.operands ++ (← encodeStops resolve table)
  | .radialGradientRatio circles _ _ table => do
    checkTable table
    return operandWords circles.operands ++ (← encodeStops resolve table)
  | .barycentricBlend triangle _ => .ok (operandWords triangle.operands)
  | _ => .ok []

/-- The words of an instruction. -/
def encodeInstruction (i : Instruction ℓ) : Except EncodeError (List UInt32) := do
  let words := i.header :: (← encodeOperands resolve i)
  if words.length = i.length then return words
  else throw (.wrongLength words.length i.length)

end

/-- The words of the instructions of a list, the first of them at the given address. -/
def encodeFrom (table : AddressTable) (address : Nat) : List Line → Except EncodeError (List UInt32)
  | [] => .ok []
  | .mark _ :: rest => encodeFrom table address rest
  | .op i :: rest => do
    let words ← encodeInstruction (distance table address) i
    return words ++ (← encodeFrom table (address + i.length) rest)

/-- The words of a list whose last instruction is the exit. -/
def encode (lines : List Line) : Except EncodeError (List UInt32) := do
  if (Line.instructions lines).getLast? = some .exit then
    let table ← locate 0 [] lines
    encodeFrom table 0 lines
  else throw .noExit

/-- A buffer with the words of a list behind it, and the address where they start. -/
def append (buffer : List UInt32) (lines : List Line) :
    Except EncodeError (Nat × List UInt32) := do
  let words ← encode lines
  if buffer.length < addressSpace then return (buffer.length, buffer ++ words)
  else throw .bufferFull

end Shading
