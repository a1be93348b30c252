import Shading.Code.Opcode

/-!
# Decoding

A stream of words, from some address of a buffer up to its first exit, as a list of instructions.
Every jump has to lead forward to the start of an instruction of the stream; the places that jumps
lead to are marked, and numbered in the order of their addresses.

Shape decisions: an instruction is read from exactly the words that its header announces, by a
reader that consumes them from the front. The instructions are decoded with addresses in place of
locations, and the addresses are replaced at the end, when the boundaries are known.
-/

namespace Shading

/-- Why a stream cannot be decoded. -/
inductive DecodeError where
  | streamEnded (address : Nat)
  /-- A header, perhaps at a known address, has no opcode. -/
  | unknownOpcode (byte : Nat) (address : Option Nat)
  | truncated (opcode : Opcode) (address : Nat)
  | noOperand
  | backwardJump (address : Nat)
  | targetRange
  | compose
  | blend
  | accuracy (code : Nat)
  | noStops
  | extend
  | streamTooLong
  | notBoundary (target : Nat)
deriving DecidableEq, Repr

/-- The two digits of a byte to the base sixteen. -/
def hexByte (n : Nat) : String :=
  String.ofList [Nat.digitChar (n / 16 % 16), Nat.digitChar (n % 16)]

def DecodeError.message : DecodeError → String
  | .streamEnded address => s!"stream ended at {address} without exit"
  | .unknownOpcode byte none => s!"unknown opcode 0x{hexByte byte}"
  | .unknownOpcode byte (some address) => s!"unknown opcode 0x{hexByte byte} at {address}"
  | .truncated opcode address => s!"{opcode.name} at {address} is truncated"
  | .noOperand => "instruction truncated"
  | .backwardJump address => s!"jump at {address} does not move forward"
  | .targetRange => "jump target out of range"
  | .compose => "invalid compose type"
  | .blend => "invalid blend type"
  | .accuracy code => s!"invalid gradient accuracy {code}"
  | .noStops => "gradient without stops"
  | .extend => "invalid extend mode"
  | .streamTooLong => "stream exceeds u32 addressing"
  | .notBoundary target => s!"jump target {target} is not an instruction boundary"

/-- The number of words of the instruction with a header. -/
def headerLength (header : UInt32) : Except DecodeError Nat :=
  match Opcode.ofWord? header with
  | some opcode => .ok (opcode.length header)
  | none => .error (.unknownOpcode (header &&& 0xff).toNat none)

/-- A reader that consumes the words of one instruction. -/
abbrev WordReader := StateT (List UInt32) (Except DecodeError)

namespace WordReader

def word : WordReader UInt32
  | [] => .error .noOperand
  | w :: rest => .ok (w, rest)

def single : WordReader Single := return ⟨← word⟩

def point : WordReader (Point Single) := return ⟨← single, ← single⟩

def vec4 : WordReader (Vec4 Single) := return ⟨← single, ← single, ← single, ← single⟩

def affine : WordReader (Affine Single) :=
  return ⟨← single, ← single, ← single, ← single, ← single, ← single⟩

def triple {α : Type} (item : WordReader α) : WordReader (Triple α) :=
  return ⟨← item, ← item, ← item⟩

/-- As many items as asked for. -/
def items {α : Type} (item : WordReader α) : Nat → WordReader (List α)
  | 0 => return []
  | n + 1 => do
    let first ← item
    return first :: (← items item n)

def fail {α : Type} (cause : DecodeError) : WordReader α := fun _ ↦ .error cause

/-- The value, if there is one. -/
def get {α : Type} (cause : DecodeError) : Option α → WordReader α
  | some a => return a
  | none => fail cause

/-- The place that the instruction at an address jumps to. -/
def target (address : Nat) : WordReader Nat := do
  let d ← word
  if d = 0 then fail (.backwardJump address)
  else if address + d.toNat < 4294967296 then return address + d.toNat
  else fail .targetRange

def accuracy (code : UInt32) : WordReader Accuracy :=
  get (.accuracy code.toNat) (Accuracy.ofCode? code.toNat)

def branches (address : Nat) : WordReader (Branches Nat) :=
  return ⟨← target address, ← target address, ← target address, ← target address⟩

def linearRamp : WordReader (LinearRamp Single) := return ⟨← point, ← single⟩

def radialRamp : WordReader (RadialRamp Single) := return ⟨← affine, ← single, ← single⟩

def linearAxis : WordReader (LinearAxis Single) := return ⟨← affine, ← point, ← point⟩

def circlePair : WordReader (CirclePair Single) :=
  return ⟨← affine, ← point, ← single, ← point, ← single⟩

/-- The stops of a gradient: the places behind them, the ratios, and the places of the stops. -/
def stopTable (address : Nat) (header : UInt32) : WordReader (Extend × StopTable Nat) := do
  let n := headerStops header
  if n = 0 then fail .noStops
  else
    let extend ← get .extend (Extend.ofCode? (header >>> 12 &&& 0xf).toNat)
    let blend ← target address
    let done ← target address
    let ratios ← items single n
    let stops ← items (target address) n
    return (extend, ⟨ratios, stops, blend, done⟩)

/-- A triangle, with depths if the header says so. -/
def triangle (header : UInt32) : WordReader (Triangle Single) := do
  let inverse ← single
  let corners ← triple point
  if header &&& perspectiveFlag != 0 then return ⟨corners, inverse, some (← triple single)⟩
  else return ⟨corners, inverse, none⟩

/-- The operands of the instruction at an address with a header. -/
def operands (address : Nat) (header : UInt32) : Opcode → WordReader (Instruction Nat)
  | .exit => return .exit
  | .ret => return .ret
  | .pushColor => return .pushColor (← vec4)
  | .opaqueJump => return .opaqueJump (← target address)
  | .stackBlend => return .stackBlend
  | .mix => return .mix
  | .blendCompose => do
    let compose ← get .compose (Compose.ofCode? (header >>> 8 &&& 0xff).toNat)
    let blend ← get .blend (Blend.ofCode? (header >>> 16 &&& 0xff).toNat)
    return .blendCompose compose blend
  | .premultiply => return .premultiply
  | .unpremultiply => return .unpremultiply
  | .convert conversion => return .convert conversion
  | .multiplyScalar => return .multiplyScalar (← single)
  | .normalize => return .normalize
  | .filter => return .filter ⟨← vec4, ← vec4, ← vec4, ← vec4, ← vec4⟩
  | .phong => return .phong (← single) (header >>> 8).toNat
  | .linearBlendRatio => do
    let ramp ← linearRamp
    let accuracy ← accuracy (header >>> 8 &&& 0xff)
    return .linearBlendRatio ramp accuracy (← branches address)
  | .radialBlendRatio => do
    let ramp ← radialRamp
    let accuracy ← accuracy (header >>> 8 &&& 0xff)
    return .radialBlendRatio ramp accuracy (← branches address)
  | .linearGradientRatio => do
    let axis ← linearAxis
    let (extend, table) ← stopTable address header
    return .linearGradientRatio axis (← accuracy (header >>> 8 &&& 0xf)) extend table
  | .radialGradientRatio => do
    let circles ← circlePair
    let (extend, table) ← stopTable address header
    return .radialGradientRatio circles (← accuracy (header >>> 8 &&& 0xf)) extend table
  | .barycentricBlend => do
    let triangle ← triangle header
    return .barycentricBlend triangle (← accuracy (header >>> 16 &&& 0xff))

end WordReader

/-- The instruction at an address, with addresses as references, and the words behind it. -/
def decodeInstruction (address : Nat) (opcode : Opcode) :
    List UInt32 → Except DecodeError (Instruction Nat × List UInt32)
  | [] => .error .noOperand
  | header :: rest => (WordReader.operands address header opcode).run rest

/-- The instructions from an address on, each with its own address, up to the first exit. -/
def decodeFrom (address : Nat) (words : List UInt32) :
    Except DecodeError (List (Nat × Instruction Nat)) :=
  match words with
  | [] => .error (.streamEnded address)
  | header :: tail =>
    match Opcode.ofWord? header with
    | none => .error (.unknownOpcode (header &&& 0xff).toNat (some address))
    | some opcode =>
      let length := opcode.length header
      let own := (header :: tail).take length
      if own.length < length then .error (.truncated opcode address)
      else do
        let (i, _) ← decodeInstruction address opcode own
        if 4294967296 ≤ address then throw .streamTooLong
        else if opcode = .exit then return [(address, i)]
        else return (address, i) :: (← decodeFrom (address + length) (tail.drop (length - 1)))
termination_by words.length
decreasing_by simp only [List.length_drop, List.length_cons]; omega

/-- The first of some places that is not the start of an instruction is refused. -/
def checkTargets (boundaries : List Nat) : List Nat → Except DecodeError Unit
  | [] => .ok ()
  | target :: rest =>
    if boundaries.contains target then checkTargets boundaries rest
    else .error (.notBoundary target)

/-- Decoded instructions with marks at the places that jumps lead to, numbered in order. -/
def markTargets (decoded : List (Nat × Instruction Nat)) : Except DecodeError (List Line) := do
  let boundaries := decoded.map (·.1)
  let targets := decoded.flatMap (·.2.targets)
  checkTargets boundaries targets
  let marked := boundaries.filter targets.contains
  let number (address : Nat) : Nat := marked.idxOf address
  return decoded.flatMap fun d ↦
    let op : Line := .op (d.2.map number)
    if marked.contains d.1 then [.mark (number d.1), op] else [op]

/-- The list of instructions of the stream that starts at an address of a buffer. -/
def decode (words : List UInt32) (offset : Nat) : Except DecodeError (List Line) := do
  markTargets (← decodeFrom offset (words.drop offset))

end Shading
