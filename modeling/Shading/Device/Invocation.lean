import Shading.Code.Opcode
import Shading.Color.Blend
import Shading.Device.Context
import Shading.Lighting
import Shading.Ramp

/-!
# Invocations

One run of the device: instructions are read word by word from a buffer, values are kept in single
precision on stacks of fixed size, and there are no error values. Whatever goes wrong is a fault,
and a faulted invocation shows the error color.

Shape decisions: the buffer is a function from addresses to words, zero past the end, which is the
word of the exit. Addresses are natural numbers; only jumps wrap around at the end of the address
space. A fault is `none`.
-/

namespace Shading

/-- The depth of the stack of values and of the stack of return addresses. -/
def deviceStackSize : Nat := 16

/-- Addresses from here on are refused. It leaves room for the longest instruction below the end of
the address space. -/
def deviceAddressLimit : Nat := 4294967295 - 262144

/-- The color of an invocation that faulted. -/
def errorColor : Vec4 Single := ⟨⟨0x3f800000⟩, ⟨0⟩, ⟨0x3f800000⟩, ⟨0x3f800000⟩⟩

/-- The stacks of an invocation, each with the top in front. -/
structure Registers where
  values : List (Vec4 Single) := []
  returns : List Nat := []
deriving DecidableEq, Repr, Inhabited

/-- An operation of the device. -/
abbrev DeviceM := StateT Registers Option

namespace Invocation

/-- The state of an invocation: the address of the next instruction, and the stacks. -/
structure State where
  address : Nat
  registers : Registers := {}
deriving DecidableEq, Repr, Inhabited

/-- Where the invocation goes from an instruction: past it, or to an address. -/
inductive Flow where
  | next
  | jump (address : Nat)
deriving DecidableEq, Repr

def pushSingle (value : Vec4 Single) : DeviceM Unit := fun r ↦
  if r.values.length < deviceStackSize then some ((), { r with values := value :: r.values })
  else none

def popSingle : DeviceM (Vec4 Single) := fun r ↦
  match r.values with
  | [] => none
  | value :: rest => some (value, { r with values := rest })

def pushReturn (address : Nat) : DeviceM Unit := fun r ↦
  if r.returns.length < deviceStackSize then some ((), { r with returns := address :: r.returns })
  else none

def popReturn : DeviceM Nat := fun r ↦
  match r.returns with
  | [] => none
  | address :: rest => some (address, { r with returns := rest })

/-- The topmost value, which stays. -/
def peekSingle : DeviceM (Vec4 Single) := fun r ↦ r.values.head?.map fun value ↦ (value, r)

def fault {α : Type} : DeviceM α := fun _ ↦ none

/-- The value, or a fault if there is none. -/
def get? {α : Type} (a : Option α) : DeviceM α := fun r ↦ a.map fun a ↦ (a, r)

section Reading

variable (word : Nat → UInt32)

/-- The address that the instruction at an address jumps to by the distance in one of its words. -/
def target (address slot : Nat) : Nat := (address + (word (address + slot)).toNat) % 4294967296

/-- The four places of a blend, from consecutive words. -/
def branches (address slot : Nat) : Branches Nat :=
  ⟨target word address slot, target word address (slot + 1), target word address (slot + 2),
    target word address (slot + 3)⟩

variable {R : Type} [Rounding R Single]

/-- The operand at an address. -/
def operand (address : Nat) : R := widen (Single.mk (word address))

def pointOperand (address : Nat) : Point R :=
  ⟨operand word address, operand word (address + 1)⟩

def vec4Operand (address : Nat) : Vec4 R :=
  ⟨operand word address, operand word (address + 1), operand word (address + 2),
    operand word (address + 3)⟩

def affineOperand (address : Nat) : Affine R :=
  ⟨operand word address, operand word (address + 1), operand word (address + 2),
    operand word (address + 3), operand word (address + 4), operand word (address + 5)⟩

def filterOperand (address : Nat) : ColorFilter R :=
  ⟨vec4Operand word address, vec4Operand word (address + 4), vec4Operand word (address + 8),
    vec4Operand word (address + 12), vec4Operand word (address + 16)⟩

def tripleOperand (address : Nat) : Triple R :=
  ⟨operand word address, operand word (address + 1), operand word (address + 2)⟩

end Reading

variable {R : Type} [ColorModel R] [Rounding R Single]

def push (value : Vec4 R) : DeviceM Unit := pushSingle (value.map narrow)

def pop : DeviceM (Vec4 R) := do return (← popSingle).map widen

/-- Replaces the value on top. -/
def unary (f : Vec4 R → Vec4 R) : DeviceM Flow := do
  push (f (← pop))
  return .next

/-- The topmost values, as many as asked for, the deepest first. -/
def popMany (count : Nat) : DeviceM (List (Vec4 R)) := fun r ↦
  if r.values.length < count then none
  else some ((r.values.take count).reverse.map (Vec4.map widen),
    { r with values := r.values.drop count })

section Steps

variable (word : Nat → UInt32) (ctx : DeviceContext Single) (edges : Array Single)

/-- The sample for an accuracy given by its code. -/
def sample (code : UInt32) : DeviceM (Point R) := do
  let accuracy ← get? (Accuracy.ofCode? code.toNat)
  return (← get? (ctx.samplePoint? edges accuracy)).map widen

/-- Calls the side of a blend that a ratio falls on, or both sides with the ratio below them. -/
def dispatchBlend (t : R) (places : Branches Nat) : DeviceM Flow := do
  if t ≤ 0 then
    pushReturn places.done
    return .jump places.zero
  else if 1 ≤ t then
    pushReturn places.done
    return .jump places.one
  else
    push (Vec4.splat t)
    pushReturn places.blend
    pushReturn places.one
    return .jump places.zero

/-- Calls the stops that a ratio falls on. The ratios and then the places of the stops start at the
given slot; the two words before it are the places behind the stops. -/
def dispatchGradient (address slot stops : Nat) (extend : Extend) (t : Option R) :
    DeviceM Flow := do
  let blend := target word address (slot - 2)
  let done := target word address (slot - 1)
  match t with
  | none =>
    push (Vec4.zero : Vec4 R)
    return .jump done
  | some t =>
    let ratios : List R := (List.range stops).map fun i ↦ operand word (address + slot + i)
    let stop (i : Nat) : Nat := target word address (slot + stops + i)
    match Selection.select ratios (extend.apply t) with
    | .single i =>
      pushReturn done
      return .jump (stop i)
    | .between i ratio =>
      push (Vec4.splat ratio)
      pushReturn blend
      pushReturn (stop (i + 1))
      return .jump (stop i)

/-- The effect of the instruction at an address, other than the exit. -/
def step (address : Nat) (header : UInt32) : Opcode → DeviceM Flow
  | .exit => fault
  | .ret => return .jump (← popReturn)
  | .pushColor => do
    pushSingle ⟨⟨word (address + 1)⟩, ⟨word (address + 2)⟩, ⟨word (address + 3)⟩,
      ⟨word (address + 4)⟩⟩
    return .next
  | .opaqueJump => do
    let top ← peekSingle
    return if isOpaqueAlpha (widen top.w : R) then .jump (target word address 1) else .next
  | .stackBlend => do
    let background : Vec4 R ← pop
    let foreground ← pop
    push (Shading.stackBlend foreground background)
    return .next
  | .mix => do
    let one : Vec4 R ← pop
    let zero ← pop
    let ratio : Vec4 R ← pop
    push (zero.lerp one ratio.x)
    return .next
  | .blendCompose => do
    let compose ← get? (Compose.ofCode? (header >>> 8 &&& 0xff).toNat)
    let blend ← get? (Blend.ofCode? (header >>> 16 &&& 0xff).toNat)
    let b : Vec4 R ← pop
    let a ← pop
    push (Shading.blendCompose a b compose blend)
    return .next
  | .premultiply => unary (R := R) Shading.premultiply
  | .unpremultiply => unary (R := R) Shading.unpremultiply
  | .convert conversion => unary (R := R) (ColorModel.convert conversion)
  | .multiplyScalar =>
    let factor : R := operand word (address + 1)
    unary fun v : Vec4 R ↦ v * factor
  | .normalize => unary (R := R) Vec4.normalized
  | .filter => unary (R := R) (filterOperand word (address + 1)).apply
  | .phong => do
    let inputs : List (Vec4 R) ← popMany (5 + 2 * (header >>> 8).toNat)
    let value : Vec4 R ← get? (phong? (operand word (address + 1)) inputs)
    push value
    return .next
  | .linearBlendRatio => do
    let p : Point R ← sample ctx edges (header >>> 8 &&& 0xff)
    let ramp : LinearRamp R := ⟨pointOperand word (address + 1), operand word (address + 3)⟩
    dispatchBlend (ramp.ratio p) (branches word address 4)
  | .radialBlendRatio => do
    let p : Point R ← sample ctx edges (header >>> 8 &&& 0xff)
    let ramp : RadialRamp R :=
      ⟨affineOperand word (address + 1), operand word (address + 7), operand word (address + 8)⟩
    dispatchBlend (ramp.ratio p) (branches word address 9)
  | .linearGradientRatio => do
    let p : Point R ← sample ctx edges (header >>> 8 &&& 0xf)
    let extend ← get? (Extend.ofCode? (header >>> 12 &&& 0xf).toNat)
    let axis : LinearAxis R :=
      ⟨affineOperand word (address + 1), pointOperand word (address + 7),
        pointOperand word (address + 9)⟩
    dispatchGradient word address 13 (headerStops header) extend (some (axis.ratio p))
  | .radialGradientRatio => do
    let p : Point R ← sample ctx edges (header >>> 8 &&& 0xf)
    let extend ← get? (Extend.ofCode? (header >>> 12 &&& 0xf).toNat)
    let circles : CirclePair R :=
      ⟨affineOperand word (address + 1), pointOperand word (address + 7),
        operand word (address + 9), pointOperand word (address + 10),
        operand word (address + 12)⟩
    dispatchGradient word address 15 (headerStops header) extend (circles.ratio? p)
  | .barycentricBlend => do
    let c : Vec4 R ← pop
    let b : Vec4 R ← pop
    let a : Vec4 R ← pop
    let p : Point R ← sample ctx edges (header >>> 16 &&& 0xff)
    let corners : Triple (Point R) :=
      ⟨pointOperand word (address + 2), pointOperand word (address + 4),
        pointOperand word (address + 6)⟩
    let depths : Option (Triple R) :=
      if header &&& perspectiveFlag != 0 then some (tripleOperand word (address + 8)) else none
    let w := (Triangle.mk corners (operand word (address + 1)) depths).weights p
    push (a * w.a + b * w.b + c * w.c)
    return .next

/-- The answer at the exit: the single value that is left when nothing is pending. -/
def finish (r : Registers) : Option (Vec4 Single) :=
  match r.values, r.returns with
  | [value], [] =>
    some (if ctx.premultiplied then value
      else (Shading.unpremultiply (value.map widen : Vec4 R)).map narrow)
  | _, _ => none

/-- What an instruction leads to. -/
inductive Outcome where
  | running (state : State)
  | halted (registers : Registers)
  | faulted
deriving DecidableEq, Repr

/-- One instruction executed. -/
def advance (s : State) : Outcome :=
  if deviceAddressLimit ≤ s.address then .faulted
  else
    let header := word s.address
    match Opcode.ofWord? header with
    | none => .faulted
    | some .exit => .halted s.registers
    | some opcode =>
      match step (R := R) word ctx edges s.address header opcode s.registers with
      | none => .faulted
      | some (.next, r) => .running ⟨s.address + opcode.length header, r⟩
      | some (.jump address, r) => .running ⟨address, r⟩

/-- The answer of an invocation, if it comes to its exit within the given number of instructions. -/
def run : Nat → State → Option (Vec4 Single)
  | 0, _ => none
  | fuel + 1, s =>
    match advance (R := R) word ctx edges s with
    | .running s => run fuel s
    | .halted r => finish (R := R) ctx r
    | .faulted => none

end Steps

/-- The word at an address of a buffer, zero past the end. -/
def wordAt (words : Array UInt32) (address : Nat) : UInt32 := words.getD address 0

/-- The color of the program at an offset of a buffer for one sample. -/
def execute (words : List UInt32) (offset : Nat) (ctx : DeviceContext Single)
    (edges : Array Single) : Vec4 Single :=
  (run (R := R) (wordAt words.toArray) ctx edges deviceIterations ⟨offset, {}⟩).getD errorColor

end Invocation

end Shading
