import Shading.Code.Encode
import Shading.Proofs.Device.Arrays

/-!
# A guarded invocation

The invocation of the device over again, with its stacks in arrays and with a guard on every sum of
addresses that does not wrap around, on every stop that is selected from a gradient, and on the
inputs of the lighting. The sums are made in the places where the device makes them, one for each
word that is read.

Reading keeps no state. So where the sums fit a word, a guarded read is just the value
(`operand_eq_pure` and the like), and the guards are gone from sight.
-/

namespace Shading

namespace Guarded

variable {R : Type} {α β σ : Type}

/-! ### Loops -/

/-- The sum of an address and a slot. -/
def sum (a b : Nat) : Guarded σ Nat :=
  if a + b < addressSpace then pure (a + b) else violate (.address (a + b))

/-- A sum within the address space does not overflow. -/
theorem sum_eq_pure {a b : Nat} (h : a + b < addressSpace) :
    (sum a b : Guarded σ Nat) = pure (a + b) := if_pos h

theorem foldlM_eq_pure {f : β → α → Guarded σ β} {g : β → α → β} {as : List α} {b : β}
    (h : ∀ b, ∀ a ∈ as, f b a = pure (g b a)) : as.foldlM f b = pure (as.foldl g b) := by
  induction as generalizing b with
  | nil => rfl
  | cons a as ih =>
    rw [List.foldlM_cons, h b a List.mem_cons_self, pure_bind, List.foldl_cons]
    exact ih fun b a' ha' ↦ h b a' (List.mem_cons_of_mem _ ha')

theorem mapM_eq_pure {f : α → Guarded σ β} {g : α → β} {as : List α}
    (h : ∀ a ∈ as, f a = pure (g a)) : as.mapM f = pure (as.map g) := by
  induction as with
  | nil => rfl
  | cons a as ih =>
    rw [List.mapM_cons, h a List.mem_cons_self, pure_bind,
      ih fun a' ha' ↦ h a' (List.mem_cons_of_mem _ ha'), pure_bind]
    rfl

/-! ### Reading -/

section Reading

variable (word : Nat → UInt32)

def target (address slot : Nat) : Guarded σ Nat := do
  return (address + (word (← sum address slot)).toNat) % addressSpace

def branches (address slot : Nat) : Guarded σ (Branches Nat) := do
  return ⟨← target word address slot, ← target word address (slot + 1),
    ← target word address (slot + 2), ← target word address (slot + 3)⟩

variable [Rounding R Single]

def operand (address slot : Nat) : Guarded σ R := do
  return Invocation.operand word (← sum address slot)

def pointOperand (address : Nat) : Guarded σ (Point R) := do
  return ⟨← operand word address 0, ← operand word address 1⟩

def vec4Operand (address : Nat) : Guarded σ (Vec4 R) := do
  return ⟨← operand word address 0, ← operand word address 1, ← operand word address 2,
    ← operand word address 3⟩

def affineOperand (address : Nat) : Guarded σ (Affine R) := do
  return ⟨← operand word address 0, ← operand word address 1, ← operand word address 2,
    ← operand word address 3, ← operand word address 4, ← operand word address 5⟩

def filterOperand (address : Nat) : Guarded σ (ColorFilter R) := do
  return ⟨← vec4Operand word address, ← vec4Operand word (← sum address 4),
    ← vec4Operand word (← sum address 8), ← vec4Operand word (← sum address 12),
    ← vec4Operand word (← sum address 16)⟩

def tripleOperand (address : Nat) : Guarded σ (Triple R) := do
  return ⟨← operand word address 0, ← operand word address 1, ← operand word address 2⟩

end Reading

section Reads

variable {word : Nat → UInt32} {address slot : Nat}

theorem target_eq_pure (h : address + slot < addressSpace) :
    (target word address slot : Guarded σ Nat) = pure (Invocation.target word address slot) := by
  rw [target, sum_eq_pure h, pure_bind]
  rfl

theorem branches_eq_pure (h : address + slot + 3 < addressSpace) :
    (branches word address slot : Guarded σ (Branches Nat)) =
      pure (Invocation.branches word address slot) := by
  simp (disch := omega) only [branches, target_eq_pure, pure_bind]
  rfl

variable [Rounding R Single]

/-- An operand within the address space is read without a violation. -/
theorem operand_eq_pure (h : address + slot < addressSpace) :
    (operand word address slot : Guarded σ R) =
      pure (Invocation.operand word (address + slot)) := by
  rw [operand, sum_eq_pure h, pure_bind]

/-- The operands in consecutive words, each at a sum of its own. -/
theorem operands_eq_pure {count : Nat} (h : address + slot + count < addressSpace) :
    ((List.range count).mapM fun i ↦ do operand word (← sum address slot) i : Guarded σ (List R)) =
      pure ((List.range count).map fun i ↦ Invocation.operand word (address + slot + i)) := by
  refine mapM_eq_pure fun i hi ↦ ?_
  have hlt : i < count := List.mem_range.1 hi
  rw [sum_eq_pure (by omega), pure_bind, operand_eq_pure (by omega)]

theorem pointOperand_eq_pure (h : address + 1 < addressSpace) :
    (pointOperand word address : Guarded σ (Point R)) =
      pure (Invocation.pointOperand word address) := by
  simp (disch := omega) only [pointOperand, operand_eq_pure, pure_bind]
  rfl

theorem vec4Operand_eq_pure (h : address + 3 < addressSpace) :
    (vec4Operand word address : Guarded σ (Vec4 R)) =
      pure (Invocation.vec4Operand word address) := by
  simp (disch := omega) only [vec4Operand, operand_eq_pure, pure_bind]
  rfl

theorem affineOperand_eq_pure (h : address + 5 < addressSpace) :
    (affineOperand word address : Guarded σ (Affine R)) =
      pure (Invocation.affineOperand word address) := by
  simp (disch := omega) only [affineOperand, operand_eq_pure, pure_bind]
  rfl

theorem filterOperand_eq_pure (h : address + 19 < addressSpace) :
    (filterOperand word address : Guarded σ (ColorFilter R)) =
      pure (Invocation.filterOperand word address) := by
  simp (disch := omega) only [filterOperand, vec4Operand_eq_pure, sum_eq_pure, pure_bind]
  rfl

theorem tripleOperand_eq_pure (h : address + 2 < addressSpace) :
    (tripleOperand word address : Guarded σ (Triple R)) =
      pure (Invocation.tripleOperand word address) := by
  simp (disch := omega) only [tripleOperand, operand_eq_pure, pure_bind]
  rfl

end Reads

/-! ### Samples -/

section Samples

variable (ctx : DeviceContext Single) (edges : Array Single)

/-- The moments of the boundary, with guarded indices of edges. -/
def moments : Guarded σ (DeviceContext.Moments Single) := do
  let explicit ← (List.range ctx.edgeCount).foldlM (fun m i ↦ do
    return m.add (DeviceContext.edgeAt edges (← sum ctx.edgeOffset i)) 1) ⟨0, 0, 0⟩
  let sides := (Face.mk [] ctx.bounds ctx.minX ctx.minY ctx.maxX ctx.maxY).sides
  return sides.foldl (fun m s ↦ m.add s.1 (Scalar.ofInt s.2)) explicit

def faceCentroid : Guarded σ (Point Single) := do
  if deviceIterations < ctx.edgeCount then fault
  else
    let m ← moments ctx edges
    let area := 0.5 * m.area
    if Scalar.abs area ≤ Scalar.singleEpsilon then return ctx.center
    else
      let k := 1 / (6 * area)
      return ⟨m.x * k, m.y * k⟩

def centroid : Guarded σ (Point Single) :=
  if ctx.hasCentroid then pure ctx.centroid else faceCentroid ctx edges

/-- The sample for an accuracy given by its code. -/
def sample {R : Type} [Rounding R Single] (code : UInt32) : Guarded σ (Point R) := do
  let accuracy ← get? (Accuracy.ofCode? code.toNat)
  let p ← if accuracy.readsCentroid then centroid ctx edges else pure ctx.center
  return p.map widen

end Samples

section Sampling

variable {ctx : DeviceContext Single} {edges : Array Single}

/-- If the edges lie within the address space, their moments are computed without a violation. -/
theorem moments_eq_pure (hedges : ctx.edgeOffset + ctx.edgeCount < addressSpace) :
    (moments ctx edges : Guarded σ _) = pure (ctx.moments edges) := by
  have hguards (m : DeviceContext.Moments Single) : ∀ i ∈ List.range ctx.edgeCount,
      (do return m.add (DeviceContext.edgeAt edges (← sum ctx.edgeOffset i)) 1 :
        Guarded σ (DeviceContext.Moments Single)) =
      pure (m.add (DeviceContext.edgeAt edges (ctx.edgeOffset + i)) 1) := by
    intro i hi
    rw [sum_eq_pure (Nat.lt_trans (Nat.add_lt_add_left (List.mem_range.1 hi) _) hedges), pure_bind]
  rw [moments, foldlM_eq_pure hguards, pure_bind]
  rfl

/-- If the edges lie within the address space, the centroid is computed without a violation. -/
theorem faceCentroid_eq_get? (hedges : ctx.edgeOffset + ctx.edgeCount < addressSpace) :
    (faceCentroid ctx edges : Guarded σ _) = get? (ctx.faceCentroid? edges) := by
  rw [faceCentroid, DeviceContext.faceCentroid?, moments_eq_pure hedges, pure_bind]
  split
  · rfl
  · dsimp only
    split <;> rfl

/-- A sample is taken without a violation, where one is taken at all. -/
theorem sample_eq [Rounding R Single] (hedges : ctx.edgeOffset + ctx.edgeCount < addressSpace)
    (code : UInt32) : (sample ctx edges code : Guarded σ (Point R)) = do
      let accuracy ← get? (Accuracy.ofCode? code.toNat)
      return (← get? (ctx.samplePoint? edges accuracy)).map widen := by
  rw [sample]
  refine congrArg _ (funext fun accuracy ↦ ?_)
  rw [DeviceContext.samplePoint?, DeviceContext.centroid?, centroid, faceCentroid_eq_get? hedges]
  split
  · split <;> rfl
  · rfl

end Sampling

/-! ### Instructions -/

variable [ColorModel R] [Rounding R Single]

def push (value : Vec4 R) : Guarded Arrays Unit :=
  Arrays.onValues (FixedStack.push (value.map narrow))

def pop : Guarded Arrays (Vec4 R) := do return (← Arrays.onValues FixedStack.pop).map widen

/-- The topmost values, as many as asked for, the deepest first. -/
def popMany (count : Nat) : Guarded Arrays (List (Vec4 R)) := do
  return (← Arrays.onValues (FixedStack.popMany count)).map (Vec4.map widen)

def pushReturn (address : Nat) : Guarded Arrays Unit := Arrays.onReturns (FixedStack.push address)

/-- Replaces the value on top. -/
def unary (f : Vec4 R → Vec4 R) : Guarded Arrays Invocation.Flow := do
  push (f (← pop))
  return .next

section Steps

variable (word : Nat → UInt32) (ctx : DeviceContext Single) (edges : Array Single)

/-- Calls the side of a blend that a ratio falls on, or both sides with the ratio below them. -/
def dispatchBlend (t : R) (places : Branches Nat) : Guarded Arrays Invocation.Flow := do
  if t ≤ 0 then
    pushReturn places.done
    return .jump places.zero
  else if 1 ≤ t then
    pushReturn places.done
    return .jump places.one
  else
    push (Vec4.splat t)
    pushReturn places.blend
    pushReturn places.one
    return .jump places.zero

/-- The place of a stop. Only a gradient without stops is asked for one that it does not have. -/
def stop (address slot stops i : Nat) : Guarded Arrays Nat := do
  if stops ≠ 0 ∧ stops ≤ i then violate (.stop i stops)
  else
    let place ← sum (← sum (← sum address slot) stops) i
    return (address + (word place).toNat) % addressSpace

/-- Calls the stops that a ratio falls on. -/
def dispatchGradient (address slot stops : Nat) (extend : Extend) (t : Option R) :
    Guarded Arrays Invocation.Flow := do
  let blend ← target word address (slot - 2)
  let done ← target word address (slot - 1)
  match t with
  | none =>
    push (Vec4.zero : Vec4 R)
    return .jump done
  | some t =>
    let ratios : List R ← (List.range stops).mapM fun i ↦ do operand word (← sum address slot) i
    match Selection.select ratios (extend.apply t) with
    | .single i =>
      pushReturn done
      return .jump (← stop word address slot stops i)
    | .between i ratio =>
      push (Vec4.splat ratio)
      pushReturn blend
      pushReturn (← stop word address slot stops (i + 1))
      return .jump (← stop word address slot stops i)

/-- The effect of the instruction at an address, other than the exit. -/
def step (address : Nat) (header : UInt32) : Opcode → Guarded Arrays Invocation.Flow
  | .exit => fault
  | .ret => return .jump (← Arrays.onReturns FixedStack.pop)
  | .pushColor => do
    let start ← sum address 1
    Arrays.onValues (FixedStack.push ⟨⟨word (← sum start 0)⟩, ⟨word (← sum start 1)⟩,
      ⟨word (← sum start 2)⟩, ⟨word (← sum start 3)⟩⟩)
    return .next
  | .opaqueJump => do
    let top ← Arrays.onValues FixedStack.peek
    if isOpaqueAlpha (widen top.w : R) then return .jump (← target word address 1)
    else return .next
  | .stackBlend => do
    let background : Vec4 R ← pop
    let foreground ← pop
    push (Shading.stackBlend foreground background)
    return .next
  | .mix => do
    let one : Vec4 R ← pop
    let zero ← pop
    let ratio : Vec4 R ← pop
    push (zero.lerp one ratio.x)
    return .next
  | .blendCompose => do
    let compose ← get? (Compose.ofCode? (header >>> 8 &&& 0xff).toNat)
    let blend ← get? (Blend.ofCode? (header >>> 16 &&& 0xff).toNat)
    let b : Vec4 R ← pop
    let a ← pop
    push (Shading.blendCompose a b compose blend)
    return .next
  | .premultiply => unary (R := R) Shading.premultiply
  | .unpremultiply => unary (R := R) Shading.unpremultiply
  | .convert conversion => unary (R := R) (ColorModel.convert conversion)
  | .multiplyScalar => do
    let factor : R ← operand word address 1
    unary fun v : Vec4 R ↦ v * factor
  | .normalize => unary (R := R) Vec4.normalized
  | .filter => do
    let m : ColorFilter R ← filterOperand word (← sum address 1)
    unary m.apply
  | .phong => do
    let inputs : List (Vec4 R) ← popMany (5 + 2 * (header >>> 8).toNat)
    let shininess : R ← operand word address 1
    match phong? shininess inputs with
    | some value =>
      push value
      return .next
    | none => violate .input
  | .linearBlendRatio => do
    let p : Point R ← sample ctx edges (header >>> 8 &&& 0xff)
    let ramp : LinearRamp R :=
      ⟨← pointOperand word (← sum address 1), ← operand word address 3⟩
    dispatchBlend (ramp.ratio p) (← branches word address 4)
  | .radialBlendRatio => do
    let p : Point R ← sample ctx edges (header >>> 8 &&& 0xff)
    let ramp : RadialRamp R :=
      ⟨← affineOperand word (← sum address 1), ← operand word address 7,
        ← operand word address 8⟩
    dispatchBlend (ramp.ratio p) (← branches word address 9)
  | .linearGradientRatio => do
    let p : Point R ← sample ctx edges (header >>> 8 &&& 0xf)
    let extend ← get? (Extend.ofCode? (header >>> 12 &&& 0xf).toNat)
    let axis : LinearAxis R :=
      ⟨← affineOperand word (← sum address 1), ← pointOperand word (← sum address 7),
        ← pointOperand word (← sum address 9)⟩
    dispatchGradient word address 13 (headerStops header) extend (some (axis.ratio p))
  | .radialGradientRatio => do
    let p : Point R ← sample ctx edges (header >>> 8 &&& 0xf)
    let extend ← get? (Extend.ofCode? (header >>> 12 &&& 0xf).toNat)
    let circles : CirclePair R :=
      ⟨← affineOperand word (← sum address 1), ← pointOperand word (← sum address 7),
        ← operand word address 9, ← pointOperand word (← sum address 10),
        ← operand word address 12⟩
    dispatchGradient word address 15 (headerStops header) extend (circles.ratio? p)
  | .barycentricBlend => do
    let c : Vec4 R ← pop
    let b : Vec4 R ← pop
    let a : Vec4 R ← pop
    let p : Point R ← sample ctx edges (header >>> 16 &&& 0xff)
    let corners : Triple (Point R) :=
      ⟨← pointOperand word (← sum address 2), ← pointOperand word (← sum address 4),
        ← pointOperand word (← sum address 6)⟩
    let depths : Option (Triple R) ←
      if header &&& perspectiveFlag != 0 then
        some <$> tripleOperand word (← sum address 8)
      else pure none
    let w := (Triangle.mk corners (← operand word address 1) depths).weights p
    push (a * w.a + b * w.b + c * w.c)
    return .next

/-- The address that an instruction leads to. -/
def follow (address : Nat) (header : UInt32) (opcode : Opcode) : Guarded Arrays Nat := do
  match ← step (R := R) word ctx edges address header opcode with
  | .next => sum address (opcode.length header)
  | .jump place => return place

/-- The answer at the exit: the single value that is left when nothing is pending. -/
def finish : Guarded Arrays (Vec4 Single) := fun a ↦
  if a.values.pointer ≠ 1 ∨ a.returns.pointer ≠ 0 then fault a
  else
    (do
      let value ← Arrays.onValues (FixedStack.read 0)
      return if ctx.premultiplied then value
        else (Shading.unpremultiply (value.map widen : Vec4 R)).map narrow) a

/-- The state of an invocation: the address of the next instruction, and the stacks. -/
structure State where
  address : Nat
  arrays : Arrays := .initial

/-- What an instruction leads to. -/
inductive Outcome where
  | running (state : State)
  | halted (arrays : Arrays)
  | faulted

/-- One instruction executed. -/
def advance (s : State) : Except Violation Outcome :=
  if deviceAddressLimit ≤ s.address then .ok .faulted
  else
    let header := word s.address
    match Opcode.ofWord? header with
    | none => .ok .faulted
    | some .exit => .ok (.halted s.arrays)
    | some opcode =>
      match (follow (R := R) word ctx edges s.address header opcode s.arrays).run with
      | .error cause => .error cause
      | .ok none => .ok .faulted
      | .ok (some (address, arrays)) => .ok (.running ⟨address, arrays⟩)

/-- The number of instructions that were begun, at most as many as given, and the answer of the
invocation if it came to its exit. -/
def run : Nat → State → Except Violation (Nat × Option (Vec4 Single))
  | 0, _ => .ok (0, none)
  | fuel + 1, s => do
    match ← advance (R := R) word ctx edges s with
    | .running s =>
      let (count, answer) ← run fuel s
      return (count + 1, answer)
    | .halted a => return (1, (← (finish (R := R) ctx a).run).map Prod.fst)
    | .faulted => return (1, none)

end Steps

/-- The number of instructions that were begun, and the color of the program at an offset of a
buffer for one sample. -/
def execute (words : List UInt32) (offset : Nat) (ctx : DeviceContext Single)
    (edges : Array Single) : Except Violation (Nat × Vec4 Single) := do
  let (count, answer) ←
    run (R := R) (Invocation.wordAt words.toArray) ctx edges deviceIterations ⟨offset, .initial⟩
  return (count, answer.getD errorColor)

end Guarded

end Shading
