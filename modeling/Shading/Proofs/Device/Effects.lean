import Shading.Proofs.Device.Spelling
import Shading.Proofs.Gradient

/-!
# Effects of instructions on the device

What an instruction does to the registers of the device, told from the instruction itself and not
from the words that spell it (`Invocation.effect`, `step_eq_effect`).

An effect does nothing with addresses but put them on the return stack, take them from it, and go to
them. So an instruction whose references are passed through some function, whatever it is, does the
same to registers whose return addresses are passed through it too (`shifts_effect`). Of a function
that leaves only some addresses alone, this says that no others come up (`known_of_effect`).
-/

namespace Shading

variable {β γ δ ε : Type}

/-- A device operation that faults in its first part faults. -/
theorem bind_apply_of_none {d : DeviceM β} {e : β → DeviceM δ} {r : Registers} (h : d r = none) :
    (d >>= e) r = none := by
  show (d r).bind (fun b ↦ e b.1 b.2) = none
  rw [h]
  rfl

theorem bind_apply_of_some {d : DeviceM β} {e : β → DeviceM δ} {r : Registers} {b : β}
    {t : Registers} (h : d r = some (b, t)) : (d >>= e) r = e b t := by
  show (d r).bind (fun b ↦ e b.1 b.2) = e b t
  rw [h]
  rfl

namespace Invocation

variable {R : Type} [ColorModel R] [Rounding R Single]

/-! ### Effects -/

/-- The sample for an accuracy. -/
def sampleAt (ctx : DeviceContext Single) (edges : Array Single) (accuracy : Accuracy) :
    DeviceM (Point R) := do
  return (← get? (ctx.samplePoint? edges accuracy)).map widen

/-- Calls the stops of a table that a ratio falls on. -/
def dispatchTable (table : StopTable Nat) (extend : Extend) (t : Option R) : DeviceM Flow := do
  match t with
  | none =>
    push (Vec4.zero : Vec4 R)
    return .jump table.done
  | some t =>
    match Selection.select (table.ratios.map widen) (extend.apply t) with
    | .single i =>
      pushReturn table.done
      return .jump (← get? table.stops[i]?)
    | .between i ratio =>
      push (Vec4.splat ratio)
      pushReturn table.blend
      pushReturn (← get? table.stops[i + 1]?)
      return .jump (← get? table.stops[i]?)

/-- The effect of an instruction, other than the exit. -/
def effect (ctx : DeviceContext Single) (edges : Array Single) : Instruction Nat → DeviceM Flow
  | .exit => fault
  | .ret => return .jump (← popReturn)
  | .pushColor color => do
    pushSingle color
    return .next
  | .opaqueJump place => do
    let top ← peekSingle
    return if isOpaqueAlpha (widen top.w : R) then .jump place else .next
  | .stackBlend => do
    let background : Vec4 R ← pop
    let foreground ← pop
    push (Shading.stackBlend foreground background)
    return .next
  | .mix => do
    let one : Vec4 R ← pop
    let zero ← pop
    let ratio : Vec4 R ← pop
    push (zero.lerp one ratio.x)
    return .next
  | .blendCompose compose blend => do
    let b : Vec4 R ← pop
    let a ← pop
    push (Shading.blendCompose a b compose blend)
    return .next
  | .premultiply => unary (R := R) Shading.premultiply
  | .unpremultiply => unary (R := R) Shading.unpremultiply
  | .convert conversion => unary (R := R) (ColorModel.convert conversion)
  | .multiplyScalar factor => unary fun v : Vec4 R ↦ v * (widen factor : R)
  | .normalize => unary (R := R) Vec4.normalized
  | .filter m => unary (R := R) (m.map widen).apply
  | .phong shininess lights => do
    let inputs : List (Vec4 R) ← popMany (5 + 2 * lights)
    let value : Vec4 R ← get? (phong? (widen shininess) inputs)
    push value
    return .next
  | .linearBlendRatio ramp accuracy places => do
    let p : Point R ← sampleAt ctx edges accuracy
    dispatchBlend ((ramp.map widen).ratio p) places
  | .radialBlendRatio ramp accuracy places => do
    let p : Point R ← sampleAt ctx edges accuracy
    dispatchBlend ((ramp.map widen).ratio p) places
  | .linearGradientRatio axis accuracy extend table => do
    let p : Point R ← sampleAt ctx edges accuracy
    dispatchTable table extend (some ((axis.map widen).ratio p))
  | .radialGradientRatio circles accuracy extend table => do
    let p : Point R ← sampleAt ctx edges accuracy
    dispatchTable table extend ((circles.map widen).ratio? p)
  | .barycentricBlend triangle accuracy => do
    let c : Vec4 R ← pop
    let b : Vec4 R ← pop
    let a : Vec4 R ← pop
    let p : Point R ← sampleAt ctx edges accuracy
    let w := (triangle.map widen).weights p
    push (a * w.a + b * w.b + c * w.c)
    return .next

/-! ### What the words of an instruction do -/

theorem get?_some {x : β} : get? (some x) = pure x :=
  rfl

section Words

variable {word : Nat → UInt32} {ctx : DeviceContext Single} {edges : Array Single} {a : Nat}

omit [ColorModel R] in
/-- The code of an accuracy is looked up once. -/
theorem sample_eq_sampleAt {code : UInt32} {accuracy : Accuracy}
    (h : Accuracy.ofCode? code.toNat = some accuracy) :
    sample (R := R) ctx edges code = sampleAt ctx edges accuracy := by
  rw [sample, h]
  rfl

omit [ColorModel R] in
/-- A triangle that is rounded and widened has the operands as they are read. -/
theorem map_triangleAt (word : Nat → UInt32) (header : UInt32) (a : Nat) :
    ((triangleAt word header (a + 1)).map widen : Triangle R) =
      ⟨⟨pointOperand word (a + 2), pointOperand word (a + 4), pointOperand word (a + 6)⟩,
        operand word (a + 1),
        if header &&& perspectiveFlag != 0 then some (tripleOperand word (a + 8)) else none⟩ := by
  by_cases h : (header &&& perspectiveFlag != 0) = true
  · rw [triangleAt, if_pos h, if_pos h]
    rfl
  · rw [triangleAt, if_neg h, if_neg h]
    rfl

/-- The words of a gradient hold its table. -/
theorem dispatchGradient_eq_dispatchTable {slot : Nat} (hstops : headerStops (word a) ≠ 0)
    (extend : Extend) (t : Option R) :
    dispatchGradient word a slot (headerStops (word a)) extend t =
      dispatchTable (tableAt word a slot) extend t := by
  rcases t with - | t
  · rfl
  · have hratios : (tableAt word a slot).ratios.map (widen (R := R)) =
        (List.range (headerStops (word a))).map fun i ↦ operand word (a + slot + i) := by
      show ((List.range' slot _).map _).map widen = _
      rw [List.map_map, List.range'_eq_map_range, List.map_map]
      refine List.map_congr_left fun i _ ↦ ?_
      rw [operand, Nat.add_assoc]
      rfl
    have hstop : ∀ i, i < headerStops (word a) → (tableAt word a slot).stops[i]? =
        some (target word a (slot + headerStops (word a) + i)) := by
      intro i hi
      rw [tableAt, List.getElem?_map, List.getElem?_range' hi, Nat.one_mul]
      rfl
    -- The selected stops exist, so the table has the places that the words hold for them.
    have hne : (List.range (headerStops (word a))).map (fun i ↦
        (operand word (a + slot + i) : R)) ≠ [] := by
      simpa using hstops
    have hinside := Selection.select_inside (extend.apply t) hne
    rw [List.length_map, List.length_range] at hinside
    simp only [dispatchGradient, dispatchTable, hratios]
    rcases hselect : Selection.select _ (extend.apply t) with i | ⟨i, ratio⟩
    · rw [hselect] at hinside
      simp only [hstop i hinside, get?_some, pure_bind]
      rfl
    · rw [hselect] at hinside
      simp only [hstop i (Nat.lt_of_succ_lt hinside), hstop (i + 1) hinside, get?_some, pure_bind]
      rfl

/-- The words that spell an instruction have its effect. -/
theorem step_eq_effect {i : Instruction Nat} (hspells : Spells word a i) :
    step (R := R) word ctx edges a (word a) i.opcode = effect (R := R) ctx edges i := by
  cases i with
  | pushColor color =>
    obtain rfl := hspells
    rfl
  | opaqueJump t =>
    obtain rfl := hspells
    rfl
  | blendCompose compose blend =>
    obtain ⟨hc, hb⟩ := hspells
    simp only [Instruction.opcode, step, hc, hb, get?_some, pure_bind]
    rfl
  | multiplyScalar factor =>
    obtain rfl := hspells
    rfl
  | filter m =>
    obtain rfl := hspells
    rfl
  | phong shininess lights =>
    obtain ⟨rfl, rfl⟩ := hspells
    rfl
  | linearBlendRatio ramp accuracy b =>
    obtain ⟨rfl, hk, rfl⟩ := hspells
    simp only [Instruction.opcode, step, sample_eq_sampleAt hk]
    rfl
  | radialBlendRatio ramp accuracy b =>
    obtain ⟨rfl, hk, rfl⟩ := hspells
    simp only [Instruction.opcode, step, sample_eq_sampleAt hk]
    rfl
  | linearGradientRatio axis accuracy extend table =>
    obtain ⟨rfl, hk, he, hstops, rfl⟩ := hspells
    simp only [Instruction.opcode, step, sample_eq_sampleAt hk, he, get?_some, pure_bind,
      dispatchGradient_eq_dispatchTable (R := R) hstops]
    rfl
  | radialGradientRatio circles accuracy extend table =>
    obtain ⟨rfl, hk, he, hstops, rfl⟩ := hspells
    simp only [Instruction.opcode, step, sample_eq_sampleAt hk, he, get?_some, pure_bind,
      dispatchGradient_eq_dispatchTable (R := R) hstops]
    rfl
  | barycentricBlend triangle accuracy =>
    obtain ⟨rfl, hk⟩ := hspells
    simp only [Instruction.opcode, step, sample_eq_sampleAt hk]
    rw [← map_triangleAt]
    rfl
  | _ => rfl

end Words

/-! ### Moved registers -/

/-- The flow with its address passed through a function. -/
def Flow.map (f : Nat → Nat) : Flow → Flow
  | .next => .next
  | .jump a => .jump (f a)

end Invocation

/-- The device goes to a known address, if it does not just go on. -/
def KnownFlow (known : Nat → Prop) : Invocation.Flow → Prop
  | .next => True
  | .jump a => known a

/-- The registers with their return addresses passed through a function. -/
def Registers.map (f : Nat → Nat) (r : Registers) : Registers :=
  { r with returns := r.returns.map f }

/-- The second operation does to moved registers what the first one does to registers, moved. -/
def Shifts (f : Nat → Nat) (d : DeviceM β) (view : β → γ) (d' : DeviceM γ) : Prop :=
  ∀ r : Registers, d' (r.map f) = (d r).map (Prod.map view (Registers.map f))

namespace Shifts

variable {f : Nat → Nat}

theorem pure (view : β → γ) (x : β) : Shifts f (pure x) view (pure (view x)) :=
  fun _ ↦ rfl

theorem bind {d : DeviceM β} {d' : DeviceM γ} {view : β → γ} {e : β → DeviceM δ}
    {e' : γ → DeviceM ε} {view' : δ → ε} (h : Shifts f d view d')
    (h' : ∀ x, Shifts f (e x) view' (e' (view x))) : Shifts f (d >>= e) view' (d' >>= e') := by
  intro r
  have hfirst := h r
  rcases hd : d r with - | ⟨x, r'⟩
  · rw [hd] at hfirst
    rw [bind_apply_of_none hd, bind_apply_of_none hfirst]
    rfl
  · rw [hd] at hfirst
    rw [bind_apply_of_some hd, bind_apply_of_some hfirst]
    exact h' x r'

end Shifts

/-- Operations after ones that give the same value. -/
theorem Shifts.then {f : Nat → Nat} {d d' : DeviceM β} {e : β → DeviceM δ} {e' : β → DeviceM ε}
    {view' : δ → ε} (h : Shifts f d id d') (h' : ∀ x, Shifts f (e x) view' (e' x)) :
    Shifts f (d >>= e) view' (d' >>= e') :=
  h.bind h'

namespace Invocation

variable {f : Nat → Nat}

theorem shifts_get? (x : Option β) : Shifts f (get? x) id (get? x) := by
  intro r
  cases x <;> rfl

theorem shifts_pushSingle (v : Vec4 Single) : Shifts f (pushSingle v) id (pushSingle v) := by
  intro r
  by_cases h : r.values.length < deviceStackSize
  · rw [pushSingle, pushSingle, if_pos h]
    exact if_pos h
  · rw [pushSingle, pushSingle, if_neg h]
    exact if_neg h

theorem shifts_popSingle : Shifts f popSingle id popSingle := by
  rintro ⟨- | ⟨v, vs⟩, rs⟩ <;> rfl

theorem shifts_peekSingle : Shifts f peekSingle id peekSingle := by
  rintro ⟨- | ⟨v, vs⟩, rs⟩ <;> rfl

/-- An address that is popped is shifted. -/
theorem shifts_popReturn : Shifts f popReturn f popReturn := by
  rintro ⟨vs, - | ⟨a, rs⟩⟩ <;> rfl

/-- Pushing an address is pushing the shifted one. -/
theorem shifts_pushReturn (a : Nat) : Shifts f (pushReturn a) id (pushReturn (f a)) := by
  intro r
  have hlength : (r.map f).returns.length = r.returns.length := List.length_map ..
  by_cases h : r.returns.length < deviceStackSize
  · rw [pushReturn, pushReturn, if_pos h, hlength, if_pos h]
    rfl
  · rw [pushReturn, pushReturn, if_neg h, hlength, if_neg h]
    rfl

theorem shifts_next : Shifts f (pure Flow.next) (Flow.map f) (pure Flow.next) :=
  .pure _ Flow.next

/-- A jump goes to the shifted address. -/
theorem shifts_jump (a : Nat) :
    Shifts f (pure (Flow.jump a)) (Flow.map f) (pure (Flow.jump (f a))) :=
  .pure _ (Flow.jump a)

variable {R : Type} [Rounding R Single]

theorem shifts_popMany (n : Nat) : Shifts f (popMany (R := R) n) id (popMany n) := by
  intro r
  by_cases h : r.values.length < n
  · rw [popMany, popMany, if_pos h]
    exact if_pos h
  · rw [popMany, popMany, if_neg h]
    exact if_neg h

theorem shifts_push (v : Vec4 R) : Shifts f (push v) id (push v) :=
  shifts_pushSingle _

theorem shifts_pop : Shifts f (pop : DeviceM (Vec4 R)) id pop :=
  shifts_popSingle.then fun _ ↦ .pure id _

theorem shifts_push_next (v : Vec4 R) :
    Shifts f (do push v; return Flow.next) (Flow.map f) (do push v; return Flow.next) :=
  (shifts_push v).then fun _ ↦ shifts_next

variable [ColorModel R]

omit [ColorModel R] in
/-- Changing the topmost value depends on no address. -/
theorem shifts_unary (g : Vec4 R → Vec4 R) : Shifts f (unary g) (Flow.map f) (unary g) :=
  shifts_pop.then fun _ ↦ shifts_push_next _

omit [ColorModel R] in
theorem shifts_sampleAt (ctx : DeviceContext Single) (edges : Array Single) (accuracy : Accuracy) :
    Shifts f (sampleAt (R := R) ctx edges accuracy) id (sampleAt ctx edges accuracy) :=
  (shifts_get? _).then fun _ ↦ .pure id _

/-- A blend dispatches to the shifted addresses. -/
theorem shifts_dispatchBlend (t : R) (places : Branches Nat) :
    Shifts f (dispatchBlend t places) (Flow.map f) (dispatchBlend t (places.map f)) := by
  rw [dispatchBlend, dispatchBlend]
  by_cases h : t ≤ 0
  · rw [if_pos h, if_pos h]
    exact (shifts_pushReturn _).then fun _ ↦ shifts_jump _
  · rw [if_neg h, if_neg h]
    by_cases h' : 1 ≤ t
    · rw [if_pos h', if_pos h']
      exact (shifts_pushReturn _).then fun _ ↦ shifts_jump _
    · rw [if_neg h', if_neg h']
      exact (shifts_push _).then fun _ ↦ (shifts_pushReturn _).then fun _ ↦
        (shifts_pushReturn _).then fun _ ↦ shifts_jump _

omit [ColorModel R] [Rounding R Single] in
/-- The stop of a shifted table is the shifted stop. -/
theorem shifts_stop (table : StopTable Nat) (i : Nat) :
    Shifts f (get? table.stops[i]?) f (get? (table.map f).stops[i]?) := by
  intro r
  rw [StopTable.map, List.getElem?_map]
  cases table.stops[i]? <;> rfl

/-- A gradient dispatches to the shifted addresses. -/
theorem shifts_dispatchTable (table : StopTable Nat) (extend : Extend) (t : Option R) :
    Shifts f (dispatchTable table extend t) (Flow.map f)
      (dispatchTable (table.map f) extend t) := by
  rcases t with - | t
  · exact (shifts_push _).then fun _ ↦ shifts_jump _
  · rw [dispatchTable, dispatchTable]
    simp only [StopTable.map]
    rcases Selection.select (table.ratios.map widen) (extend.apply t) with i | ⟨i, ratio⟩
    · exact (shifts_pushReturn _).then fun _ ↦ (shifts_stop table i).bind shifts_jump
    · exact (shifts_push _).then fun _ ↦ (shifts_pushReturn _).then fun _ ↦
        (shifts_stop table (i + 1)).bind fun _ ↦ (shifts_pushReturn _).then fun _ ↦
          (shifts_stop table i).bind shifts_jump

/-- An effect that is moved is the effect of the instruction with its references moved. -/
theorem shifts_effect (ctx : DeviceContext Single) (edges : Array Single) (i : Instruction Nat) :
    Shifts f (effect (R := R) ctx edges i) (Flow.map f) (effect (R := R) ctx edges (i.map f)) := by
  cases i with
  | exit => exact fun _ ↦ rfl
  | ret => exact shifts_popReturn.bind shifts_jump
  | pushColor color => exact (shifts_pushSingle color).then fun _ ↦ shifts_next
  | opaqueJump place =>
    refine shifts_peekSingle.then fun top ↦ ?_
    by_cases h : isOpaqueAlpha (widen top.w : R) = true
    · rw [if_pos h, if_pos h]
      exact shifts_jump place
    · rw [if_neg h, if_neg h]
      exact shifts_next
  | stackBlend => exact shifts_pop.then fun _ ↦ shifts_pop.then fun _ ↦ shifts_push_next _
  | mix =>
    exact shifts_pop.then fun _ ↦ shifts_pop.then fun _ ↦ shifts_pop.then fun _ ↦ shifts_push_next _
  | blendCompose compose blend =>
    exact shifts_pop.then fun _ ↦ shifts_pop.then fun _ ↦ shifts_push_next _
  | premultiply => exact shifts_unary _
  | unpremultiply => exact shifts_unary _
  | convert conversion => exact shifts_unary _
  | multiplyScalar factor => exact shifts_unary _
  | normalize => exact shifts_unary _
  | filter m => exact shifts_unary _
  | phong shininess lights =>
    exact (shifts_popMany _).then fun _ ↦ (shifts_get? _).then fun _ ↦ shifts_push_next _
  | linearBlendRatio ramp accuracy places =>
    exact (shifts_sampleAt ctx edges accuracy).then fun _ ↦ shifts_dispatchBlend _ places
  | radialBlendRatio ramp accuracy places =>
    exact (shifts_sampleAt ctx edges accuracy).then fun _ ↦ shifts_dispatchBlend _ places
  | linearGradientRatio axis accuracy extend table =>
    exact (shifts_sampleAt ctx edges accuracy).then fun _ ↦ shifts_dispatchTable table extend _
  | radialGradientRatio circles accuracy extend table =>
    exact (shifts_sampleAt ctx edges accuracy).then fun _ ↦ shifts_dispatchTable table extend _
  | barycentricBlend triangle accuracy =>
    exact shifts_pop.then fun _ ↦ shifts_pop.then fun _ ↦ shifts_pop.then fun _ ↦
      (shifts_sampleAt ctx edges accuracy).then fun _ ↦ shifts_push_next _

/-! ### Known addresses -/

/-- From known return addresses, an instruction whose references are known leads to addresses that
are known. -/
theorem known_of_effect {known : Nat → Prop} {ctx : DeviceContext Single} {edges : Array Single}
    {i : Instruction Nat} (hi : ∀ t ∈ i.targets, known t) {r : Registers}
    (hr : ∀ a ∈ r.returns, known a) {flow : Flow} {r' : Registers}
    (h : effect (R := R) ctx edges i r = some (flow, r')) :
    KnownFlow known flow ∧ ∀ a ∈ r'.returns, known a := by
  classical
  -- Known addresses are those that a function leaves alone; it moves neither the instruction nor
  -- the registers, so it does not move what they lead to.
  let f (a : Nat) : Nat := if known a then a else a + 1
  have hfix : ∀ a, f a = a ↔ known a := by
    intro a
    by_cases ha : known a <;> simp [f, ha]
  have hinstruction : i.map f = i :=
    (Instruction.map_congr fun t ht ↦ (hfix t).2 (hi t ht)).trans i.map_id
  have hregisters : r.map f = r := by
    rw [Registers.map, List.map_congr_left fun a ha ↦ (hfix a).2 (hr a ha), List.map_id']
  have hmoved := shifts_effect (R := R) (f := f) ctx edges i r
  rw [hinstruction, hregisters, h] at hmoved
  obtain ⟨hflow, hreturns⟩ := Prod.mk.inj (Option.some.inj hmoved)
  refine ⟨?_, fun a ha ↦ (hfix a).1 ?_⟩
  · cases flow with
    | next => trivial
    | jump a => exact (hfix a).1 (Flow.jump.inj hflow).symm
  · have hmap : r'.returns.map f = r'.returns.map id := by
      rw [List.map_id]
      exact (congrArg Registers.returns hreturns).symm
    exact List.map_inj_left.1 hmap a ha

end Invocation

end Shading
