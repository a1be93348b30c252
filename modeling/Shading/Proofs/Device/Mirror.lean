import Shading.Machine.Executor
import Shading.Proofs.Device.Effects
import Shading.Proofs.Machine.Runs
import Shading.Proofs.Program.Shape

/-!
# Operations of the device and of the host

An operation of the device is mirrored by one of the host if the host fails where the device faults,
and otherwise does the same to stacks that hold the same values, widened, and the indices of the
same addresses (`Mirrors`). Mirroring passes through sequences, so the steps of the two machines are
compared by reading their definitions side by side, first the effects of instructions
(`mirrors_effect`) and then the words that spell them (`mirrors_step`).

Addresses on the return stack stay among those that are known to be boundaries; which ones they are
is a parameter, `known`, and so is the index of an address.
-/

namespace Shading

variable {α β γ δ : Type} {R : Type} [Rounding R Single]

/-- The stacks of the host that stand for registers of the device. -/
def hostStacks (index : Nat → Nat) (r : Registers) : Stacks R :=
  ⟨r.values.map (Vec4.map widen), r.returns.map index⟩

/-- Where the host goes when the device goes somewhere. -/
def hostFlow (index : Nat → Nat) : Invocation.Flow → Flow
  | .next => .next
  | .jump a => .jump (index a)

/-- The host does to stacks what the device does to the registers that they stand for. -/
def Mirrors (known : Nat → Prop) (index : Nat → Nat) (host : StackM R α) (device : DeviceM β)
    (view : β → α) (post : β → Prop) : Prop :=
  ∀ r : Registers, (∀ a ∈ r.returns, known a) →
    match device r with
    | none => ∃ cause, (host (hostStacks index r)).1 = .error cause
    | some (b, r') =>
      host (hostStacks index r) = (.ok (view b), hostStacks index r') ∧
        (∀ a ∈ r'.returns, known a) ∧ post b

section Operations

variable {known : Nat → Prop} {index : Nat → Nat}

theorem mirrors_next :
    Mirrors (R := R) known index (pure Flow.next) (pure Invocation.Flow.next) (hostFlow index)
      (KnownFlow known) :=
  fun _ hr ↦ ⟨rfl, hr, trivial⟩

theorem mirrors_jump {a : Nat} (ha : known a) :
    Mirrors (R := R) known index (pure (Flow.jump (index a))) (pure (Invocation.Flow.jump a))
      (hostFlow index) (KnownFlow known) :=
  fun _ hr ↦ ⟨rfl, hr, ha⟩

theorem Mirrors.bind {host : StackM R α} {device : DeviceM β} {view : β → α} {first : β → Prop}
    {host' : α → StackM R γ} {device' : β → DeviceM δ} {view' : δ → γ} {post : δ → Prop}
    (h : Mirrors known index host device view first)
    (h' : ∀ b, first b → Mirrors known index (host' (view b)) (device' b) view' post) :
    Mirrors known index (host >>= host') (device >>= device') view' post := by
  intro r hr
  have hfirst := h r hr
  rcases hdevice : device r with - | ⟨b, r'⟩
  · rw [hdevice] at hfirst
    obtain ⟨cause, hcause⟩ := hfirst
    rw [bind_apply_of_none hdevice]
    exact ⟨cause, bind_apply_of_error hcause⟩
  · rw [hdevice] at hfirst
    obtain ⟨hhost, hr', hb⟩ := hfirst
    rw [bind_apply_of_some hdevice, bind_apply_of_ok hhost]
    exact h' b hb r' hr'

/-! ### Operations on stacks -/

theorem mirrors_pop :
    Mirrors (R := R) known index Stacks.pop Invocation.pop (fun v ↦ v) (fun _ ↦ True) := by
  rintro ⟨- | ⟨v, vs⟩, rs⟩ hr
  · exact ⟨_, rfl⟩
  · exact ⟨rfl, hr, trivial⟩

theorem mirrors_peek :
    Mirrors (R := R) known index Stacks.peek Invocation.peekSingle (Vec4.map widen)
      (fun _ ↦ True) := by
  rintro ⟨- | ⟨v, vs⟩, rs⟩ hr
  · exact ⟨_, rfl⟩
  · exact ⟨rfl, hr, trivial⟩

/-- A known address is popped where its index is. -/
theorem mirrors_popReturn :
    Mirrors (R := R) known index Stacks.popReturn Invocation.popReturn index known := by
  rintro ⟨vs, - | ⟨a, rs⟩⟩ hr
  · exact ⟨_, rfl⟩
  · obtain ⟨ha, hrs⟩ := List.forall_mem_cons.1 hr
    exact ⟨rfl, hrs, ha⟩

/-- Pushing a known address is pushing its index. -/
theorem mirrors_pushReturn {a : Nat} (ha : known a) :
    Mirrors (R := R) known index (Stacks.pushReturn {} (index a)) (Invocation.pushReturn a)
      (fun _ ↦ ()) (fun _ ↦ True) := by
  intro r hr
  by_cases h : r.returns.length < deviceStackSize
  · have hhost : (hostStacks index r : Stacks R).returns.length < ({} : Limits).returnDepth := by
      rw [hostStacks, List.length_map]
      exact h
    rw [Invocation.pushReturn, if_pos h]
    exact ⟨Machine.pushReturn_of_lt hhost _, List.forall_mem_cons.2 ⟨ha, hr⟩, trivial⟩
  · have hhost : ¬ (hostStacks index r : Stacks R).returns.length < ({} : Limits).returnDepth := by
      rw [hostStacks, List.length_map]
      exact h
    rw [Invocation.pushReturn, if_neg h, Stacks.pushReturn, if_neg hhost]
    exact ⟨_, rfl⟩

variable {env : Environment R}

/-- Pushing a value of the host whose kept form is a given single precision value. -/
theorem mirrors_pushSingle {v : Vec4 R} {s : Vec4 Single} (hkeep : env.keep v = s.map widen) :
    Mirrors known index (Machine.push {} env v) (Invocation.pushSingle s) (fun _ ↦ ())
      (fun _ ↦ True) := by
  intro r hr
  by_cases h : r.values.length < deviceStackSize
  · have hhost : (hostStacks index r : Stacks R).values.length < ({} : Limits).stackDepth := by
      rw [hostStacks, List.length_map]
      exact h
    rw [Invocation.pushSingle, if_pos h]
    refine ⟨?_, hr, trivial⟩
    rw [show Machine.push {} env v (hostStacks index r) = _ from Machine.push_of_lt hhost v, hkeep]
    rfl
  · have hhost : ¬ (hostStacks index r : Stacks R).values.length < ({} : Limits).stackDepth := by
      rw [hostStacks, List.length_map]
      exact h
    rw [Invocation.pushSingle, if_neg h, Machine.push, Stacks.push, if_neg hhost]
    exact ⟨_, rfl⟩

/-- A value is kept as it comes back from being rounded. -/
def KeepsRounded (env : Environment R) : Prop :=
  ∀ v, env.keep v = (v.map narrow : Vec4 Single).map widen

/-- A value is pushed on both sides, rounded alike. -/
theorem mirrors_push (hkeep : KeepsRounded env) (v : Vec4 R) :
    Mirrors known index (Machine.push {} env v) (Invocation.push v) (fun _ ↦ ())
      (fun _ ↦ True) :=
  mirrors_pushSingle (hkeep v)

theorem mirrors_push_next (hkeep : KeepsRounded env) (v : Vec4 R) :
    Mirrors known index (do Machine.push {} env v; return Flow.next)
      (do Invocation.push v; return Invocation.Flow.next) (hostFlow index) (KnownFlow known) :=
  (mirrors_push hkeep v).bind fun _ _ ↦ mirrors_next

/-- The topmost value is changed on both sides. -/
theorem mirrors_unary (hkeep : KeepsRounded env) (f : Vec4 R → Vec4 R) :
    Mirrors known index (Machine.unary {} env f) (Invocation.unary f) (hostFlow index)
      (KnownFlow known) :=
  mirrors_pop.bind fun v _ ↦ mirrors_push_next hkeep (f v)

variable [ColorModel R]

/-! ### Dispatch -/

/-- A blend dispatches to known addresses where it dispatches to their indices. -/
theorem mirrors_dispatchBlend (hkeep : KeepsRounded env) (t : R) {places : Branches Nat}
    (hknown : ∀ a ∈ places.targets, known a) :
    Mirrors known index (Machine.dispatchBlend {} env t (places.map index))
      (Invocation.dispatchBlend t places) (hostFlow index) (KnownFlow known) := by
  simp only [Branches.targets, List.forall_mem_cons] at hknown
  obtain ⟨hzero, hone, hblend, hdone, -⟩ := hknown
  rw [Machine.dispatchBlend, Invocation.dispatchBlend]
  by_cases h : t ≤ 0
  · rw [if_pos h, if_pos h]
    exact (mirrors_pushReturn hdone).bind fun _ _ ↦ mirrors_jump hzero
  · rw [if_neg h, if_neg h]
    by_cases h' : 1 ≤ t
    · rw [if_pos h', if_pos h']
      exact (mirrors_pushReturn hdone).bind fun _ _ ↦ mirrors_jump hone
    · rw [if_neg h', if_neg h']
      exact (mirrors_push hkeep _).bind fun _ _ ↦ (mirrors_pushReturn hblend).bind fun _ _ ↦
        (mirrors_pushReturn hone).bind fun _ _ ↦ mirrors_jump hzero

omit [ColorModel R] in
/-- The stop of a table of known addresses has its index in the other table. -/
theorem mirrors_stop {table : StopTable Nat} (hknown : ∀ a ∈ table.stops, known a) (i : Nat) :
    Mirrors (R := R) known index (Machine.stopAt (table.map index) i)
      (Invocation.get? table.stops[i]?) index known := by
  intro r hr
  rw [Machine.stopAt, StopTable.map, List.getElem?_map]
  rcases hstop : table.stops[i]? with - | a
  · exact ⟨_, rfl⟩
  · exact ⟨rfl, hr, hknown a (List.mem_of_getElem? hstop)⟩

/-- A gradient dispatches to known addresses where it dispatches to their indices. -/
theorem mirrors_dispatchTable (hkeep : KeepsRounded env) {table : StopTable Nat}
    (hknown : ∀ a ∈ table.targets, known a) (extend : Extend) (t : Option R) :
    Mirrors known index (Machine.dispatchGradient {} env t extend (table.map index))
      (Invocation.dispatchTable table extend t) (hostFlow index) (KnownFlow known) := by
  simp only [StopTable.targets, List.forall_mem_append, List.forall_mem_cons] at hknown
  obtain ⟨hstop, hblend, hdone, -⟩ := hknown
  rcases t with - | t
  · exact (mirrors_push hkeep _).bind fun _ _ ↦ mirrors_jump hdone
  · simp only [Machine.dispatchGradient, Invocation.dispatchTable,
      show (table.map index).ratios = table.ratios from rfl]
    rcases Selection.select (table.ratios.map widen) (extend.apply t) with i | ⟨i, ratio⟩
    · exact (mirrors_pushReturn hdone).bind fun _ _ ↦ (mirrors_stop hstop i).bind fun _ ↦
        mirrors_jump
    · exact (mirrors_push hkeep _).bind fun _ _ ↦ (mirrors_pushReturn hblend).bind fun _ _ ↦
        (mirrors_stop hstop (i + 1)).bind fun _ ha ↦ (mirrors_pushReturn ha).bind fun _ _ ↦
          (mirrors_stop hstop i).bind fun _ ↦ mirrors_jump

/-! ### Instructions -/

/-- Lighting takes the same inputs on both sides. -/
theorem mirrors_light (hkeep : KeepsRounded env) (shininess : R) (lights : Nat) :
    Mirrors known index (Machine.light {} env shininess lights)
      (do
        let inputs : List (Vec4 R) ← Invocation.popMany (5 + 2 * lights)
        let value : Vec4 R ← Invocation.get? (phong? shininess inputs)
        Invocation.push value
        return Invocation.Flow.next) (hostFlow index) (KnownFlow known) := by
  intro r hr
  have hlength : (hostStacks index r : Stacks R).values.length = r.values.length :=
    List.length_map ..
  rw [Machine.light, bind_apply_of_ok (x := (get : StackM R (Stacks R)))
    (a := hostStacks index r) (t := hostStacks index r) rfl]
  by_cases henough : r.values.length < 5 + 2 * lights
  · have hpop : Invocation.popMany (R := R) (5 + 2 * lights) r = none := if_pos henough
    rw [bind_apply_of_none hpop]
    simp only [hlength, if_pos henough]
    exact ⟨_, rfl⟩
  -- The host pops the same values one by one, and gets them in the same order.
  · let inputs : List (Vec4 R) := (r.values.take (5 + 2 * lights)).reverse.map (Vec4.map widen)
    let rest : Registers := { r with values := r.values.drop (5 + 2 * lights) }
    have hpop : Invocation.popMany (5 + 2 * lights) r = some (inputs, rest) := if_neg henough
    have hcount : inputs.length = 5 + 2 * lights := by
      simp only [inputs, List.length_map, List.length_reverse, List.length_take]
      omega
    have hstacks : hostStacks index r = ⟨inputs.reverse ++ (hostStacks index rest).values,
        (hostStacks index rest : Stacks R).returns⟩ := by
      rw [hostStacks, hostStacks, ← List.map_reverse, List.reverse_reverse, ← List.map_append,
        List.take_append_drop]
    have hhost : Stacks.popMany (5 + 2 * lights) (hostStacks index r) =
        (.ok inputs, hostStacks index rest) := by
      rw [hstacks, ← hcount]
      exact Machine.popMany_reverse inputs
    obtain ⟨v, hv⟩ := exists_phong shininess (by omega : 5 ≤ inputs.length)
    rw [bind_apply_of_some hpop]
    simp only [hlength, if_neg henough]
    rw [bind_apply_of_ok hhost, hv]
    exact mirrors_push_next hkeep v rest hr

/-- The host samples where the device does. -/
def SamplesAs (env : Environment R) (ctx : DeviceContext Single) (edges : Array Single) : Prop :=
  ∀ accuracy, ∃ p, ctx.samplePoint? edges accuracy = some p ∧ env.sample accuracy = p.map widen

omit [ColorModel R] in
/-- Both sides sample at the same point. -/
theorem sampleAt_eq_pure {ctx : DeviceContext Single} {edges : Array Single}
    (hsample : SamplesAs env ctx edges) (accuracy : Accuracy) :
    Invocation.sampleAt ctx edges accuracy = pure (env.sample accuracy) := by
  obtain ⟨p, hp, henv⟩ := hsample accuracy
  rw [Invocation.sampleAt, hp, henv]
  rfl

/-- The host executes an instruction to the effect that it has on the device. -/
theorem mirrors_effect (hround : ∀ s : Single, narrow (widen s : R) = s)
    (hkeep : KeepsRounded env) {ctx : DeviceContext Single} {edges : Array Single}
    (hsample : SamplesAs env ctx edges) {i : Instruction Nat} (hne : i ≠ .exit)
    (hknown : ∀ t ∈ i.targets, known t) :
    Mirrors known index (Machine.step {} env (i.map index))
      (Invocation.effect (R := R) ctx edges i) (hostFlow index) (KnownFlow known) := by
  cases i with
  | exit => exact absurd rfl hne
  | ret => exact mirrors_popReturn.bind fun _ h ↦ mirrors_jump h
  | pushColor color =>
    have hkept : env.keep (color.map widen) = color.map widen := by
      rw [hkeep, Vec4.map_map, Vec4.map_map]
      simp only [hround]
    exact (mirrors_pushSingle hkept).bind fun _ _ ↦ mirrors_next
  | opaqueJump t =>
    refine mirrors_peek.bind fun v _ ↦ ?_
    by_cases h : isOpaqueAlpha (widen v.w : R) = true
    · rw [if_pos h, show isOpaqueAlpha (v.map (widen (R := R))).w = true from h, if_pos rfl]
      exact mirrors_jump (hknown _ (List.mem_singleton_self _))
    · rw [if_neg h, if_neg (show ¬ isOpaqueAlpha (v.map (widen (R := R))).w = true from h)]
      exact mirrors_next
  | stackBlend =>
    exact mirrors_pop.bind fun _ _ ↦ mirrors_pop.bind fun _ _ ↦ mirrors_push_next hkeep _
  | mix =>
    exact mirrors_pop.bind fun _ _ ↦ mirrors_pop.bind fun _ _ ↦ mirrors_pop.bind fun _ _ ↦
      mirrors_push_next hkeep _
  | blendCompose compose blend =>
    exact mirrors_pop.bind fun _ _ ↦ mirrors_pop.bind fun _ _ ↦ mirrors_push_next hkeep _
  | premultiply => exact mirrors_unary hkeep _
  | unpremultiply => exact mirrors_unary hkeep _
  | convert conversion => exact mirrors_unary hkeep _
  | multiplyScalar factor => exact mirrors_unary hkeep _
  | normalize => exact mirrors_unary hkeep _
  | filter m => exact mirrors_unary hkeep _
  | phong shininess lights => exact mirrors_light hkeep _ _
  | linearBlendRatio ramp accuracy b =>
    simp only [Invocation.effect, sampleAt_eq_pure hsample, pure_bind]
    exact mirrors_dispatchBlend hkeep _ hknown
  | radialBlendRatio ramp accuracy b =>
    simp only [Invocation.effect, sampleAt_eq_pure hsample, pure_bind]
    exact mirrors_dispatchBlend hkeep _ hknown
  | linearGradientRatio axis accuracy extend table =>
    simp only [Invocation.effect, sampleAt_eq_pure hsample, pure_bind]
    exact mirrors_dispatchTable hkeep hknown extend _
  | radialGradientRatio circles accuracy extend table =>
    simp only [Invocation.effect, sampleAt_eq_pure hsample, pure_bind]
    exact mirrors_dispatchTable hkeep hknown extend _
  | barycentricBlend triangle accuracy =>
    simp only [Invocation.effect, sampleAt_eq_pure hsample, pure_bind]
    exact mirrors_pop.bind fun _ _ ↦ mirrors_pop.bind fun _ _ ↦ mirrors_pop.bind fun _ _ ↦
      mirrors_push_next hkeep _

/-- The host executes an instruction as the device executes the words that spell it. -/
theorem mirrors_step (hround : ∀ s : Single, narrow (widen s : R) = s) (hkeep : KeepsRounded env)
    {ctx : DeviceContext Single} {edges : Array Single} (hsample : SamplesAs env ctx edges)
    {word : Nat → UInt32} {a : Nat} {i : Instruction Nat} (hspells : Spells word a i)
    (hne : i ≠ .exit) (hknown : ∀ t ∈ i.targets, known t) :
    Mirrors known index (Machine.step {} env (i.map index))
      (Invocation.step (R := R) word ctx edges a (word a) i.opcode) (hostFlow index)
      (KnownFlow known) := by
  rw [Invocation.step_eq_effect hspells]
  exact mirrors_effect hround hkeep hsample hne hknown

end Operations

end Shading
