import Mathlib.Algebra.BigOperators.Group.List.Basic
import Mathlib.Algebra.Ring.Nat
import Mathlib.Order.WellFounded
import Shading.Proofs.Code.Linking
import Shading.Proofs.Machine.Runs

/-!
# Linked code comes to an end

Linking refuses jumps that do not go forward, but returns go back, to addresses that were put down
before, and a dispatch puts down two of them, each of which may dispatch again. So neither the index
nor the depth of the return stack decreases. What decreases is the weight of all addresses that are
still to be executed from, the index and the pending returns: an address weighs more than three that
lie behind it (`weight_mul_lt`), which is as many as one instruction puts in its place.

What an instruction does to control is said once, in `Moves`, and proved of `step` by composing it
from the operations on the stacks (`Steers`). It does not mention values, so the argument holds for
every arithmetic, every environment and every limits.
-/

namespace Shading

open Machine

variable {R : Type}

/-! ### What instructions do to control -/

/-- How control goes on from an instruction with the given targets when the given returns are
pending, and which returns are pending then: with the next instruction, at the address that was put
down last, or at a target, after up to two more of the targets have been put down. -/
inductive Moves (targets returns : List Nat) : Flow → List Nat → Prop
  | next : Moves targets returns .next returns
  | back {address : Nat} {rest : List Nat} :
    returns = address :: rest → Moves targets returns (.jump address) rest
  | call {target : Nat} {pending : List Nat} :
    target ∈ targets → pending ⊆ targets → pending.length ≤ 2 →
      Moves targets returns (.jump target) (pending ++ returns)
  | halt : Moves targets returns .halt returns

/-- An operation leaves the return stack as it is, also when it fails. -/
def Neutral {α : Type} (x : StackM R α) : Prop :=
  ∀ s : Stacks R, (x s).2.returns = s.returns

namespace Neutral

variable {α β : Type} {limits : Limits}

theorem pure (a : α) : Neutral (Pure.pure a : StackM R α) := fun _ ↦ rfl

theorem get : Neutral (MonadState.get : StackM R (Stacks R)) := fun _ ↦ rfl

theorem push (env : Environment R) (value : Vec4 R) : Neutral (Machine.push limits env value) := by
  intro s
  show (if s.values.length < limits.stackDepth then _ else _ : _ × Stacks R).2.returns = _
  split <;> rfl

theorem pop : Neutral (Stacks.pop : StackM R (Vec4 R)) := by
  rintro ⟨- | ⟨value, rest⟩, returns⟩ <;> rfl

theorem peek : Neutral (Stacks.peek : StackM R (Vec4 R)) := by
  rintro ⟨- | ⟨value, rest⟩, returns⟩ <;> rfl

theorem bind {x : StackM R α} {f : α → StackM R β} (hx : Neutral x) (hf : ∀ a, Neutral (f a)) :
    Neutral (x >>= f) :=
  fun s ↦ bind_apply_snd (P := fun t : Stacks R ↦ t.returns = s.returns) (hx s) fun a ↦
    (hf a (x s).2).trans (hx s)

theorem popMany (n : Nat) : Neutral (Stacks.popMany n : StackM R (List (Vec4 R))) := by
  induction n with
  | zero => exact .pure []
  | succ n ih => exact pop.bind fun _ ↦ ih.bind fun _ ↦ .pure _

end Neutral

/-- An operation, started after the given ones of the targets have been put down, ends in a move
that the instruction may make. -/
def Steers (targets pending : List Nat) (x : StackM R Flow) : Prop :=
  ∀ (s t : Stacks R) (returns : List Nat) (flow : Flow), s.returns = pending ++ returns →
    x s = (.ok flow, t) → Moves targets returns flow t.returns

namespace Steers

variable {limits : Limits} {env : Environment R} {targets pending : List Nat} {α : Type}

theorem next : Steers targets [] (return .next : StackM R Flow) := by
  rintro s t returns flow hs ⟨⟩
  rw [hs]
  exact .next

theorem halt : Steers targets [] (return .halt : StackM R Flow) := by
  rintro s t returns flow hs ⟨⟩
  rw [hs]
  exact .halt

/-- A jump goes to a target, with up to two others put down. -/
theorem jump {target : Nat} (h : target ∈ targets) (hp : pending ⊆ targets)
    (two : pending.length ≤ 2) : Steers targets pending (return .jump target : StackM R Flow) := by
  rintro s t returns flow hs ⟨⟩
  rw [hs]
  exact .call h hp two

theorem fail (cause : ExecutionError) :
    Steers targets pending (Stacks.fail cause : StackM R Flow) := by
  rintro s t returns flow hs ⟨⟩

theorem bind {x : StackM R α} {f : α → StackM R Flow} (hx : Neutral x)
    (hf : ∀ a, Steers targets pending (f a)) : Steers targets pending (x >>= f) := by
  intro s t returns flow hs h
  obtain ⟨a, u, hxu, hfu⟩ := bind_apply_eq_ok_iff.1 h
  have hu : u.returns = s.returns := by
    have := hx s
    rwa [hxu] at this
  exact hf a u t returns flow (hu.trans hs) hfu

/-- What follows an address put down. -/
theorem pushReturn {address : Nat} {f : Unit → StackM R Flow}
    (hf : Steers targets (address :: pending) (f ())) :
    Steers targets pending (Stacks.pushReturn limits address >>= f) := by
  intro s t returns flow hs h
  obtain ⟨⟨⟩, u, hpush, hfu⟩ := bind_apply_eq_ok_iff.1 h
  by_cases room : s.returns.length < limits.returnDepth
  · cases (pushReturn_of_lt room address).symm.trans hpush
    exact hf _ t returns flow (congrArg (address :: ·) hs) hfu
  · rw [show Stacks.pushReturn limits address s = _ from if_neg room] at hpush
    cases hpush

/-- The place of a stop is one of the targets of the table. -/
theorem stopAt {table : StopTable Nat} {i : Nat} {f : Nat → StackM R Flow}
    (hf : ∀ target ∈ table.targets, Steers targets pending (f target)) :
    Steers targets pending (Machine.stopAt table i >>= f) := by
  rw [Machine.stopAt]
  cases hstop : table.stops[i]? with
  | none =>
    intro s t returns flow _ h
    cases h
  | some target => exact hf target (List.mem_append_left _ (List.mem_of_getElem? hstop))

theorem push_next (value : Vec4 R) :
    Steers targets [] (do Machine.push limits env value; return Flow.next : StackM R Flow) :=
  bind (.push env value) fun _ ↦ next

theorem unary (f : Vec4 R → Vec4 R) : Steers targets [] (Machine.unary limits env f) :=
  bind .pop fun value ↦ push_next (f value)

/-- A return goes back to the address that was put down last. -/
theorem ret : Steers targets []
    (do return .jump (← Stacks.popReturn) : StackM R Flow) := by
  rintro ⟨values, - | ⟨address, rest⟩⟩ t returns flow hs h
  · cases h
  · cases h
    exact .back hs.symm

variable [ColorModel R]

/-- A blend calls one or two of its branches. -/
theorem dispatchBlend (t : R) (branches : Branches Nat) :
    Steers branches.targets [] (Machine.dispatchBlend limits env t branches) := by
  rw [Machine.dispatchBlend]
  split_ifs
  · exact pushReturn (jump (by simp [Branches.targets]) (by simp [Branches.targets]) (by simp))
  · exact pushReturn (jump (by simp [Branches.targets]) (by simp [Branches.targets]) (by simp))
  · exact bind (.push env _) fun _ ↦ pushReturn <| pushReturn <|
      jump (by simp [Branches.targets]) (by simp [Branches.targets]) (by simp)

theorem light (shininess : R) (lights : Nat) :
    Steers targets [] (Machine.light limits env shininess lights) := by
  refine bind .get fun s ↦ ?_
  dsimp only
  split
  · exact fail _
  · refine bind (.popMany _) fun inputs ↦ ?_
    cases phong? shininess inputs with
    | none => exact fail _
    | some value => exact push_next value

variable [Rounding R Single]

/-- A gradient calls one or two of its stops, or goes on behind them. -/
theorem dispatchGradient (t : Option R) (extend : Extend) (table : StopTable Nat) :
    Steers table.targets [] (Machine.dispatchGradient limits env t extend table) := by
  have hdone : table.done ∈ table.targets := by simp [StopTable.targets]
  have hblend : table.blend ∈ table.targets := by simp [StopTable.targets]
  cases t with
  | none => exact bind (.push env _) fun _ ↦ jump hdone (List.nil_subset _) (Nat.zero_le _)
  | some t =>
    rw [Machine.dispatchGradient]
    cases Selection.select (table.ratios.map widen) (extend.apply t) with
    | single i =>
      refine pushReturn <| stopAt fun target htarget ↦ jump htarget ?_ (Nat.le_succ 1)
      exact List.cons_subset.2 ⟨hdone, List.nil_subset _⟩
    | between i ratio =>
      refine bind (.push env _) fun _ ↦ pushReturn <| stopAt fun second hsecond ↦
        pushReturn <| stopAt fun first hfirst ↦ jump hfirst ?_ (Nat.le_refl 2)
      exact List.cons_subset.2 ⟨hsecond, List.cons_subset.2 ⟨hblend, List.nil_subset _⟩⟩

/-- Control moves on from an instruction as its targets allow. -/
theorem step (i : Instruction Nat) : Steers i.targets [] (Machine.step limits env i) := by
  cases i with
  | exit => exact halt
  | ret => exact ret
  | pushColor color => exact push_next _
  | opaqueJump target =>
    refine bind .peek fun (top : Vec4 R) ↦ ?_
    split_ifs
    · exact jump (List.mem_singleton_self target) (List.nil_subset _) (Nat.zero_le _)
    · exact next
  | stackBlend => exact bind .pop fun _ ↦ bind .pop fun _ ↦ push_next _
  | mix => exact bind .pop fun _ ↦ bind .pop fun _ ↦ bind .pop fun _ ↦ push_next _
  | blendCompose compose blend => exact bind .pop fun _ ↦ bind .pop fun _ ↦ push_next _
  | premultiply => exact unary _
  | unpremultiply => exact unary _
  | convert conversion => exact unary _
  | multiplyScalar factor => exact unary _
  | normalize => exact unary _
  | filter m => exact unary _
  | phong shininess lights => exact light _ lights
  | linearBlendRatio ramp accuracy branches => exact dispatchBlend _ branches
  | radialBlendRatio ramp accuracy branches => exact dispatchBlend _ branches
  | linearGradientRatio axis accuracy extend table =>
    exact dispatchGradient (some ((axis.map widen).ratio (env.sample accuracy))) extend table
  | radialGradientRatio circles accuracy extend table => exact dispatchGradient _ extend table
  | barycentricBlend triangle accuracy =>
    exact bind .pop fun _ ↦ bind .pop fun _ ↦ bind .pop fun _ ↦ push_next _

end Steers

/-! ### The weight of what is still to be executed -/

/-- The weight of an address of code of the given size. -/
def addressWeight (size address : Nat) : Nat := 4 ^ (size - address)

/-- Every address has a weight, also behind the code. -/
theorem addressWeight_pos (size address : Nat) : 0 < addressWeight size address :=
  Nat.pow_pos (by decide)

/-- An address within the code weighs four times what lies behind it. -/
theorem mul_addressWeight_le {size address target : Nat} (h : address < size)
    (ahead : address < target) : 4 * addressWeight size target ≤ addressWeight size address := by
  rw [addressWeight, addressWeight, ← Nat.pow_succ']
  exact Nat.pow_le_pow_right (by decide) (by omega)

/-- The weight of an index and the pending returns. -/
def controlWeight (size : Nat) (control : Nat × List Nat) : Nat :=
  addressWeight size control.1 + (control.2.map (addressWeight size)).sum

/-- Up to two addresses behind another one, and one more, weigh less than that. -/
theorem addressWeight_add_sum_lt {size address target : Nat} {pending : List Nat}
    (h : address < size) (ahead : ∀ a ∈ target :: pending, address < a)
    (two : pending.length ≤ 2) :
    addressWeight size target + (pending.map (addressWeight size)).sum <
      addressWeight size address := by
  have hpos := addressWeight_pos size target
  have htarget := mul_addressWeight_le h (ahead target List.mem_cons_self)
  have hpending : ∀ a ∈ pending, 4 * addressWeight size a ≤ addressWeight size address :=
    fun a ha ↦ mul_addressWeight_le h (ahead a (List.mem_cons_of_mem _ ha))
  match pending, two, hpending with
  | [], _, _ => simp only [List.map_nil, List.sum_nil]; omega
  | [a], _, hpending =>
    have := hpending a (by simp)
    simp only [List.map_cons, List.map_nil, List.sum_cons, List.sum_nil]
    omega
  | [a, b], _, hpending =>
    have := hpending a (by simp)
    have := hpending b (by simp)
    simp only [List.map_cons, List.map_nil, List.sum_cons, List.sum_nil]
    omega

/-- A move takes weight away, and more than nothing is left to it. -/
theorem Moves.weight_lt {targets returns returns' : List Nat} {flow : Flow} {size index : Nat}
    (h : Moves targets returns flow returns') (inside : index < size)
    (ahead : ∀ target ∈ targets, index < target) :
    match flow with
    | .next => controlWeight size (index + 1, returns') < controlWeight size (index, returns)
    | .jump target => controlWeight size (target, returns') < controlWeight size (index, returns)
    | .halt => True := by
  cases h with
  | next =>
    have := addressWeight_pos size (index + 1)
    have := mul_addressWeight_le inside (Nat.lt_add_one index)
    simp only [controlWeight]
    omega
  | back hreturns =>
    have := addressWeight_pos size index
    simp only [controlWeight, hreturns, List.map_cons, List.sum_cons]
    omega
  | @call target pending htarget hpending two =>
    have := addressWeight_add_sum_lt inside (List.forall_mem_cons.2
      ⟨ahead target htarget, fun a ha ↦ ahead a (hpending ha)⟩) two
    simp only [controlWeight, List.map_append, List.sum_append]
    omega
  | halt => trivial

/-! ### Linked code -/

/-- The addresses that the instructions of linked code refer to lie behind them. -/
def Linked.Forward (program : Linked) : Prop :=
  ∀ (index : Nat) (i : Instruction Nat), program.code[index]? = some i →
    ∀ target ∈ i.targets, index < target

/-- In linked code all targets lie ahead. -/
theorem forward_of_link {lines : List Line} {program : Linked} (h : link lines = .ok program) :
    program.Forward := by
  obtain ⟨-, ahead, rfl⟩ := link_eq_ok_iff.1 h
  intro index j hj target htarget
  rw [List.getElem?_toArray, List.getElem?_map, Option.map_eq_some_iff] at hj
  obtain ⟨i, hi, rfl⟩ := hj
  rw [Instruction.targets_map] at htarget
  obtain ⟨l, hl, rfl⟩ := List.mem_map.1 htarget
  obtain ⟨place, hplace, hlt⟩ := (Line.ahead_iff_lt_positionOf 0).1 ahead index i hi l hl
  rw [resolveIn, hplace, Option.getD_some]
  omega

/-! ### Every execution ends -/

namespace Machine

variable [ColorModel R] [Rounding R Single]
variable {limits : Limits} {env : Environment R} {program : Linked}

/-- The machine does not go on from a state: it halts there, or it fails. -/
inductive Stops (limits : Limits) (env : Environment R) (program : Linked) (s : State R) :
    Except ExecutionError (Stacks R) → Prop
  | halted {store : Stacks R} :
    advance limits env program s = .halted store → Stops limits env program s (.ok store)
  | failed {cause : ExecutionError} :
    advance limits env program s = .failed cause → Stops limits env program s (.error cause)

/-- The index and the pending returns of a state. -/
def State.control (s : State R) : Nat × List Nat := (s.index, s.store.returns)

/-- A step takes weight away. -/
theorem controlWeight_lt_of_advance (forward : program.Forward) {s s' : State R}
    (h : advance limits env program s = .running s') :
    controlWeight program.code.size s'.control < controlWeight program.code.size s.control := by
  rw [advance] at h
  split at h
  · cases h
  next i hi =>
    have inside : s.index < program.code.size := (Array.getElem?_eq_some_iff.1 hi).1
    have hsteers : Steers i.targets [] (step limits env i) := Steers.step i
    rcases hstep : step limits env i s.store with ⟨cause | flow, store⟩
    · rw [hstep] at h
      cases h
    · have hmoves := hsteers s.store store s.store.returns flow rfl hstep
      have hlt := hmoves.weight_lt inside (forward _ i hi)
      rw [hstep] at h
      cases flow with
      | next => cases h; exact hlt
      | jump index => cases h; exact hlt
      | halt => cases h

variable (R) in
/-- One control state comes after another: for some values on the stack, in some environment and
within some limits, the machine steps from this to that. -/
def Follows (program : Linked) (after before : Nat × List Nat) : Prop :=
  ∃ (limits : Limits) (env : Environment R) (s s' : State R),
    advance limits env program s = .running s' ∧ s.control = before ∧ s'.control = after

/-- No state is followed by others for ever. -/
theorem wellFounded_follows (forward : program.Forward) : WellFounded (Follows R program) := by
  refine Subrelation.wf ?_ (measure (controlWeight program.code.size)).wf
  rintro after before ⟨limits, env, s, s', h, rfl, rfl⟩
  exact controlWeight_lt_of_advance forward h

/-- From every state the machine gets to one where it stops. -/
theorem exists_stops (forward : program.Forward) (limits : Limits) (env : Environment R)
    (s : State R) :
    ∃ visited last answer, Runs limits env program s visited last ∧
      Stops limits env program last answer := by
  generalize hcontrol : s.control = control
  induction control using (wellFounded_follows (R := R) forward).induction generalizing s with
  | _ control ih =>
    cases h : advance limits env program s with
    | running s' =>
      obtain ⟨visited, last, answer, hruns, hstops⟩ :=
        ih s'.control ⟨limits, env, s, s', h, hcontrol, rfl⟩ s' rfl
      exact ⟨_, last, answer, .step h hruns, hstops⟩
    | halted store => exact ⟨[], s, _, .refl s, .halted h⟩
    | failed cause => exact ⟨[], s, _, .refl s, .failed h⟩

/-- A bounded execution that gets to where the machine stops gives the answer found there. -/
theorem run_of_stops {s last : State R} {visited : List Nat}
    {answer : Except ExecutionError (Stacks R)} (hruns : Runs limits env program s visited last)
    (hstops : Stops limits env program last answer) {fuel : Nat} (enough : visited.length < fuel) :
    run limits env program fuel s = answer := by
  obtain ⟨rest, rfl⟩ := Nat.exists_eq_add_of_lt enough
  rw [Nat.add_assoc, run_of_runs hruns, run]
  cases hstops with
  | halted h => rw [h]
  | failed h => rw [h]

/-- Code that can be linked is executed to an end, whatever the arithmetic, the environment, the
limits on the stacks and the state to start from. Its control states cannot follow one another
forever, so without a cap on the iterations the machine halts or fails after finitely many steps,
and any cap beyond these makes no difference. -/
theorem terminates_of_link {lines : List Line} {program : Linked} (h : link lines = .ok program) :
    WellFounded (Follows R program) ∧
      ∀ (limits : Limits) (env : Environment R) (s : State R),
        ∃ visited last answer, Runs limits env program s visited last ∧
          Stops limits env program last answer ∧
            ∀ fuel, visited.length < fuel → run limits env program fuel s = answer := by
  have forward := forward_of_link h
  refine ⟨wellFounded_follows forward, fun limits env s ↦ ?_⟩
  obtain ⟨visited, last, answer, hruns, hstops⟩ := exists_stops forward limits env s
  exact ⟨visited, last, answer, hruns, hstops, fun fuel ↦ run_of_stops hruns hstops⟩

/-- A blend whose sides are called one after the other, so that returns go back and forth. -/
def blendLines : List Line :=
  [.op (.linearBlendRatio ⟨⟨⟨0x3f800000⟩, ⟨0⟩⟩, ⟨0⟩⟩ .splitCentroid ⟨0, 1, 2, 3⟩),
    .mark 0, .op (.pushColor (.splat ⟨0⟩)), .op .ret,
    .mark 1, .op (.pushColor (.splat ⟨0x3f800000⟩)), .op .ret,
    .mark 2, .op .mix, .mark 3, .op .exit]

/-- The code that these lines are linked to. -/
def blendCode : Linked where
  code :=
    #[.linearBlendRatio ⟨⟨⟨0x3f800000⟩, ⟨0⟩⟩, ⟨0⟩⟩ .splitCentroid ⟨1, 3, 5, 6⟩,
      .pushColor (.splat ⟨0⟩), .ret, .pushColor (.splat ⟨0x3f800000⟩), .ret, .mix, .exit]

theorem terminates_blendLines :
    link blendLines = .ok blendCode ∧ WellFounded (Follows Float blendCode) ∧
      ∀ (limits : Limits) (env : Environment Float) (s : State Float),
        ∃ visited last answer, Runs limits env blendCode s visited last ∧
          Stops limits env blendCode last answer ∧
            ∀ fuel, visited.length < fuel → run limits env blendCode fuel s = answer :=
  have linked : link blendLines = .ok blendCode := rfl
  ⟨linked, terminates_of_link linked⟩

end Machine

end Shading
