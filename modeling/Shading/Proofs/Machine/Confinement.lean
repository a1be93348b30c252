import Shading.Proofs.Machine.Runs

/-!
# Stacks within their limits

No operation leaves a stack deeper than its limit, whether it succeeds or fails (`Confines`), so
neither does an instruction, and stacks that start within the limits stay there for as long as the
machine runs (`Runs.confined`). That says nothing of a run that has to fail for lack of room; that
a run goes on from every state it reaches is read off a run that is known to halt, of which every
other run from the same state is a beginning (`Runs.resume`).
-/

namespace Shading

open Machine

variable {R : Type}

/-- Neither stack is deeper than its limit. -/
structure Stacks.Confined (limits : Limits) (s : Stacks R) : Prop where
  values : s.values.length ≤ limits.stackDepth
  returns : s.returns.length ≤ limits.returnDepth

theorem Stacks.confined_empty (limits : Limits) : ({} : Stacks R).Confined limits :=
  ⟨Nat.zero_le _, Nat.zero_le _⟩

/-- An operation leaves stacks that are within the limits there, also when it fails. -/
def Confines (limits : Limits) {α : Type} (x : StackM R α) : Prop :=
  ∀ s : Stacks R, s.Confined limits → (x s).2.Confined limits

namespace Confines

variable {limits : Limits} {α β : Type}

theorem pure (a : α) : Confines limits (Pure.pure a : StackM R α) := fun _ h ↦ h

theorem fail (cause : ExecutionError) : Confines limits (Stacks.fail cause : StackM R α) :=
  fun _ h ↦ h

theorem get : Confines limits (MonadState.get : StackM R (Stacks R)) := fun _ h ↦ h

theorem bind {x : StackM R α} {f : α → StackM R β} (hx : Confines limits x)
    (hf : ∀ a, Confines limits (f a)) : Confines limits (x >>= f) :=
  fun s hs ↦ bind_apply_snd (hx s hs) fun a ↦ hf a _ (hx s hs)

/-- A value is only pushed if there is room for it. -/
theorem push (value : Vec4 R) : Confines limits (Stacks.push limits value) := by
  intro s hs
  show (if s.values.length < limits.stackDepth then _ else _ : _ × Stacks R).2.Confined limits
  split
  · next room => exact ⟨room, hs.returns⟩
  · exact hs

/-- An address is only pushed if there is room for it. -/
theorem pushReturn (address : Nat) :
    Confines limits (Stacks.pushReturn limits address : StackM R Unit) := by
  intro s hs
  show (if s.returns.length < limits.returnDepth then _ else _ : _ × Stacks R).2.Confined limits
  split
  · next room => exact ⟨hs.values, room⟩
  · exact hs

theorem pop : Confines limits (Stacks.pop : StackM R (Vec4 R)) := by
  rintro ⟨- | ⟨value, rest⟩, returns⟩ hs
  · exact hs
  · exact ⟨Nat.le_of_succ_le hs.values, hs.returns⟩

theorem popReturn : Confines limits (Stacks.popReturn : StackM R Nat) := by
  rintro ⟨values, - | ⟨address, rest⟩⟩ hs
  · exact hs
  · exact ⟨hs.values, Nat.le_of_succ_le hs.returns⟩

theorem peek : Confines limits (Stacks.peek : StackM R (Vec4 R)) := by
  rintro ⟨- | ⟨value, rest⟩, returns⟩ hs <;> exact hs

theorem popMany (n : Nat) : Confines limits (Stacks.popMany n : StackM R (List (Vec4 R))) := by
  induction n with
  | zero => exact .pure []
  | succ n ih => exact pop.bind fun _ ↦ ih.bind fun _ ↦ .pure _

theorem stopAt (table : StopTable Nat) (i : Nat) :
    Confines limits (Machine.stopAt table i : StackM R Nat) := by
  rw [Machine.stopAt]
  split
  · exact .pure _
  · exact .fail _

variable {env : Environment R}

theorem push_next (value : Vec4 R) :
    Confines limits (do Machine.push limits env value; return Flow.next : StackM R Flow) :=
  (push (env.keep value)).bind fun _ ↦ .pure Flow.next

/-- A value that is replaced needs no more room. -/
theorem unary (f : Vec4 R → Vec4 R) : Confines limits (Machine.unary limits env f) :=
  pop.bind fun value ↦ push_next (f value)

variable [ColorModel R]

/-- A dispatch over two branches keeps to the limits, as each push looks for room. -/
theorem dispatchBlend (t : R) (branches : Branches Nat) :
    Confines limits (Machine.dispatchBlend limits env t branches) := by
  rw [Machine.dispatchBlend]
  split_ifs
  · exact (pushReturn _).bind fun _ ↦ .pure _
  · exact (pushReturn _).bind fun _ ↦ .pure _
  · exact (push _).bind fun _ ↦ (pushReturn _).bind fun _ ↦ (pushReturn _).bind fun _ ↦ .pure _

/-- Lighting takes its inputs before it pushes a value. -/
theorem light (shininess : R) (lights : Nat) :
    Confines limits (Machine.light limits env shininess lights) := by
  refine get.bind fun s ↦ ?_
  dsimp only
  split
  · exact .fail _
  · refine (popMany _).bind fun inputs ↦ ?_
    cases phong? shininess inputs with
    | none => exact .fail _
    | some value => exact push_next value

variable [Rounding R Single]

/-- A dispatch over stops keeps to the limits, as each push looks for room. -/
theorem dispatchGradient (t : Option R) (extend : Extend) (table : StopTable Nat) :
    Confines limits (Machine.dispatchGradient limits env t extend table) := by
  cases t with
  | none => exact (push _).bind fun _ ↦ .pure _
  | some t =>
    rw [Machine.dispatchGradient]
    cases Selection.select (table.ratios.map widen) (extend.apply t) with
    | single i => exact (pushReturn _).bind fun _ ↦ (stopAt table i).bind fun _ ↦ .pure _
    | between i ratio =>
      exact (push _).bind fun _ ↦ (pushReturn _).bind fun _ ↦ (stopAt table (i + 1)).bind fun _ ↦
        (pushReturn _).bind fun _ ↦ (stopAt table i).bind fun _ ↦ .pure _

/-- No instruction leaves the limits. -/
theorem step (i : Instruction Nat) : Confines limits (Machine.step limits env i) := by
  cases i with
  | exit => exact .pure _
  | ret => exact popReturn.bind fun _ ↦ .pure _
  | pushColor color => exact push_next _
  | opaqueJump target => exact peek.bind fun _ ↦ .pure _
  | stackBlend => exact pop.bind fun _ ↦ pop.bind fun _ ↦ push_next _
  | mix => exact pop.bind fun _ ↦ pop.bind fun _ ↦ pop.bind fun _ ↦ push_next _
  | blendCompose compose blend => exact pop.bind fun _ ↦ pop.bind fun _ ↦ push_next _
  | premultiply => exact unary _
  | unpremultiply => exact unary _
  | convert conversion => exact unary _
  | multiplyScalar factor => exact unary _
  | normalize => exact unary _
  | filter m => exact unary _
  | phong shininess lights => exact light _ lights
  | linearBlendRatio ramp accuracy branches => exact dispatchBlend _ branches
  | radialBlendRatio ramp accuracy branches => exact dispatchBlend _ branches
  | linearGradientRatio axis accuracy extend table => exact dispatchGradient _ extend table
  | radialGradientRatio circles accuracy extend table => exact dispatchGradient _ extend table
  | barycentricBlend triangle accuracy =>
    exact pop.bind fun _ ↦ pop.bind fun _ ↦ pop.bind fun _ ↦ push_next _

end Confines

namespace Machine

variable [ColorModel R] [Rounding R Single]
variable {limits : Limits} {env : Environment R} {program : Linked} {s s' final : State R}
variable {visited xs : List Nat}

/-- A machine that goes on is still within the limits. -/
theorem confined_of_advance (h : advance limits env program s = .running s')
    (hs : s.store.Confined limits) : s'.store.Confined limits := by
  rw [advance] at h
  split at h
  · cases h
  next i _ =>
    have hstep : (step limits env i s.store).2.Confined limits := Confines.step i s.store hs
    generalize step limits env i s.store = result at h hstep
    rcases result with ⟨cause | flow, store⟩
    · cases h
    · cases flow with
      | next => cases h; exact hstep
      | jump index => cases h; exact hstep
      | halt => cases h

/-- Along a run the stacks stay within the limits. -/
theorem Runs.confined (h : Runs limits env program s visited s')
    (hs : s.store.Confined limits) : s'.store.Confined limits := by
  induction h with
  | refl => exact hs
  | step first _ ih => exact ih (confined_of_advance first hs)

/-- What is reached on the way to a state where the machine does not go on still leads there. -/
theorem Runs.resume (h : Runs limits env program s visited final)
    (last : ∀ t, advance limits env program final ≠ .running t)
    (h' : Runs limits env program s xs s') :
    ∃ ys, visited = xs ++ ys ∧ Runs limits env program s' ys final := by
  induction h' generalizing visited with
  | refl => exact ⟨visited, rfl, h⟩
  | step first _ ih =>
    cases h with
    | refl => exact absurd first (last _)
    | step first' rest =>
      cases first.symm.trans first'
      obtain ⟨ys, hys, hrun⟩ := ih rest
      exact ⟨ys, by rw [hys, List.cons_append], hrun⟩

/-- A run that ends where the machine halts visits every other state, the last one included, without
failing. -/
theorem Runs.advance_ne_failed {store : Stacks R} (h : Runs limits env program s visited final)
    (halt : advance limits env program final = .halted store)
    (h' : Runs limits env program s xs s') (cause : ExecutionError) :
    advance limits env program s' ≠ .failed cause := by
  obtain ⟨ys, -, hrun⟩ := h.resume (by rw [halt]; exact nofun) h'
  cases hrun with
  | refl => rw [halt]; exact nofun
  | step first _ => rw [first]; exact nofun

end Machine

end Shading
