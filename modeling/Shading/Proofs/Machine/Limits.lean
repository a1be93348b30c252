import Mathlib.Tactic.SplitIfs
import Shading.Machine.Executor
import Shading.Proofs.Failure

/-!
# Wider limits

A machine looks at its limits only to decide whether to go on. So under limits that are nowhere
wider than others it does what it does under the others, until it fails because one of its own
limits is reached (`Narrows`). This passes from the operations on the stacks through sequences of
them to instructions, and from one step to a run of any length, where the number of steps is the
third limit (`run_narrows`). No instruction can react to a limit, since a failed operation ends the
run: that is all that `Narrows.bind` needs.

Nothing is asked of the code, so none of this rests on jumps going forward.
-/

namespace Shading

open Machine

variable {R : Type}

/-- None of the limits is wider than the other's. -/
structure Limits.Le (tight wide : Limits) : Prop where
  stackDepth : tight.stackDepth ≤ wide.stackDepth
  returnDepth : tight.returnDepth ≤ wide.returnDepth
  iterations : tight.iterations ≤ wide.iterations

/-- The failure says that one of the limits has been reached. -/
inductive Limits.Blames (limits : Limits) : ExecutionError → Prop
  | stackDepth : limits.Blames (.stackOverflow limits.stackDepth)
  | returnDepth : limits.Blames (.returnOverflow limits.returnDepth)
  | iterations : limits.Blames (.iterationCap limits.iterations)

/-- An operation does what another one does, or fails because a limit is reached. -/
def Narrows (limits : Limits) {α : Type} (x y : StackM R α) : Prop :=
  ∀ s : Stacks R, x s = y s ∨ ∃ cause, limits.Blames cause ∧ (x s).1 = .error cause

namespace Narrows

variable {tight wide : Limits} {α β : Type}

theorem refl (x : StackM R α) : Narrows tight x x := fun _ ↦ .inl rfl

theorem bind {x y : StackM R α} {f g : α → StackM R β} (hx : Narrows tight x y)
    (hf : ∀ a, Narrows tight (f a) (g a)) : Narrows tight (x >>= f) (y >>= g) := by
  intro s
  rcases hx s with heq | ⟨cause, hblames, hfails⟩
  · rcases hy : y s with ⟨cause | a, t⟩
    · rw [bind_apply_of_failed (heq.trans hy), bind_apply_of_failed hy]
      exact .inl rfl
    · rw [bind_apply_of_ok (heq.trans hy), bind_apply_of_ok hy]
      exact hf a t
  · exact .inr ⟨cause, hblames, bind_apply_of_error hfails⟩

/-- With tighter limits, pushing a value fails more often. -/
theorem push (le : tight.Le wide) (value : Vec4 R) :
    Narrows tight (Stacks.push tight value) (Stacks.push wide value) := by
  intro s
  show (if s.values.length < tight.stackDepth then _ else _) =
    (if s.values.length < wide.stackDepth then _ else _) ∨ _
  by_cases h : s.values.length < tight.stackDepth
  · rw [if_pos h, if_pos (Nat.lt_of_lt_of_le h le.stackDepth)]
    exact .inl rfl
  · refine .inr ⟨_, .stackDepth, ?_⟩
    show (if s.values.length < tight.stackDepth then _ else _ : Except _ _ × Stacks R).1 = _
    rw [if_neg h]

/-- With tighter limits, pushing an address fails more often. -/
theorem pushReturn (le : tight.Le wide) (address : Nat) :
    Narrows tight (Stacks.pushReturn tight address : StackM R Unit)
      (Stacks.pushReturn wide address) := by
  intro s
  show (if s.returns.length < tight.returnDepth then _ else _) =
    (if s.returns.length < wide.returnDepth then _ else _) ∨ _
  by_cases h : s.returns.length < tight.returnDepth
  · rw [if_pos h, if_pos (Nat.lt_of_lt_of_le h le.returnDepth)]
    exact .inl rfl
  · refine .inr ⟨_, .returnDepth, ?_⟩
    show (if s.returns.length < tight.returnDepth then _ else _ : Except _ _ × Stacks R).1 = _
    rw [if_neg h]

variable {env : Environment R} (le : tight.Le wide)

include le

/-- A value pushed at the end of an instruction. -/
theorem push_next (value : Vec4 R) :
    Narrows tight (do Machine.push tight env value; return Flow.next : StackM R Flow)
      (do Machine.push wide env value; return Flow.next) :=
  (push le _).bind fun _ ↦ .refl _

theorem unary (f : Vec4 R → Vec4 R) :
    Narrows tight (Machine.unary tight env f) (Machine.unary wide env f) :=
  (refl _).bind fun v ↦ push_next le (f v)

variable [ColorModel R]

/-- A dispatch over two branches differs only in its pushes. -/
theorem dispatchBlend (t : R) (branches : Branches Nat) :
    Narrows tight (Machine.dispatchBlend tight env t branches)
      (Machine.dispatchBlend wide env t branches) := by
  rw [Machine.dispatchBlend, Machine.dispatchBlend]
  split_ifs
  · exact (pushReturn le _).bind fun _ ↦ .refl _
  · exact (pushReturn le _).bind fun _ ↦ .refl _
  · exact (push le _).bind fun _ ↦ (pushReturn le _).bind fun _ ↦
      (pushReturn le _).bind fun _ ↦ .refl _

/-- Lighting differs only in its push. -/
theorem light (shininess : R) (lights : Nat) :
    Narrows tight (Machine.light tight env shininess lights)
      (Machine.light wide env shininess lights) := by
  refine (refl get).bind fun s ↦ ?_
  dsimp only
  split
  · exact .refl _
  · refine (refl _).bind fun inputs ↦ ?_
    cases phong? shininess inputs with
    | none => exact .refl _
    | some value => exact push_next le value

variable [Rounding R Single]

/-- A dispatch over stops differs only in its pushes. -/
theorem dispatchGradient (t : Option R) (extend : Extend) (table : StopTable Nat) :
    Narrows tight (Machine.dispatchGradient tight env t extend table)
      (Machine.dispatchGradient wide env t extend table) := by
  cases t with
  | none => exact (push le _).bind fun _ ↦ .refl _
  | some t =>
    rw [Machine.dispatchGradient, Machine.dispatchGradient]
    cases Selection.select (table.ratios.map widen) (extend.apply t) with
    | single i => exact (pushReturn le _).bind fun _ ↦ .refl _
    | between i ratio =>
      exact (push le _).bind fun _ ↦ (pushReturn le _).bind fun _ ↦
        (refl (stopAt table (i + 1))).bind fun _ ↦ (pushReturn le _).bind fun _ ↦ .refl _

/-- Under tighter limits an instruction does the same, or fails and blames them. -/
theorem step (i : Instruction Nat) :
    Narrows tight (Machine.step tight env i) (Machine.step wide env i) := by
  cases i with
  | exit => exact .refl _
  | ret => exact .refl _
  | pushColor color => exact push_next le _
  | opaqueJump target => exact .refl _
  | stackBlend => exact (refl _).bind fun _ ↦ (refl _).bind fun _ ↦ push_next le _
  | mix =>
    exact (refl _).bind fun _ ↦ (refl _).bind fun _ ↦ (refl _).bind fun _ ↦ push_next le _
  | blendCompose compose blend =>
    exact (refl _).bind fun _ ↦ (refl _).bind fun _ ↦ push_next le _
  | premultiply => exact unary le _
  | unpremultiply => exact unary le _
  | convert conversion => exact unary le _
  | multiplyScalar factor => exact unary le _
  | normalize => exact unary le _
  | filter m => exact unary le _
  | phong shininess lights => exact light le _ lights
  | linearBlendRatio ramp accuracy branches => exact dispatchBlend le _ branches
  | radialBlendRatio ramp accuracy branches => exact dispatchBlend le _ branches
  | linearGradientRatio axis accuracy extend table =>
    rw [Machine.step, Machine.step]
    exact dispatchGradient le _ extend table
  | radialGradientRatio circles accuracy extend table =>
    rw [Machine.step, Machine.step]
    exact dispatchGradient le _ extend table
  | barycentricBlend triangle accuracy =>
    exact (refl _).bind fun _ ↦ (refl _).bind fun _ ↦ (refl _).bind fun _ ↦ push_next le _

end Narrows

namespace Machine

variable [ColorModel R] [Rounding R Single]
variable {tight wide : Limits} (env : Environment R) (program : Linked)

/-- A step goes where it goes under wider limits, or fails because a limit is reached. -/
theorem advance_narrows (le : tight.Le wide) (s : State R) :
    advance tight env program s = advance wide env program s ∨
      ∃ cause, tight.Blames cause ∧ advance tight env program s = .failed cause := by
  rw [advance, advance]
  rcases program.code[s.index]? with - | i
  · exact .inl rfl
  · have hnarrows : Narrows tight (step tight env i) (step wide env i) := .step le i
    rcases hnarrows s.store with heq | ⟨cause, hblames, hfails⟩
    · left
      simp only [heq]
    · right
      refine ⟨cause, hblames, ?_⟩
      rcases hstep : step tight env i s.store with ⟨result, store⟩
      rw [hstep] at hfails
      obtain rfl : result = .error cause := hfails
      simp only [hstep]

/-- A run has the outcome that it has under wider limits and with more steps allowed, or it fails
because a limit is reached. -/
theorem run_narrows (le : tight.Le wide) {fuel fuel' : Nat} (enough : fuel ≤ fuel')
    (s : State R) :
    run tight env program fuel s = run wide env program fuel' s ∨
      ∃ cause, tight.Blames cause ∧ run tight env program fuel s = .error cause := by
  induction fuel generalizing fuel' s with
  | zero => exact .inr ⟨_, .iterations, rfl⟩
  | succ fuel ih =>
    cases fuel' with
    | zero => exact absurd enough (Nat.not_succ_le_zero fuel)
    | succ fuel' =>
      rw [run, run]
      rcases advance_narrows env program le s with heq | ⟨cause, hblames, heq⟩
      · rw [heq]
        cases advance wide env program s with
        | running s' => exact ih (Nat.le_of_succ_le_succ enough) s'
        | halted store => exact .inl rfl
        | failed cause => exact .inl rfl
      · rw [heq]
        exact .inr ⟨cause, hblames, rfl⟩

/-- Under tighter limits a program has the same answer, or fails and blames them. -/
theorem executeIn_narrows (le : tight.Le wide) :
    executeIn tight env program = executeIn wide env program ∨
      ∃ cause, tight.Blames cause ∧ executeIn tight env program = .error cause := by
  rw [executeIn, executeIn]
  rcases run_narrows env program le le.iterations {} with heq | ⟨cause, hblames, heq⟩
  · exact .inl (by rw [heq])
  · exact .inr ⟨cause, hblames, by rw [heq]; rfl⟩

/-- Under wider limits every answer stays, and what fails failed before, for the same cause or
because one of the tighter limits was reached. -/
theorem execute_widened (le : tight.Le wide) (ctx : Context R) :
    (∀ color, execute tight program ctx = .ok color → execute wide program ctx = .ok color) ∧
      ∀ cause, execute wide program ctx = .error cause →
        ∃ cause', execute tight program ctx = .error cause' ∧
          (cause' = cause ∨ tight.Blames cause') := by
  have h := executeIn_narrows (.ofContext ctx) program le
  rw [← execute, ← execute] at h
  rcases h with heq | ⟨cause, hblames, hfails⟩
  · rw [heq]
    exact ⟨fun _ hcolor ↦ hcolor, fun cause hcause ↦ ⟨cause, hcause, .inl rfl⟩⟩
  · rw [hfails]
    exact ⟨nofun, fun _ _ ↦ ⟨cause, rfl, .inr hblames⟩⟩

/-- A gradient with one stop, which is called and returns to the exit. -/
def oneStopLines : List Line :=
  [.op (.linearGradientRatio ⟨⟨⟨0⟩, ⟨0⟩, ⟨0⟩, ⟨0⟩, ⟨0⟩, ⟨0⟩⟩, ⟨⟨0⟩, ⟨0⟩⟩, ⟨⟨0⟩, ⟨0⟩⟩⟩
      .splitCentroid .pad ⟨[⟨0⟩], [0], 1, 1⟩),
    .mark 0, .op (.pushColor (.splat ⟨0x3f800000⟩)), .op .ret, .mark 1, .op .exit]

/-- The code that these lines are linked to. -/
def oneStopCode : Linked where
  code :=
    #[.linearGradientRatio ⟨⟨⟨0⟩, ⟨0⟩, ⟨0⟩, ⟨0⟩, ⟨0⟩, ⟨0⟩⟩, ⟨⟨0⟩, ⟨0⟩⟩, ⟨⟨0⟩, ⟨0⟩⟩⟩
        .splitCentroid .pad ⟨[⟨0⟩], [1], 3, 3⟩,
      .pushColor (.splat ⟨0x3f800000⟩), .ret, .exit]

/-- Room for one value, one return and four steps is just enough, and more changes nothing. -/
theorem execute_oneStopCode :
    let color : Vec4 Float := .splat (widen (⟨0x3f800000⟩ : Single))
    let ctx : Context Float := .fullPixel 0 0
    link oneStopLines = .ok oneStopCode ∧ Limits.Le ⟨1, 1, 4⟩ {} ∧
      execute ⟨1, 1, 4⟩ oneStopCode ctx = .ok color ∧ execute {} oneStopCode ctx = .ok color := by
  have le : Limits.Le ⟨1, 1, 4⟩ {} := ⟨by decide, by decide, by decide⟩
  have tight : execute ⟨1, 1, 4⟩ oneStopCode (.fullPixel 0 0 : Context Float) =
      .ok (.splat (widen (⟨0x3f800000⟩ : Single))) := rfl
  exact ⟨rfl, le, tight, (execute_widened oneStopCode le _).1 _ tight⟩

end Machine

end Shading
