import Shading.Machine.Executor
import Shading.Proofs.Failure

/-!
# What a machine reads of the position

All that a machine takes from the position of a sample is where its instructions sample, each with
its own accuracy. So two runs of the same code agree as soon as the accuracies in it lead to the
same points (`executeIn_congr`), although the ratios found there decide where control goes: the runs
are the same step by step, and an instruction that is never reached does no harm.
-/

namespace Shading

variable {R : Type}

namespace Instruction

variable {ℓ ℓ' : Type}

/-- Where an instruction takes its sample, if it takes one. -/
def accuracy? : Instruction ℓ → Option Accuracy
  | .linearBlendRatio _ accuracy _ | .radialBlendRatio _ accuracy _
  | .linearGradientRatio _ accuracy _ _ | .radialGradientRatio _ accuracy _ _
  | .barycentricBlend _ accuracy => some accuracy
  | _ => none

/-- The instruction samples only with accuracies that are used. -/
def Samples (used : Accuracy → Prop) (i : Instruction ℓ) : Prop :=
  ∀ accuracy, i.accuracy? = some accuracy → used accuracy

variable {used : Accuracy → Prop}

theorem accuracy?_map (f : ℓ → ℓ') (i : Instruction ℓ) : (i.map f).accuracy? = i.accuracy? := by
  cases i <;> rfl

theorem Samples.map {i : Instruction ℓ} (h : i.Samples used) (f : ℓ → ℓ') :
    (i.map f).Samples used := fun accuracy haccuracy ↦
  h accuracy ((accuracy?_map f i).symm.trans haccuracy)

end Instruction

/-- The surroundings differ at most in points that no used accuracy leads to. -/
structure Environment.Agree (used : Accuracy → Prop) (env env' : Environment R) : Prop where
  sample : ∀ accuracy, used accuracy → env.sample accuracy = env'.sample accuracy
  premultiplied : env.premultiplied = env'.premultiplied
  keep : env.keep = env'.keep

/-! ### Linked code -/

/-- All instructions of the code sample only with accuracies that are used. -/
def Linked.Samples (used : Accuracy → Prop) (program : Linked) : Prop :=
  ∀ i ∈ program.code, i.Samples used

variable {used : Accuracy → Prop}

/-- Linked code samples what the list samples. -/
theorem samples_of_linkFrom {table : List (Nat × Nat)} {index : Nat}
    {is code : List (Instruction Nat)} (h : linkFrom table index is = .ok code)
    (samples : ∀ i ∈ is, i.Samples used) : ∀ i ∈ code, i.Samples used := by
  induction is generalizing index code with
  | nil =>
    obtain rfl := Except.ok.inj h
    exact samples
  | cons i is ih =>
    rw [List.forall_mem_cons] at samples
    obtain ⟨-, h⟩ := check_bind_eq_ok_iff.1 h
    obtain ⟨rest, hrest, h⟩ := bind_eq_ok_iff.1 h
    obtain rfl := Except.ok.inj h
    exact List.forall_mem_cons.2 ⟨samples.1.map _, ih hrest samples.2⟩

/-- Linking changes no accuracy. -/
theorem samples_of_link {lines : List Line} {linked : Linked} (h : link lines = .ok linked)
    (samples : ∀ i ∈ Line.instructions lines, i.Samples used) : linked.Samples used := by
  obtain ⟨table, -, h⟩ := bind_eq_ok_iff.1 h
  obtain ⟨code, hcode, h⟩ := bind_eq_ok_iff.1 h
  obtain rfl := Except.ok.inj h
  exact fun i hi ↦ samples_of_linkFrom hcode samples i (by simpa using hi)

namespace Machine

variable [ColorModel R] [Rounding R Single] {env env' : Environment R} {program : Linked}
  (limits : Limits)

/-- An instruction does the same in environments that agree where it samples. -/
theorem step_congr (agree : env.Agree used env') {i : Instruction Nat} (samples : i.Samples used) :
    step limits env i = step limits env' i := by
  cases i with
  | linearBlendRatio | radialBlendRatio =>
    simp only [step, dispatchBlend, push, agree.keep, agree.sample _ (samples _ rfl)]
  | linearGradientRatio | radialGradientRatio =>
    simp only [step, dispatchGradient, push, agree.keep, agree.sample _ (samples _ rfl)]
  | barycentricBlend => simp only [step, push, agree.keep, agree.sample _ (samples _ rfl)]
  | _ => simp only [step, unary, light, push, agree.keep]

theorem advance_congr (agree : env.Agree used env') (samples : program.Samples used)
    (s : State R) : advance limits env program s = advance limits env' program s := by
  rw [advance, advance]
  rcases hi : program.code[s.index]? with - | i
  · rfl
  · simp only [step_congr limits agree (samples i (Array.mem_of_getElem? hi))]

/-- Code runs alike in environments that agree where it samples. -/
theorem run_congr (agree : env.Agree used env') (samples : program.Samples used) (fuel : Nat)
    (s : State R) : run limits env program fuel s = run limits env' program fuel s := by
  induction fuel generalizing s with
  | zero => rfl
  | succ fuel ih =>
    rw [run, run, advance_congr limits agree samples]
    rcases advance limits env' program s with s | store | cause
    · exact ih s
    · rfl
    · rfl

/-- Code has the same answer in surroundings that agree on where it samples. -/
theorem executeIn_congr (agree : env.Agree used env') (samples : program.Samples used) :
    executeIn limits env program = executeIn limits env' program := by
  rw [executeIn, executeIn, run_congr limits agree samples, agree.premultiplied]

end Machine

end Shading
