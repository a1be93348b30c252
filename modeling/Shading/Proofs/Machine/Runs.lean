import Mathlib.Data.List.Induction
import Mathlib.Data.List.Nodup
import Shading.Machine.Executor
import Shading.Proofs.Failure

/-!
# Runs of the machine

A run is a sequence of steps that succeed, together with the indices of the instructions that were
executed (`Runs`). The indices are what resource statements are about: a run that visits no index
twice within an interval has no more steps than the interval is long (`Within.length_le`), and that
is how far the cap on iterations has to reach (`run_of_runs`).

Below that, one lemma per instruction: its effect on stacks that hold what it takes, when there is
room for what it puts. No later proof unfolds a step.
-/

namespace Shading

namespace Machine

variable {R : Type}

/-! ### Operations on the stacks -/

section Stacks

variable {limits : Limits} {env : Environment R} {vs : List (Vec4 R)} {rs : List Nat}

theorem push_of_lt (room : vs.length < limits.stackDepth) (v : Vec4 R) :
    push limits env v ⟨vs, rs⟩ = (.ok (), ⟨env.keep v :: vs, rs⟩) := by
  show (if vs.length < limits.stackDepth then _ else _) = _
  rw [if_pos room]

theorem pushReturn_of_lt (room : rs.length < limits.returnDepth) (address : Nat) :
    Stacks.pushReturn limits address ⟨vs, rs⟩ = (.ok (), (⟨vs, address :: rs⟩ : Stacks R)) := by
  show (if rs.length < limits.returnDepth then _ else _) = _
  rw [if_pos room]

/-- A value pushed at the end of an instruction. -/
theorem push_next (room : vs.length < limits.stackDepth) (v : Vec4 R) :
    (do push limits env v; return Flow.next : StackM R Flow) ⟨vs, rs⟩ =
      (.ok .next, ⟨env.keep v :: vs, rs⟩) := by
  rw [bind_apply_of_ok (push_of_lt room v)]
  rfl

theorem unary_apply (room : vs.length < limits.stackDepth) (f : Vec4 R → Vec4 R) (v : Vec4 R) :
    unary limits env f ⟨v :: vs, rs⟩ = (.ok .next, ⟨env.keep (f v) :: vs, rs⟩) :=
  push_next room (f v)

/-- The topmost values come off the stack in the order in which they were put there. -/
theorem popMany_reverse (inputs : List (Vec4 R)) :
    Stacks.popMany inputs.length ⟨inputs.reverse ++ vs, rs⟩ = (.ok inputs, ⟨vs, rs⟩) := by
  induction inputs using List.reverseRecOn generalizing vs with
  | nil => rfl
  | append_singleton inputs v ih =>
    rw [List.length_append, List.length_singleton, Stacks.popMany, List.reverse_append,
      List.reverse_singleton, List.singleton_append, List.cons_append]
    rw [bind_apply_of_ok (x := Stacks.pop) (a := v) (t := ⟨inputs.reverse ++ vs, rs⟩) rfl,
      bind_apply_of_ok ih]
    rfl

theorem stopAt_of_getElem? {table : StopTable Nat} {i target : Nat}
    (h : table.stops[i]? = some target) (s : Stacks R) :
    stopAt table i s = (.ok target, s) := by
  rw [stopAt, h]
  rfl

end Stacks

variable [ColorModel R]

section Blend

variable {limits : Limits} {env : Environment R} {vs : List (Vec4 R)} {rs : List Nat}
variable {t : R} {branches : Branches Nat}

/-- At the start of a ramp only the first branch is called. -/
theorem dispatchBlend_zero (h : t ≤ 0) (room : rs.length < limits.returnDepth) :
    dispatchBlend limits env t branches ⟨vs, rs⟩ =
      (.ok (.jump branches.zero), ⟨vs, branches.done :: rs⟩) := by
  rw [dispatchBlend, if_pos h, bind_apply_of_ok (pushReturn_of_lt room branches.done)]
  rfl

/-- At the end of a ramp only the second branch is called. -/
theorem dispatchBlend_one (h : ¬ t ≤ 0) (h' : 1 ≤ t) (room : rs.length < limits.returnDepth) :
    dispatchBlend limits env t branches ⟨vs, rs⟩ =
      (.ok (.jump branches.one), ⟨vs, branches.done :: rs⟩) := by
  rw [dispatchBlend, if_neg h, if_pos h',
    bind_apply_of_ok (pushReturn_of_lt room branches.done)]
  rfl

/-- Both sides are called: their continuations lie on the return stack, the nearer one on top. -/
theorem dispatchBlend_both (h : ¬ t ≤ 0) (h' : ¬ 1 ≤ t) (room : vs.length < limits.stackDepth)
    (room' : rs.length + 1 < limits.returnDepth) :
    dispatchBlend limits env t branches ⟨vs, rs⟩ =
      (.ok (.jump branches.zero),
        ⟨env.keep (.splat t) :: vs, branches.one :: branches.blend :: rs⟩) := by
  rw [dispatchBlend, if_neg h, if_neg h', bind_apply_of_ok (push_of_lt room _),
    bind_apply_of_ok (pushReturn_of_lt (by omega) branches.blend),
    bind_apply_of_ok (pushReturn_of_lt (by rw [List.length_cons]; exact room') branches.one)]
  rfl

end Blend

variable [Rounding R Single]

/-! ### Sequences of steps -/

/-- The machine gets from one state to another by executing the instructions at the indices, in
order. -/
inductive Runs (limits : Limits) (env : Environment R) (program : Linked) :
    State R → List Nat → State R → Prop
  | refl (s : State R) : Runs limits env program s [] s
  | step {s s' s'' : State R} {visited : List Nat} :
    advance limits env program s = .running s' → Runs limits env program s' visited s'' →
      Runs limits env program s (s.index :: visited) s''

section

variable {limits : Limits} {env : Environment R} {program : Linked}

/-- Runs are put together, and so is what they visit. -/
theorem Runs.trans {s s' s'' : State R} {xs ys : List Nat} (h : Runs limits env program s xs s')
    (h' : Runs limits env program s' ys s'') : Runs limits env program s (xs ++ ys) s'' := by
  induction h with
  | refl => exact h'
  | step first _ ih => exact .step first (ih h')

/-- One more step at the end of a run. -/
theorem Runs.snoc {s s' s'' : State R} {xs : List Nat} (h : Runs limits env program s xs s')
    (last : advance limits env program s' = .running s'') :
    Runs limits env program s (xs ++ [s'.index]) s'' :=
  h.trans (.step last (.refl s''))

/-- A bounded execution goes through a run if the bound allows that many steps. -/
theorem run_of_runs {s s' : State R} {visited : List Nat}
    (h : Runs limits env program s visited s') (fuel : Nat) :
    run limits env program (visited.length + fuel) s = run limits env program fuel s' := by
  induction h with
  | refl => rw [List.length_nil, Nat.zero_add]
  | step first _ ih =>
    rw [List.length_cons, Nat.add_right_comm, run, first]
    exact ih

theorem advance_of_next {a : Nat} {store store' : Stacks R} {i : Instruction Nat}
    (hi : program.code[a]? = some i) (h : step limits env i store = (.ok .next, store')) :
    advance limits env program ⟨a, store⟩ = .running ⟨a + 1, store'⟩ := by
  rw [advance, hi]
  show (match step limits env i store with | _ => _) = _
  rw [h]

theorem advance_of_jump {a target : Nat} {store store' : Stacks R} {i : Instruction Nat}
    (hi : program.code[a]? = some i)
    (h : step limits env i store = (.ok (.jump target), store')) :
    advance limits env program ⟨a, store⟩ = .running ⟨target, store'⟩ := by
  rw [advance, hi]
  show (match step limits env i store with | _ => _) = _
  rw [h]

end

/-- The indices are distinct and lie in the interval. -/
structure Within (start stop : Nat) (visited : List Nat) : Prop where
  nodup : visited.Nodup
  bounds : ∀ k ∈ visited, start ≤ k ∧ k < stop

namespace Within

variable {start stop : Nat} {xs ys : List Nat}

theorem nil (start stop : Nat) : Within start stop [] :=
  ⟨List.nodup_nil, fun _ h ↦ absurd h List.not_mem_nil⟩

theorem singleton {k : Nat} (h : start ≤ k) (h' : k < stop) : Within start stop [k] :=
  ⟨List.nodup_singleton k, fun _ hj ↦ List.mem_singleton.1 hj ▸ ⟨h, h'⟩⟩

theorem mono {start' stop' : Nat} (h : Within start stop xs) (hs : start' ≤ start)
    (he : stop ≤ stop') : Within start' stop' xs :=
  ⟨h.nodup, fun k hk ↦ ⟨Nat.le_trans hs (h.bounds k hk).1, Nat.lt_of_lt_of_le (h.bounds k hk).2 he⟩⟩

/-- Indices of neighbouring intervals. -/
theorem append {mid : Nat} (hx : Within start mid xs) (hy : Within mid stop ys) (h : start ≤ mid)
    (h' : mid ≤ stop) : Within start stop (xs ++ ys) := by
  refine ⟨List.Nodup.append hx.nodup hy.nodup fun k hk hk' ↦ ?_, fun k hk ↦ ?_⟩
  · have := (hx.bounds k hk).2
    have := (hy.bounds k hk').1
    omega
  · rcases List.mem_append.1 hk with hk | hk
    · exact ⟨(hx.bounds k hk).1, Nat.lt_of_lt_of_le (hx.bounds k hk).2 h'⟩
    · exact ⟨Nat.le_trans h (hy.bounds k hk).1, (hy.bounds k hk).2⟩

/-- There are no more distinct indices than the interval is long. -/
theorem length_le (h : Within start stop xs) : xs.length ≤ stop - start := by
  have hsub : xs ⊆ List.range' start (stop - start) := by
    intro k hk
    have := h.bounds k hk
    rw [List.mem_range'_1]
    omega
  calc xs.length ≤ (List.range' start (stop - start)).length := h.nodup.length_le_of_subset hsub
    _ = stop - start := List.length_range'

end Within

/-! ### The effect of each instruction -/

variable {limits : Limits} {env : Environment R} {vs : List (Vec4 R)} {rs : List Nat}

/-- Pushing a constant, widened and kept. -/
theorem step_pushColor (room : vs.length < limits.stackDepth) (color : Vec4 Single) :
    step limits env (.pushColor color) ⟨vs, rs⟩ =
      (.ok .next, ⟨env.keep (color.map widen) :: vs, rs⟩) :=
  push_next room (color.map widen)

/-- Returning to the address that was put down last. -/
theorem step_ret (address : Nat) :
    step limits env .ret ⟨vs, address :: rs⟩ = (.ok (.jump address), ⟨vs, rs⟩) :=
  rfl

/-- Jumping if what is on top is opaque, which leaves it there. -/
theorem step_opaqueJump (target : Nat) (v : Vec4 R) :
    step limits env (.opaqueJump target) ⟨v :: vs, rs⟩ =
      (.ok (if isOpaqueAlpha v.w then .jump target else .next), ⟨v :: vs, rs⟩) :=
  rfl

/-- Stacking the two values on top, the upper one being the background. -/
theorem step_stackBlend (room : vs.length < limits.stackDepth) (foreground background : Vec4 R) :
    step limits env .stackBlend ⟨background :: foreground :: vs, rs⟩ =
      (.ok .next, ⟨env.keep (Shading.stackBlend foreground background) :: vs, rs⟩) :=
  push_next room (Shading.stackBlend foreground background)

/-- Mixing the two values on top in the ratio below them. -/
theorem step_mix (room : vs.length < limits.stackDepth) (ratio zero one : Vec4 R) :
    step limits env .mix ⟨one :: zero :: ratio :: vs, rs⟩ =
      (.ok .next, ⟨env.keep (zero.lerp one ratio.x) :: vs, rs⟩) :=
  push_next room (zero.lerp one ratio.x)

/-- Composing the two values on top, the upper one being the backdrop. -/
theorem step_blendCompose (room : vs.length < limits.stackDepth) (compose : Compose)
    (blend : Blend) (a b : Vec4 R) :
    step limits env (.blendCompose compose blend) ⟨b :: a :: vs, rs⟩ =
      (.ok .next, ⟨env.keep (Shading.blendCompose a b compose blend) :: vs, rs⟩) :=
  push_next room (Shading.blendCompose a b compose blend)

/-- Combining the three values on top with the weights of the sample. -/
theorem step_barycentricBlend (room : vs.length < limits.stackDepth) (triangle : Triangle Single)
    (accuracy : Accuracy) (a b c : Vec4 R) :
    let w := (triangle.map widen).weights (env.sample accuracy)
    step limits env (.barycentricBlend triangle accuracy) ⟨c :: b :: a :: vs, rs⟩ =
      (.ok .next, ⟨env.keep (a * w.a + b * w.b + c * w.c) :: vs, rs⟩) :=
  push_next room _

/-- Lighting takes as many inputs as it announces. -/
theorem step_phong (room : vs.length < limits.stackDepth) (shininess : Single) {lights : Nat}
    {inputs : List (Vec4 R)} {value : Vec4 R} (length : inputs.length = 5 + 2 * lights)
    (lit : phong? (widen shininess) inputs = some value) :
    step limits env (.phong shininess lights) ⟨inputs.reverse ++ vs, rs⟩ =
      (.ok .next, ⟨env.keep value :: vs, rs⟩) := by
  have henough : ¬ (inputs.reverse ++ vs).length < 5 + 2 * lights := by
    rw [List.length_append, List.length_reverse, length]
    omega
  show light limits env (widen shininess) lights ⟨inputs.reverse ++ vs, rs⟩ = _
  rw [light, bind_apply_of_ok (x := (get : StackM R (Stacks R))) (a := ⟨inputs.reverse ++ vs, rs⟩)
    (t := ⟨inputs.reverse ++ vs, rs⟩) rfl]
  simp only [if_neg henough]
  rw [← length, bind_apply_of_ok (popMany_reverse inputs), lit]
  exact push_next room value

variable {t : R} {extend : Extend} {table : StopTable Nat}

/-- Without a ratio, a gradient pushes the transparent color and goes on behind its blocks. -/
theorem dispatchGradient_none (room : vs.length < limits.stackDepth) :
    dispatchGradient limits env none extend table ⟨vs, rs⟩ =
      (.ok (.jump table.done), ⟨env.keep .zero :: vs, rs⟩) := by
  rw [dispatchGradient, bind_apply_of_ok (push_of_lt room _)]
  rfl

/-- At a single stop, only its block is called. -/
theorem dispatchGradient_single {i target : Nat}
    (select : Selection.select (table.ratios.map widen) (extend.apply t) = .single i)
    (stop : table.stops[i]? = some target) (room : rs.length < limits.returnDepth) :
    dispatchGradient limits env (some t) extend table ⟨vs, rs⟩ =
      (.ok (.jump target), ⟨vs, table.done :: rs⟩) := by
  rw [dispatchGradient]
  simp only [select]
  rw [bind_apply_of_ok (pushReturn_of_lt room table.done),
    bind_apply_of_ok (stopAt_of_getElem? stop _)]
  rfl

/-- Between two stops, the ratio is pushed and both blocks are called, then the mix. -/
theorem dispatchGradient_between {i first second : Nat} {ratio : R}
    (select : Selection.select (table.ratios.map widen) (extend.apply t) = .between i ratio)
    (stop : table.stops[i]? = some first) (stop' : table.stops[i + 1]? = some second)
    (room : vs.length < limits.stackDepth) (room' : rs.length + 1 < limits.returnDepth) :
    dispatchGradient limits env (some t) extend table ⟨vs, rs⟩ =
      (.ok (.jump first), ⟨env.keep (.splat ratio) :: vs, second :: table.blend :: rs⟩) := by
  rw [dispatchGradient]
  simp only [select]
  rw [bind_apply_of_ok (push_of_lt room _),
    bind_apply_of_ok (pushReturn_of_lt (by omega) table.blend),
    bind_apply_of_ok (stopAt_of_getElem? stop' _),
    bind_apply_of_ok (pushReturn_of_lt (by rw [List.length_cons]; exact room') second),
    bind_apply_of_ok (stopAt_of_getElem? stop _)]
  rfl

end Machine

end Shading
