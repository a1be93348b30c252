import Shading.Proofs.Correctness
import Shading.Proofs.Machine.Confinement

/-!
# The resources of a program are enough

The depths of the stacks are read off the tree of a program, the instructions run from a list. A
machine that has just the depths that the tree tells, and may execute as many instructions as the
list has, answers: on the way its stacks stay within these depths, it executes no instruction twice,
and no instruction fails. This holds in every context, so on whichever sides of blends and stops of
gradients a sample falls.
-/

namespace Shading

open Machine

variable {ι R : Type} [ColorModel R] [Rounding R Single]

namespace Program

/-- The limits that a program written as the given lines asks for, and no more. -/
def limits (p : Program ι R) (lines : List Line) : Limits where
  stackDepth := p.resources.stackDepth
  returnDepth := p.resources.returnDepth
  iterations := Line.count lines

variable {p : Program ι R} {block : List Line} {hi : Nat}

/-- What the machine goes through when it starts on a block in front of an exit. -/
theorem confined_of_lowered (h : p.Lowered 0 block hi) (env : Environment R) {limits : Limits}
    (stack : p.resources.stackDepth ≤ limits.stackDepth)
    (returns : p.resources.returnDepth ≤ limits.returnDepth) {visited : List Nat} {s : State R}
    (run : Runs limits env ⟨blockCode block⟩ {} visited s) :
    s.store.Confined limits ∧ (visited ++ [s.index]).Nodup ∧
      ∀ cause, advance limits env ⟨blockCode block⟩ s ≠ .failed cause := by
  obtain ⟨v, whole, -, hruns, hwithin, hhalt⟩ := runs_of_lowered h env stack returns
  refine ⟨run.confined (Stacks.confined_empty limits), ?_, hruns.advance_ne_failed hhalt run⟩
  obtain ⟨ys, hys, hrest⟩ := hruns.resume (by rw [hhalt]; exact nofun) run
  -- The exit lies behind everything that is executed before it.
  have hwhole : (whole ++ [Line.count block]).Nodup :=
    (hwithin.append (Within.singleton (Nat.le_refl _) (Nat.lt_succ_self _)) (Nat.zero_le _)
      (Nat.le_succ _)).nodup
  refine hwhole.sublist ?_
  rw [hys, List.append_assoc]
  refine (List.Sublist.refl _).append ?_
  cases hrest with
  | refl => exact .refl _
  | step _ _ => exact (List.nil_sublist _).cons_cons _

/-- The list that a valid program without paths is written as runs to an answer with no more than
the depths that the tree of the program tells and one step for each instruction of the list. -/
theorem runs_within_resources (valid : p.Valid) (pathFree : p.PathFree) :
    ∃ lines linked, p.instructions = .ok lines ∧ link lines = .ok linked ∧
      ∀ ctx : Context R,
        (∃ color, execute (p.limits lines) linked ctx = .ok color) ∧
          ∀ visited s, Runs (p.limits lines) (.ofContext ctx) linked {} visited s →
            s.store.values.length ≤ p.resources.stackDepth ∧
              s.store.returns.length ≤ p.resources.returnDepth ∧
              (visited ++ [s.index]).Nodup ∧
              ∀ cause, advance (p.limits lines) (.ofContext ctx) linked s ≠ .failed cause := by
  obtain ⟨block, hi, h⟩ := exists_lowered valid pathFree 0
  refine ⟨_, _, instructions_of_lowered h, link_of_lowered h,
    fun ctx ↦ ⟨?_, fun visited s run ↦ ?_⟩⟩
  · have hsize : (blockCode block).size ≤ (p.limits (block ++ [.op .exit])).iterations := by
      simp [size_blockCode, limits, Line.count]
    obtain ⟨v, -, hexecute⟩ :=
      executeIn_of_lowered h (.ofContext ctx) (Nat.le_refl _) (Nat.le_refl _) hsize
    exact ⟨_, hexecute⟩
  · obtain ⟨hconfined, hnodup, hadvance⟩ :=
      confined_of_lowered h (.ofContext ctx) (Nat.le_refl _) (Nat.le_refl _) run
    exact ⟨hconfined.values, hconfined.returns, hnodup, hadvance⟩

/-- A blend whose second side is a stack, the top of which is a blend again. -/
def nestedBlends : Tree Float :=
  let ramp : LinearRamp Float := ⟨⟨1, 0⟩, 0⟩
  .node () (.linearBlend ramp .splitCentroid)
    [.node () (.color .zero) [],
      .node () .stack
        [.node () (.color .zero) [],
          .node () (.linearBlend ramp .splitCentroid)
            [.node () (.color .zero) [], .node () .stack []]]]

/-- Blends within blends are valid. -/
theorem valid_nestedBlends : nestedBlends.Valid := by
  refine .node rfl (List.forall_mem_cons.2 ⟨.node rfl nofun, List.forall_mem_singleton.2 ?_⟩)
  refine .node rfl (List.forall_mem_cons.2 ⟨.node rfl nofun, List.forall_mem_singleton.2 ?_⟩)
  refine .node rfl (List.forall_mem_cons.2 ⟨.node rfl nofun, List.forall_mem_singleton.2 ?_⟩)
  exact .node rfl nofun

theorem pathFree_nestedBlends : nestedBlends.PathFree := by
  refine .node rfl (List.forall_mem_cons.2 ⟨.node rfl nofun, List.forall_mem_singleton.2 ?_⟩)
  refine .node rfl (List.forall_mem_cons.2 ⟨.node rfl nofun, List.forall_mem_singleton.2 ?_⟩)
  refine .node rfl (List.forall_mem_cons.2 ⟨.node rfl nofun, List.forall_mem_singleton.2 ?_⟩)
  exact .node rfl nofun

/-- Blends within blends keep to the resources that they demand. -/
theorem runs_nestedBlends :
    nestedBlends.Valid ∧ nestedBlends.PathFree ∧
      ∃ lines linked, nestedBlends.instructions = .ok lines ∧ link lines = .ok linked ∧
        ∀ ctx : Context Float,
          (∃ color, execute (nestedBlends.limits lines) linked ctx = .ok color) ∧
            ∀ visited s, Runs (nestedBlends.limits lines) (.ofContext ctx) linked {} visited s →
              s.store.values.length ≤ nestedBlends.resources.stackDepth ∧
                s.store.returns.length ≤ nestedBlends.resources.returnDepth ∧
                (visited ++ [s.index]).Nodup ∧
                ∀ cause, advance (nestedBlends.limits lines) (.ofContext ctx) linked s ≠
                  .failed cause :=
  ⟨valid_nestedBlends, pathFree_nestedBlends,
    runs_within_resources valid_nestedBlends pathFree_nestedBlends⟩

/-- The inner blend needs three values and two returns. Below them lie the ratio of the outer blend,
the value of its first side and one return. -/
example : nestedBlends.resources = ⟨5, 3⟩ := by decide

end Program

end Shading
