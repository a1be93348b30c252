import Shading.Proofs.Program.Evaluation
import Shading.Proofs.Program.Sessions

/-!
# Paths that are resolved

Choosing the sides of all paths first and evaluating what is left is the same as choosing each side
where its path comes up (`evaluate_withPathInclusion`). The second is how a program with paths is
meant to be read (`Program.evaluateOn`); the first is how it is computed, by replacing the nodes of
a program from its leaves, each one once however often it occurs.

Programs come from a session, with paths nested and nodes shared in any way. They need not be valid:
only the numbers of children matter, and the numbers in the kinds may be of any kind.
-/

namespace Shading

variable {ι R : Type} [ColorModel R]

/-- The color of a node at a sample, from the answers of its children. A path has that of the side
that it is on. -/
def Kind.evaluateOn (isInside : Path → Bool) (sample : Accuracy → Point R) (kind : Kind R)
    (answers : List (Answer R)) : Except EvaluationError (Vec4 R) :=
  match kind with
  | .pathBoolean path => answerAt kind answers (if isInside path then 0 else 1) ()
  | kind => kind.evaluate sample answers

/-- Kinds that choose no side of a path are evaluated as without paths. -/
theorem Kind.evaluateOn_eq_evaluate {kind : Kind R} (pathless : kind.isPathBoolean = false)
    (isInside : Path → Bool) (sample : Accuracy → Point R) (answers : List (Answer R)) :
    kind.evaluateOn isInside sample answers = kind.evaluate sample answers := by
  cases kind with
  | pathBoolean path => cases pathless
  | _ => rfl

namespace Program

/-- The premultiplied color of a program at a sample, on the given sides of paths. -/
def evaluateAtOn (isInside : Path → Bool) (sample : Accuracy → Point R) (p : Program ι R) :
    Except EvaluationError (Vec4 R) :=
  p.fold (fun kind answers _ ↦ kind.evaluateOn isInside sample answers) ()

/-- The color of a program in a context, on the given sides of paths. -/
def evaluateOn (isInside : Path → Bool) (ctx : Context R) (p : Program ι R) :
    Except EvaluationError (Vec4 R) := do
  let value ← p.evaluateAtOn isInside ctx.samplePoint
  return if ctx.premultiplied then value else unpremultiply value

/-- Where there are no paths, the sides of paths do not matter. -/
theorem evaluateAtOn_eq_evaluateAt {p : Program ι R} (pathFree : p.PathFree)
    (isInside : Path → Bool) (sample : Accuracy → Point R) :
    p.evaluateAtOn isInside sample = p.evaluateAt sample := by
  induction p using Program.induct with
  | node n k cs ih =>
    obtain ⟨hpath, hpaths⟩ := pathFree
    rw [evaluateAt_node, evaluateAtOn, fold_node, Kind.evaluateOn_eq_evaluate hpath]
    refine congrArg _ (List.map_congr_left fun c hc ↦ funext fun _ ↦ ?_)
    exact ih c hc (hpaths c hc)

end Program

open Program

/-- What is left once the sides are chosen has the color that the program has on these sides. -/
theorem Chosen.evaluateOn_eq {isInside : Path → Bool} {p q : Shared R} (h : Chosen isInside p q)
    (ctx : Context R) : p.evaluateOn isInside ctx = q.evaluate ctx := by
  have hfold := h.fold_eq (fun kind answers _ ↦ kind.evaluateOn isInside ctx.samplePoint answers)
    fun path a b ↦ by
      split <;> rename_i hside <;> simp [Kind.evaluateOn, answerAt, hside]
  have hat : p.evaluateAtOn isInside ctx.samplePoint = q.evaluateAt ctx.samplePoint := by
    rw [← evaluateAtOn_eq_evaluateAt h.pathFree isInside]
    exact (congrFun hfold ()).symm
  rw [evaluateOn, hat, evaluate]

/-- Once the sides of paths are chosen in a program of a session, no path is left, every context has
a color for it, and this is the color of the program on these sides. A program without paths stays
the very same node. -/
theorem evaluate_withPathInclusion {w : Workspace R} {ps : List (Shared R)} (session : Session w ps)
    {p : Shared R} (mem : p ∈ ps) (formed : p.Formed) (isInside : Path → Bool) :
    let q := (Build.withPathInclusion isInside p w).1
    q.PathFree ∧
      (∀ ctx, ∃ color, q.evaluate ctx = .ok color ∧ p.evaluateOn isInside ctx = .ok color) ∧
      (p.PathFree → q = p) := by
  obtain ⟨nodes, hw, known⟩ := session.allKnown simplifying_true
  obtain ⟨_, -, -, -, hchosen⟩ := Build.yields_chosen isInside (known p mem) w hw
  have chosen := hchosen formed
  refine ⟨chosen.pathFree, fun ctx ↦ ?_, chosen.itself⟩
  obtain ⟨color, hcolor⟩ := exists_evaluate chosen.formed chosen.pathFree ctx
  exact ⟨color, hcolor, (chosen.evaluateOn_eq ctx).trans hcolor⟩

/-! ### Paths within paths -/

def whiteSide : Shared Float := .node 0 (.color ⟨1, 1, 1, 1⟩) []

def clearSide : Shared Float := .node 1 (.color .zero) []

def innerPath : Shared Float := .node 2 (.pathBoolean ⟨0, .nonZero⟩) [whiteSide, clearSide]

def outerPath : Shared Float := .node 3 (.pathBoolean ⟨1, .evenOdd⟩) [innerPath, whiteSide]

/-- A path on top of another one, which is also a side of it. -/
def nestedPaths : Shared Float := .node 4 .stack [innerPath, outerPath]

theorem session_nestedPaths :
    Session ⟨5, {}⟩ [nestedPaths, outerPath, innerPath, clearSide, whiteSide] := by
  have hwhite : Session ⟨1, {}⟩ [whiteSide] := .node (.color ⟨1, 1, 1, 1⟩) .start nofun
  have hclear : Session ⟨2, {}⟩ [clearSide, whiteSide] := .node (.color .zero) hwhite nofun
  have hinner : Session ⟨3, {}⟩ [innerPath, clearSide, whiteSide] :=
    .node (.pathBoolean ⟨0, .nonZero⟩) hclear (by simp)
  have houter : Session ⟨4, {}⟩ [outerPath, innerPath, clearSide, whiteSide] :=
    .node (.pathBoolean ⟨1, .evenOdd⟩) hinner (by simp)
  exact .node .stack houter (by simp)

theorem formed_nestedPaths : nestedPaths.Formed := by
  have hwhite : whiteSide.Formed := .node rfl nofun
  have hclear : clearSide.Formed := .node rfl nofun
  have hinner : innerPath.Formed := .node rfl (by simp [hwhite, hclear])
  have houter : outerPath.Formed := .node rfl (by simp [hinner, hwhite])
  exact .node trivial (by simp [hinner, houter])

/-- Of nested paths, the outer one is inside and the inner one outside. -/
theorem evaluate_nestedPaths :
    Session ⟨5, {}⟩ [nestedPaths, outerPath, innerPath, clearSide, whiteSide] ∧
    nestedPaths.Formed ∧
    let q := (Build.withPathInclusion (·.id == 1) nestedPaths ⟨5, {}⟩).1
    q.PathFree ∧
      (∀ ctx, ∃ color, q.evaluate ctx = .ok color ∧
        nestedPaths.evaluateOn (·.id == 1) ctx = .ok color) ∧
      (nestedPaths.PathFree → q = nestedPaths) :=
  ⟨session_nestedPaths, formed_nestedPaths,
    evaluate_withPathInclusion session_nestedPaths List.mem_cons_self formed_nestedPaths
      (·.id == 1)⟩

end Shading
