import Shading.Context
import Shading.Program.Basic

/-!
# Evaluation

The color of a program at a sample, straight from its tree. The instructions of a program are held
against this definition.

Shape decisions: a kind computes with its parameters in the form that `Ramp` fixes, from answers of
its children that are only asked for where they are needed. The answer of a child is therefore a
suspended one (`Answer`), and the answers of a node's children are a list of them. An evaluation
fails only where a path has not been resolved, or where a kind has the wrong number of children.
-/

namespace Shading

/-- Why a program has no color. -/
inductive EvaluationError where
  | unresolvedPath (id : Nat)
  /-- The kind lacks children. -/
  | malformed (kind : String)
deriving DecidableEq, Repr

def EvaluationError.message : EvaluationError → String
  | .unresolvedPath id => s!"path boolean for path {id} must be resolved before evaluation"
  | .malformed kind => s!"cannot evaluate {kind}"

/-- The suspended answer of a program. -/
abbrev Answer (R : Type) := Unit → Except EvaluationError (Vec4 R)

variable {R : Type} [ColorModel R]

/-- The value of a kind that does not depend on the sample, from the values of all its children. -/
def Kind.pointwise? : Kind R → List (Vec4 R) → Option (Vec4 R)
  | .color c, _ => some c
  | .premultiply, [a] => some (Shading.premultiply a)
  | .unpremultiply, [a] => some (Shading.unpremultiply a)
  | .convert conversion, [a] => some (ColorModel.convert conversion a)
  | .alpha factor, [a] => some (a * factor)
  | .normalize, [a] => some a.normalized
  | .filter m, [a] => some (m.apply a)
  | .phong shininess, inputs => phong? shininess inputs
  | .blendCompose compose blend, [a, b] => some (Shading.blendCompose a b compose blend)
  | _, _ => none

/-- Between two answers by a clamped ratio; at the ends the other side is not asked for. -/
def blendBetween (t : R) (zero one : Answer R) : Except EvaluationError (Vec4 R) := do
  if t ≤ 0 then zero ()
  else if 1 ≤ t then one ()
  else return (← zero ()).lerp (← one ()) t

/-- The answer with an index, if there is one. -/
def answerAt (kind : Kind R) (answers : List (Answer R)) (i : Nat) : Answer R := fun _ ↦
  match answers[i]? with
  | some answer => answer ()
  | none => .error (.malformed kind.name)

/-- The color at a ratio of a gradient, from one or two of its stops. -/
def gradientAt (kind : Kind R) (answers : List (Answer R)) (ratios : List R) (t : R) :
    Except EvaluationError (Vec4 R) := do
  match Selection.select ratios t with
  | .single i => answerAt kind answers i ()
  | .between i ratio =>
    return (← answerAt kind answers i ()).lerp (← answerAt kind answers (i + 1) ()) ratio

/-- A color with further layers below it, the nearest first, up to the first opaque result. -/
def coverLayers (top : Vec4 R) : List (Answer R) → Except EvaluationError (Vec4 R)
  | [] => .ok top
  | layer :: below =>
    if isOpaqueAlpha top.w then .ok top
    else do coverLayers (stackBlend top (← layer ())) below

/-- All answers, in order. -/
def allAnswers : List (Answer R) → Except EvaluationError (List (Vec4 R))
  | [] => .ok []
  | answer :: rest => do return (← answer ()) :: (← allAnswers rest)

namespace Kind

/-- The premultiplied color of a node at a sample, from the answers of its children. -/
def evaluate (sample : Accuracy → Point R) (kind : Kind R) (answers : List (Answer R)) :
    Except EvaluationError (Vec4 R) := do
  match kind with
  | .linearBlend ramp accuracy =>
    blendBetween (ramp.ratio (sample accuracy)) (answerAt kind answers 0) (answerAt kind answers 1)
  | .radialBlend transform radius0 radius1 accuracy =>
    let ramp : RadialRamp R := ⟨transform.inverse, radius0, radius1⟩
    blendBetween (ramp.ratio (sample accuracy)) (answerAt kind answers 0) (answerAt kind answers 1)
  | .barycentricBlend corners depths accuracy =>
    let w := (Triangle.ofCorners corners depths).weights (sample accuracy)
    let a ← answerAt kind answers 0 ()
    let b ← answerAt kind answers 1 ()
    let c ← answerAt kind answers 2 ()
    return a * w.a + b * w.b + c * w.c
  | .linearGradient transform start stop ratios extend accuracy =>
    let t := (linearAxis transform start stop).ratio (sample accuracy)
    gradientAt kind answers ratios (extend.apply t)
  | .radialGradient transform start startRadius stop stopRadius ratios extend accuracy =>
    match (circlePair transform start startRadius stop stopRadius).ratio? (sample accuracy) with
    | none => return .zero
    | some t => gradientAt kind answers ratios (extend.apply t)
  | .stack =>
    match answers.reverse with
    | [] => return .zero
    | top :: below => coverLayers (← top ()) below
  | .pathBoolean path => throw (.unresolvedPath path.id)
  | kind =>
    match kind.pointwise? (← allAnswers answers) with
    | some value => return value
    | none => throw (.malformed kind.name)

end Kind

namespace Program

variable {ι : Type}

/-- The premultiplied color of a program at a sample. -/
def evaluateAt (sample : Accuracy → Point R) (p : Program ι R) :
    Except EvaluationError (Vec4 R) :=
  p.fold (fun kind answers _ ↦ kind.evaluate sample answers) ()

/-- The color of a program in a context, premultiplied or not as the context asks. -/
def evaluate (ctx : Context R) (p : Program ι R) : Except EvaluationError (Vec4 R) := do
  let value ← p.evaluateAt ctx.samplePoint
  return if ctx.premultiplied then value else unpremultiply value

end Program

end Shading
