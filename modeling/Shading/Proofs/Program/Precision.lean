import Shading.Program.Evaluate

/-!
# Evaluation in a given precision

A machine does not compute with the numbers of a program but with the operands of its instructions,
which are stored as narrower numbers, and it may also shorten the values that it keeps on its stack.
`Program.evaluateIn` is the evaluation of a program under these two effects: every number that an
instruction holds is passed through `Precision.store` in the form in which the instruction holds it
(an inverse map, a displacement, a reciprocal determinant), and every value that an instruction
leaves is passed through `Precision.keep`.

With neither effect it is plain evaluation (`evaluateIn_exact`). The color of a stack without layers
is an operand as well, a zero that is stored.
-/

namespace Shading

/-- What a machine makes of operands and of values. -/
structure Precision (R : Type) where
  /-- The operand that is read where a number was stored. -/
  store : R → R
  /-- The value that is kept where one was computed. -/
  keep : Vec4 R → Vec4 R

namespace Precision

variable {R : Type}

/-- Nothing is lost. -/
def exact : Precision R := ⟨fun a ↦ a, fun v ↦ v⟩

/-- Operands are stored in single precision, and values are kept as they are. -/
def stored [Rounding R Single] : Precision R := ⟨fun a ↦ widen (narrow a : Single), fun v ↦ v⟩

end Precision

variable {R : Type} [ColorModel R]

/-- The kind with its operands as they are stored, if these are the parameters themselves. -/
def Kind.withOperands (store : R → R) : Kind R → Kind R
  | .color c => .color (c.map store)
  | .alpha factor => .alpha (store factor)
  | .filter m => .filter (m.map store)
  | .phong shininess => .phong (store shininess)
  | kind => kind

/-- Between two answers by a clamped ratio that is kept while they are computed. -/
def blendBetweenIn (pr : Precision R) (t : R) (zero one : Answer R) :
    Except EvaluationError (Vec4 R) := do
  if t ≤ 0 then zero ()
  else if 1 ≤ t then one ()
  else return pr.keep ((← zero ()).lerp (← one ()) (pr.keep (.splat t)).x)

/-- The color at a ratio of a gradient, from one or two of its stops. -/
def gradientIn (pr : Precision R) (kind : Kind R) (answers : List (Answer R)) (ratios : List R)
    (t : R) : Except EvaluationError (Vec4 R) := do
  match Selection.select ratios t with
  | .single i => answerAt kind answers i ()
  | .between i ratio =>
    return pr.keep ((← answerAt kind answers i ()).lerp (← answerAt kind answers (i + 1) ())
      (pr.keep (.splat ratio)).x)

/-- A color with further layers below it, up to the first opaque result. -/
def coverLayersIn (pr : Precision R) (top : Vec4 R) :
    List (Answer R) → Except EvaluationError (Vec4 R)
  | [] => .ok top
  | layer :: below =>
    if isOpaqueAlpha top.w then .ok top
    else do coverLayersIn pr (pr.keep (stackBlend top (← layer ()))) below

/-- The premultiplied color of a node, from the answers of its children. -/
def Kind.evaluateIn (pr : Precision R) (sample : Accuracy → Point R) (kind : Kind R)
    (answers : List (Answer R)) : Except EvaluationError (Vec4 R) := do
  match kind with
  | .linearBlend ramp accuracy =>
    blendBetweenIn pr ((ramp.map pr.store).ratio (sample accuracy)) (answerAt kind answers 0)
      (answerAt kind answers 1)
  | .radialBlend transform radius0 radius1 accuracy =>
    let ramp : RadialRamp R := ⟨transform.inverse, radius0, radius1⟩
    blendBetweenIn pr ((ramp.map pr.store).ratio (sample accuracy)) (answerAt kind answers 0)
      (answerAt kind answers 1)
  | .barycentricBlend corners depths accuracy =>
    let w := ((Triangle.ofCorners corners depths).map pr.store).weights (sample accuracy)
    let a ← answerAt kind answers 0 ()
    let b ← answerAt kind answers 1 ()
    let c ← answerAt kind answers 2 ()
    return pr.keep (a * w.a + b * w.b + c * w.c)
  | .linearGradient transform start stop ratios extend accuracy =>
    let t := ((linearAxis transform start stop).map pr.store).ratio (sample accuracy)
    gradientIn pr kind answers (ratios.map pr.store) (extend.apply t)
  | .radialGradient transform start startRadius stop stopRadius ratios extend accuracy =>
    match ((circlePair transform start startRadius stop stopRadius).map pr.store).ratio?
        (sample accuracy) with
    | none => return pr.keep .zero
    | some t => gradientIn pr kind answers (ratios.map pr.store) (extend.apply t)
  | .stack =>
    match answers.reverse with
    | [] => return pr.keep (Vec4.zero.map pr.store)
    | top :: below => coverLayersIn pr (← top ()) below
  | .pathBoolean path => throw (.unresolvedPath path.id)
  | kind =>
    match (kind.withOperands pr.store).pointwise? (← allAnswers answers) with
    | some value => return pr.keep value
    | none => throw (.malformed kind.name)

namespace Program

variable {ι : Type}

/-- The premultiplied color of a program at a sample, in a given precision. -/
def evaluateAtIn (pr : Precision R) (sample : Accuracy → Point R) (p : Program ι R) :
    Except EvaluationError (Vec4 R) :=
  p.fold (fun kind answers _ ↦ kind.evaluateIn pr sample answers) ()

/-- The color of a program in a context, in a given precision. -/
def evaluateIn (pr : Precision R) (ctx : Context R) (p : Program ι R) :
    Except EvaluationError (Vec4 R) := do
  let value ← p.evaluateAtIn pr ctx.samplePoint
  return if ctx.premultiplied then value else unpremultiply value

/-- A node is evaluated by its kind, in any precision. -/
theorem evaluateAtIn_node (pr : Precision R) (sample : Accuracy → Point R) (n : ι) (k : Kind R)
    (cs : List (Program ι R)) :
    (node n k cs).evaluateAtIn pr sample =
      k.evaluateIn pr sample (cs.map fun c _ ↦ c.evaluateAtIn pr sample) := by
  rw [evaluateAtIn, fold_node]
  rfl

end Program

/-! ### Without loss -/

theorem coverLayersIn_exact (top : Vec4 R) (layers : List (Answer R)) :
    coverLayersIn .exact top layers = coverLayers top layers := by
  induction layers generalizing top with
  | nil => rfl
  | cons layer below ih =>
    rw [coverLayersIn, coverLayers]
    simp only [ih]
    rfl

/-- Without rounding, a kind is evaluated as it is. -/
theorem Kind.evaluateIn_exact (sample : Accuracy → Point R) (k : Kind R)
    (answers : List (Answer R)) :
    k.evaluateIn .exact sample answers = k.evaluate sample answers := by
  have hratios : ∀ ratios : List R, ratios.map (Precision.exact (R := R)).store = ratios :=
    fun ratios ↦ List.map_id ratios
  have hdepths : ∀ (corners : Triple (Point R)) (depths : Option (Triple R)),
      (Triangle.ofCorners corners depths).map (Precision.exact (R := R)).store =
        Triangle.ofCorners corners depths := by
    intro corners depths
    rcases depths with - | z <;> rfl
  cases k with
  | barycentricBlend corners depths accuracy =>
    rw [evaluateIn, evaluate, hdepths]
    rfl
  | linearGradient => rw [evaluateIn, evaluate, hratios]; rfl
  | radialGradient =>
    rw [evaluateIn, evaluate]
    simp only [hratios]
    rfl
  | stack =>
    rw [evaluateIn, evaluate]
    simp only [coverLayersIn_exact]
    rfl
  | _ => rfl

/-- With nothing lost, evaluation in a precision is plain evaluation. -/
theorem Program.evaluateIn_exact {ι : Type} (ctx : Context R) (p : Program ι R) :
    p.evaluateIn .exact ctx = p.evaluate ctx := by
  have h : (fun kind answers (_ : Unit) ↦ Kind.evaluateIn .exact ctx.samplePoint kind answers) =
      fun kind answers (_ : Unit) ↦ Kind.evaluate ctx.samplePoint kind answers :=
    funext fun k ↦ funext fun answers ↦ funext fun _ ↦ k.evaluateIn_exact _ answers
  rw [evaluateIn, evaluateAtIn, h]
  rfl

end Shading
