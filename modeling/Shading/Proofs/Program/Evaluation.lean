import Mathlib.Data.List.Basic
import Shading.Program.Evaluate
import Shading.Proofs.Gradient
import Shading.Proofs.Program.Shape

/-!
# Evaluation succeeds

A program without paths has a color at every sample, whatever the numbers are like, if its nodes
have as many children as their kinds accept, as those of a valid program do: a kind asks only for
children that it has, and only the choice between the sides of a path fails by itself.
`Program.colorAt` is this color as a total function.

What blends and gradients make of the colors of their children is always one of them, or a color
between two of them (`Picked`).
-/

namespace Shading

variable {ι R : Type}

/-! ### Answers that are all known -/

variable {colors : List (Vec4 R)}

theorem answerAt_answersOf (kind : Kind R) {i : Nat} (h : i < colors.length) :
    answerAt kind (colors.map fun c _ ↦ .ok c) i () = .ok colors[i] := by
  rw [answerAt, List.getElem?_map, List.getElem?_eq_getElem h]
  rfl

theorem allAnswers_answersOf :
    allAnswers (colors.map fun c (_ : Unit) ↦ .ok c) = .ok colors := by
  induction colors with
  | nil => rfl
  | cons c colors ih =>
    rw [List.map_cons, allAnswers, ih]
    rfl

/-- One of the colors, or a color between two of them at a ratio that fits. -/
inductive Picked [Scalar R] (fits : R → Prop) (colors : List (Vec4 R)) : Vec4 R → Prop
  | one {c : Vec4 R} : c ∈ colors → Picked fits colors c
  | between {c d : Vec4 R} {t : R} : c ∈ colors → d ∈ colors → fits t →
    Picked fits colors (c.lerp d t)

variable [ColorModel R]

/-- A blend of two colors picks one of them, or mixes both. -/
theorem exists_picked_of_blend (kind : Kind R) (t : R) (h : colors.length = 2) :
    ∃ v, blendBetween t (answerAt kind (colors.map fun c _ ↦ .ok c) 0)
        (answerAt kind (colors.map fun c _ ↦ .ok c) 1) = .ok v ∧
      Picked (fun t ↦ ¬ t ≤ 0 ∧ ¬ 1 ≤ t) colors v := by
  have hzero := answerAt_answersOf kind (i := 0) (by omega : 0 < colors.length)
  have hone := answerAt_answersOf kind (i := 1) (by omega : 1 < colors.length)
  rw [blendBetween]
  split
  · exact ⟨_, hzero, .one (List.getElem_mem _)⟩
  · split
    · exact ⟨_, hone, .one (List.getElem_mem _)⟩
    · rename_i hpos hlt
      rw [hzero, hone]
      exact ⟨_, rfl, .between (List.getElem_mem _) (List.getElem_mem _) ⟨hpos, hlt⟩⟩

/-- A gradient over colors picks one of them, or mixes two. -/
theorem exists_picked_of_gradient (kind : Kind R) {ratios : List R} (t : R)
    (h : colors.length = ratios.length) (nonempty : ratios ≠ []) :
    ∃ v, gradientAt kind (colors.map fun c _ ↦ .ok c) ratios t = .ok v ∧
      Picked (fun ratio ↦ ∃ i, Selection.select ratios t = .between i ratio) colors v := by
  have hinside := Selection.select_inside t nonempty
  rw [gradientAt]
  rcases hselect : Selection.select ratios t with i | ⟨i, ratio⟩
  · rw [hselect, ← h] at hinside
    exact ⟨_, answerAt_answersOf kind hinside, .one (List.getElem_mem _)⟩
  · rw [hselect, ← h] at hinside
    have hlt : i < colors.length := Nat.lt_of_succ_lt hinside
    simp only
    rw [answerAt_answersOf kind hlt, answerAt_answersOf kind hinside]
    exact ⟨_, rfl, .between (List.getElem_mem _) (List.getElem_mem _) ⟨i, rfl⟩⟩

/-- Layers that are all there can be covered. -/
theorem exists_coverLayers (top : Vec4 R) (below : List (Vec4 R)) :
    ∃ v, coverLayers top (below.map fun c _ ↦ .ok c) = .ok v := by
  induction below generalizing top with
  | nil => exact ⟨top, rfl⟩
  | cons c below ih =>
    rw [List.map_cons, coverLayers]
    split
    · exact ⟨top, rfl⟩
    · exact ih _

/-! ### One node -/

namespace Kind

variable {kind : Kind R} (sample : Accuracy → Point R)

/-- A kind computed from the values of all its children. -/
theorem evaluate_of_pointwise {v : Vec4 R} (h : kind.pointwise? colors = some v) :
    kind.evaluate sample (colors.map fun c _ ↦ .ok c) = .ok v := by
  cases kind with
  | linearBlend | radialBlend | barycentricBlend | linearGradient | radialGradient | stack
  | pathBoolean => cases h
  | color | premultiply | unpremultiply | convert | alpha | normalize | filter | phong
  | blendCompose =>
    refine bind_eq_ok_iff.2 ⟨colors, allAnswers_answersOf, ?_⟩
    rw [h]
    rfl

/-- A kind with as many children as it accepts has a color, if it is not a path. -/
theorem exists_evaluate (accepts : kind.Accepts colors.length)
    (pathless : kind.isPathBoolean = false) :
    ∃ v, kind.evaluate sample (colors.map fun c _ ↦ .ok c) = .ok v := by
  cases kind with
  | linearBlend | radialBlend =>
    obtain ⟨v, hv, -⟩ := exists_picked_of_blend _ _ accepts
    exact ⟨v, hv⟩
  | barycentricBlend =>
    obtain ⟨a, b, c, rfl⟩ := List.length_eq_three.1 (show colors.length = 3 from accepts)
    exact ⟨_, rfl⟩
  | linearGradient =>
    obtain ⟨hlength, hpos, -⟩ := accepts
    obtain ⟨v, hv, -⟩ := exists_picked_of_gradient _ _ hlength
      (List.ne_nil_of_length_pos (by omega))
    exact ⟨v, hv⟩
  | radialGradient =>
    obtain ⟨hlength, hpos, -⟩ := accepts
    rw [evaluate]
    split
    · exact ⟨_, rfl⟩
    · obtain ⟨v, hv, -⟩ := exists_picked_of_gradient _ _ hlength
        (List.ne_nil_of_length_pos (by omega))
      exact ⟨v, hv⟩
  | stack =>
    rw [evaluate, ← List.map_reverse]
    rcases colors.reverse with - | ⟨top, below⟩
    · exact ⟨_, rfl⟩
    · exact exists_coverLayers top below
  | pathBoolean => cases pathless
  | color c => exact ⟨c, evaluate_of_pointwise sample rfl⟩
  | premultiply | unpremultiply | convert | alpha | normalize | filter =>
    obtain ⟨a, rfl⟩ := List.length_eq_one_iff.1 accepts
    exact ⟨_, evaluate_of_pointwise sample rfl⟩
  | blendCompose =>
    obtain ⟨a, b, rfl⟩ := List.length_eq_two.1 accepts
    exact ⟨_, evaluate_of_pointwise sample rfl⟩
  | phong shininess =>
    obtain ⟨v, hv⟩ := exists_phong shininess accepts.1
    exact ⟨v, evaluate_of_pointwise sample hv⟩

end Kind

/-! ### Programs -/

namespace Program

variable (sample : Accuracy → Point R)

/-- A node is evaluated from the evaluations of its children. -/
theorem evaluateAt_node (n : ι) (k : Kind R) (cs : List (Program ι R)) :
    (node n k cs).evaluateAt sample =
      k.evaluate sample (cs.map fun c _ ↦ c.evaluateAt sample) := by
  rw [evaluateAt, fold_node]
  rfl

/-- The color of a program at a sample, transparent where it has none. -/
def colorAt (p : Program ι R) : Vec4 R :=
  match p.evaluateAt sample with
  | .ok v => v
  | .error _ => .zero

variable {sample} {p : Program ι R}

/-- A color that is the result of evaluating is the color. -/
theorem colorAt_of_evaluateAt {v : Vec4 R} (h : p.evaluateAt sample = .ok v) :
    p.colorAt sample = v := by
  rw [colorAt, h]

/-- A constant has its color. -/
theorem colorAt_color (n : ι) (c : Vec4 R) :
    (node n (.color c) [] : Program ι R).colorAt sample = c := by
  refine colorAt_of_evaluateAt ?_
  rw [evaluateAt_node]
  rfl

/-- If children have their colors, these are the answers. -/
theorem answers_eq_colorAt {cs : List (Program ι R)}
    (h : ∀ c ∈ cs, c.evaluateAt sample = .ok (c.colorAt sample)) :
    (cs.map fun c (_ : Unit) ↦ c.evaluateAt sample) =
      (cs.map (colorAt sample)).map fun c _ ↦ .ok c := by
  rw [List.map_map]
  exact List.map_congr_left fun c hc ↦ funext fun _ ↦ h c hc

/-- A program without paths, whose nodes have as many children as their kinds accept, has a color at
every sample. -/
theorem evaluateAt_eq_colorAt (formed : p.Formed) (pathFree : p.PathFree) :
    p.evaluateAt sample = .ok (p.colorAt sample) := by
  induction p using Program.induct with
  | node n k cs ih =>
    obtain ⟨haccepts, hchildren⟩ := formed
    obtain ⟨hpath, hpaths⟩ := pathFree
    have hanswers := answers_eq_colorAt fun c hc ↦ ih c hc (hchildren c hc) (hpaths c hc)
    rw [← List.length_map (colorAt sample)] at haccepts
    obtain ⟨v, hv⟩ := Kind.exists_evaluate sample haccepts hpath
    have hnode : (node n k cs).evaluateAt sample = .ok v := by
      rw [evaluateAt_node, hanswers, hv]
    rw [hnode, colorAt_of_evaluateAt hnode]

/-- Such a program has a color in every context. -/
theorem exists_evaluate (formed : p.Formed) (pathFree : p.PathFree) (ctx : Context R) :
    ∃ color, p.evaluate ctx = .ok color := by
  rw [evaluate, evaluateAt_eq_colorAt formed pathFree]
  exact ⟨_, rfl⟩

/-- The color of a node is computed from the colors of its children. -/
theorem evaluate_colorAt {n : ι} {k : Kind R} {cs : List (Program ι R)}
    (valid : (node n k cs).Valid) (pathFree : (node n k cs).PathFree) :
    k.evaluate sample ((cs.map (colorAt sample)).map fun c _ ↦ .ok c) =
      .ok ((node n k cs).colorAt sample) := by
  rw [← evaluateAt_eq_colorAt valid.formed pathFree, evaluateAt_node]
  obtain ⟨-, hchildren⟩ := valid.formed
  obtain ⟨-, hpaths⟩ := pathFree
  rw [answers_eq_colorAt fun c hc ↦ evaluateAt_eq_colorAt (hchildren c hc) (hpaths c hc)]

/-- A node has the color that its kind makes of the colors of its children. -/
theorem colorAt_of_evaluate {n : ι} {k : Kind R} {cs : List (Program ι R)}
    (valid : (node n k cs).Valid) (pathFree : (node n k cs).PathFree)
    (hcolors : cs.map (colorAt sample) = colors) {v : Vec4 R}
    (h : k.evaluate sample (colors.map fun c _ ↦ .ok c) = .ok v) :
    (node n k cs).colorAt sample = v := by
  subst hcolors
  exact Except.ok.inj ((evaluate_colorAt valid pathFree).symm.trans h)

end Program

end Shading
