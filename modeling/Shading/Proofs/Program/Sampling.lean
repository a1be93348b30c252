import Shading.Code.Writer
import Shading.Proofs.Machine.Sampling
import Shading.Proofs.Program.Evaluation

/-!
# What a program reads of the position

A program samples only with the accuracies of its kinds. This is so when it is evaluated, where
samples that agree on these accuracies give the same answer (`evaluateAt_congr`), and when it is
written, where no other accuracy gets into its instructions (`samples_of_instructions`). Nothing is
asked of the program: malformed nodes fail in the same way at any sample, and what was written
before a failure samples with the same accuracies.
-/

namespace Shading

variable {ι R : Type} {used : Accuracy → Prop}

/-- The kind samples only with accuracies that are used. -/
def Kind.Samples (used : Accuracy → Prop) (kind : Kind R) : Prop :=
  ∀ accuracy, kind.accuracy? = some accuracy → used accuracy

/-! ### Evaluation -/

section

variable [ColorModel R] {sample sample' : Accuracy → Point R}
  (agree : ∀ accuracy, used accuracy → sample accuracy = sample' accuracy)

include agree

theorem Kind.evaluate_congr {kind : Kind R} (samples : kind.Samples used)
    (answers : List (Answer R)) : kind.evaluate sample answers = kind.evaluate sample' answers := by
  cases kind with
  | linearBlend | radialBlend | barycentricBlend | linearGradient | radialGradient =>
    simp only [evaluate, agree _ (samples _ rfl)]
  | _ => rfl

/-- A program is evaluated alike where it samples alike. -/
theorem Program.evaluateAt_congr {p : Program ι R} (samples : p.Everywhere (Kind.Samples used)) :
    p.evaluateAt sample = p.evaluateAt sample' := by
  induction samples with
  | @node n k cs hk _ ih =>
    rw [evaluateAt_node, evaluateAt_node, k.evaluate_congr agree hk]
    congr 1
    exact List.map_congr_left fun c hc ↦ funext fun _ ↦ ih c hc

end

/-! ### Writing -/

/-- The instructions of the draft sample only with accuracies that are used. -/
def Draft.Samples (used : Accuracy → Prop) (d : Draft) : Prop :=
  ∀ i ∈ Line.instructions d.lines.toList, i.Samples used

namespace Emit

variable {α β : Type}

/-- The writer puts no accuracy into a draft that is not used. -/
def Samples (used : Accuracy → Prop) (w : Emit R α) : Prop :=
  ∀ d : Draft, d.Samples used → (w d).2.Samples used

namespace Samples

theorem pure (a : α) : Samples used (pure a : Emit R α) := fun _ h ↦ h

theorem bind {w : Emit R α} {k : α → Emit R β} (h : Samples used w)
    (hk : ∀ a, Samples used (k a)) : Samples used (w >>= k) := fun d hd ↦
  bind_apply_snd (h d hd) fun a ↦ hk a _ (h d hd)

theorem fail (cause : LoweringError R) : Samples used (Emit.fail cause) := fun _ h ↦ h

theorem newLocation : Samples used (newLocation : Emit R Nat) := fun _ h ↦ h

theorem mark (location : Nat) : Samples used (Emit.mark location : Emit R Unit) := by
  intro d hd i hi
  refine hd i ?_
  simpa [Emit.mark, Emit.line, Line.instructions, Line.instruction?] using hi

/-- An instruction samples what it says. -/
theorem op {i : Instruction Nat} (h : i.Samples used) :
    Samples used (Emit.op i : Emit R Unit) := by
  intro d hd j hj
  have hmem : j ∈ Line.instructions d.lines.toList ∨ j = i := by
    simpa [Emit.op, Emit.line, Line.instructions, Line.instruction?, eq_comm] using hj
  rcases hmem with hmem | rfl
  · exact hd j hmem
  · exact h

/-- An instruction that takes no sample. -/
theorem opNone {i : Instruction Nat} (h : i.accuracy? = none) :
    Samples used (Emit.op i : Emit R Unit) :=
  op fun accuracy haccuracy ↦ by rw [h] at haccuracy; cases haccuracy

theorem newLocations (ws : List (Emit R Unit)) :
    Samples used (newLocations ws : Emit R (List Nat)) := by
  induction ws with
  | nil => exact pure []
  | cons w ws ih => exact newLocation.bind fun l ↦ ih.bind fun ls ↦ pure (l :: ls)

variable {ws : List (Emit R Unit)}

theorem sequence (each : ∀ w ∈ ws, Samples used w) : Samples used (Emit.sequence ws) := by
  induction ws with
  | nil => exact pure ()
  | cons w ws ih =>
    rw [List.forall_mem_cons] at each
    exact each.1.bind fun _ ↦ ih each.2

theorem blocks (each : ∀ w ∈ ws, Samples used w) (labels : List Nat) :
    Samples used (Emit.blocks (labels.zip ws)) := by
  induction ws generalizing labels with
  | nil =>
    rw [List.zip_nil_right]
    exact pure ()
  | cons w ws ih =>
    rw [List.forall_mem_cons] at each
    cases labels with
    | nil => exact pure ()
    | cons l labels =>
      exact (mark l).bind fun _ ↦ each.1.bind fun _ ↦ (opNone rfl).bind fun _ ↦ ih each.2 labels

theorem mixAndEnd (blend done : Nat) : Samples used (Emit.mixAndEnd blend done : Emit R Unit) :=
  (mark blend).bind fun _ ↦ (opNone rfl).bind fun _ ↦ mark done

/-- A blend samples for its ratio and in its branches. -/
theorem blend {instruction : Branches Nat → Instruction Nat} {first second : Emit R Unit}
    (h : ∀ places, (instruction places).Samples used) (hfirst : Samples used first)
    (hsecond : Samples used second) : Samples used (Emit.blend instruction first second) :=
  newLocation.bind fun l ↦ newLocation.bind fun l' ↦ newLocation.bind fun _ ↦
    newLocation.bind fun _ ↦ (op (h _)).bind fun _ ↦
      (blocks (List.forall_mem_cons.2 ⟨hfirst, List.forall_mem_singleton.2 hsecond⟩) [l, l']).bind
        fun _ ↦ mixAndEnd _ _

/-- A gradient samples for its ratio and in its stops. -/
theorem gradient {instruction : StopTable Nat → Instruction Nat} (ratios : List Single)
    (h : ∀ table, (instruction table).Samples used) (each : ∀ w ∈ ws, Samples used w) :
    Samples used (Emit.gradient instruction ratios ws) :=
  (newLocations ws).bind fun stops ↦ newLocation.bind fun _ ↦ newLocation.bind fun _ ↦
    (op (h _)).bind fun _ ↦ (blocks each stops).bind fun _ ↦ mixAndEnd _ _

/-- Layers sample what each of them samples. -/
theorem layersBelow (done : Nat) (each : ∀ w ∈ ws, Samples used w) :
    Samples used (Emit.layersBelow done ws) := by
  induction ws with
  | nil => exact pure ()
  | cons w ws ih =>
    rw [List.forall_mem_cons] at each
    exact (opNone rfl).bind fun _ ↦ each.1.bind fun _ ↦ (opNone rfl).bind fun _ ↦ ih each.2

theorem stack [Scalar R] [Rounding R Single] (each : ∀ w ∈ ws, Samples used w) :
    Samples used (Emit.stack ws) := by
  match ws, each with
  | [], _ => exact opNone rfl
  | [top], each => exact each top List.mem_cons_self
  | top :: _ :: _, each =>
    rw [List.forall_mem_cons] at each
    exact each.1.bind fun _ ↦ newLocation.bind fun done ↦ (layersBelow done each.2).bind fun _ ↦
      mark done

end Samples

end Emit

variable [Scalar R] [Rounding R Single]

/-- A node is written with its own accuracy and those of its children. -/
theorem Kind.samples_write {k : Kind R} (samples : k.Samples used) {ws : List (Emit R Unit)}
    (each : ∀ w ∈ ws, Emit.Samples used w) : Emit.Samples used (k.write ws) := by
  have hunary : ∀ (w : Emit R Unit) (i : Instruction Nat), i.accuracy? = none →
      Emit.Samples used w → Emit.Samples used (write.unary w i) := fun w i hi hw ↦
    hw.bind fun _ ↦ .opNone hi
  have hown : ∀ accuracy, k.accuracy? = some accuracy → ∀ i : Instruction Nat,
      i.accuracy? = some accuracy → i.Samples used := fun accuracy hk i hi accuracy' hi' ↦
    Option.some.inj (hi.symm.trans hi') ▸ samples accuracy hk
  cases k with
  | color c =>
    rw [write]
    split
    · exact .opNone rfl
    · exact .fail _
  | premultiply | unpremultiply | convert | alpha | normalize | filter =>
    match ws, each with
    | [w], each => exact hunary w _ rfl (each w List.mem_cons_self)
    | [], _ | _ :: _ :: _, _ => exact .fail _
  | phong => exact (Emit.Samples.sequence each).bind fun _ ↦ .opNone rfl
  | blendCompose =>
    match ws, each with
    | [_, _], each => exact (Emit.Samples.sequence each).bind fun _ ↦ .opNone rfl
    | [], _ | [_], _ | _ :: _ :: _ :: _, _ => exact .fail _
  | stack => exact .stack fun w hw ↦ each w (List.mem_reverse.1 hw)
  | linearBlend | radialBlend =>
    match ws, each with
    | [first, second], each =>
      rw [List.forall_mem_cons, List.forall_mem_singleton] at each
      exact .blend (fun _ ↦ hown _ rfl _ rfl) each.1 each.2
    | [], _ | [_], _ | _ :: _ :: _ :: _, _ => exact .fail _
  | linearGradient | radialGradient => exact .gradient _ (fun _ ↦ hown _ rfl _ rfl) each
  | barycentricBlend =>
    exact (Emit.Samples.sequence each).bind fun _ ↦ .op (hown _ rfl _ rfl)
  | pathBoolean => exact .fail _

namespace Program

variable {p : Program ι R}

/-- What is written for a program samples no more than its kinds do. -/
theorem samples_write (samples : p.Everywhere (Kind.Samples used)) :
    Emit.Samples used p.write := by
  induction samples with
  | @node n k cs hk _ ih =>
    rw [write, fold_node]
    refine k.samples_write hk fun w hw ↦ ?_
    obtain ⟨c, hc, rfl⟩ := List.mem_map.1 hw
    exact ih c hc

/-- The instructions of a program sample only with the accuracies of its kinds. -/
theorem samples_of_instructions (samples : p.Everywhere (Kind.Samples used)) {lines : List Line}
    (h : p.instructions = .ok lines) : ∀ i ∈ Line.instructions lines, i.Samples used := by
  have hwritten := (samples_write samples).bind (k := fun _ ↦ Emit.op .exit)
    (fun _ ↦ .opNone rfl) {} nofun
  rw [instructions] at h
  split at h
  · rename_i d hd
    obtain rfl := Except.ok.inj h
    rwa [hd] at hwritten
  · cases h

end Program

end Shading
