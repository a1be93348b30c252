import Shading.Proofs.Program.Reduced
import Shading.Proofs.Program.Writing

/-!
# What programs are written to

Writing a program fails exactly where it has to: at a side of a path that is still to be chosen,
and at a constant that is not finite. Otherwise the list is fit for all that is done with it. It
ends in its only exit, every location that was taken is marked once, jumps lead ahead to marks
before the exit, and stops are complete (`Line.WellFormed`). So it is linked; and it is encoded
unless it is too long or some surface has more lights than a word can hold.

Of the program only the numbers of children matter (`Program.Formed`). The constructors check them,
and whatever else they let through, such as a constant that is not finite, is covered
(`Program.Constructed.formed`).
-/

namespace Shading

variable {ι R : Type}

/-- A list as programs are written to. -/
structure Line.WellFormed (lines : List Line) : Prop where
  /-- There is one exit, at the end, and jumps lead to later marks in front of it. -/
  exit : ∃ block, lines = block ++ [.op .exit] ∧ .exit ∉ instructions block ∧ Ahead block
  /-- The locations are numbered from zero, and each of them is marked once. -/
  marks : ∃ n, (marks lines).Perm (List.range n)
  complete : ∀ i ∈ instructions lines, ∀ table, i.table? = some table → table.Complete

namespace Program

/-- A condition holds everywhere exactly if it holds of all parts. -/
theorem everywhere_iff_forall_part {fits : Kind R → Prop} {p : Program ι R} :
    p.Everywhere fits ↔ ∀ q : Program ι R, q.Part p → fits q.kind := by
  induction p using Program.induct with
  | node n k cs ih =>
    refine ⟨fun ⟨hk, hcs⟩ q hq ↦ ?_, fun h ↦ .node (h _ (.refl _)) fun c hc ↦ ?_⟩
    · rcases part_node.1 hq with rfl | ⟨c, hc, hq⟩
      · exact hk
      · exact (ih c hc).1 (hcs c hc) q hq
    · exact (ih c hc).2 fun q hq ↦ h q (.child hc hq)

/-- Programs as the constructors make them: constants are not checked, all other nodes are. -/
inductive Constructed [Scalar R] : Program ι R → Prop
  | color (n : ι) (value : Vec4 R) : Constructed (.node n (.color value) [])
  | checked {n : ι} {k : Kind R} {cs : List (Program ι R)} :
    k.validate cs.length = .ok () → (∀ c ∈ cs, Constructed c) → Constructed (.node n k cs)

/-- A constructed program is formed. -/
theorem Constructed.formed [Scalar R] {p : Program ι R} (h : p.Constructed) : p.Formed := by
  induction h with
  | color n value => exact .node rfl (List.forall_mem_nil _)
  | checked hvalid _ ih => exact .node (Kind.accepts_of_validate hvalid) ih

end Program

/-- What cannot be written is a choice of sides or a constant that is not finite. -/
theorem Kind.not_writable_iff [Scalar R] {k : Kind R} :
    ¬ k.Writable ↔ k.isPathBoolean = true ∨ ∃ c, k = .color c ∧ c.isFinite = false := by
  cases k <;> simp [Writable, isPathBoolean]

namespace Program

variable [ColorModel R] [Rounding R Single] {p : Program ι R} {lines : List Line}

/-- A program is written exactly if each of its nodes can be. -/
theorem exists_instructions_iff (formed : p.Formed) :
    (∃ lines, p.instructions = .ok lines) ↔ p.Everywhere Kind.Writable := by
  refine ⟨fun ⟨lines, h⟩ ↦ (written_of_instructions formed h).writable, fun writable ↦ ?_⟩
  obtain ⟨block, hi, h⟩ := exists_lowered_of_writable formed writable 0
  exact ⟨_, instructions_of_lowered h⟩

/-- The tables that are written are complete. -/
theorem Written.complete (h : p.Written lines) {i : Instruction Nat} {table : StopTable Nat}
    (hi : i ∈ Line.instructions lines) (htable : i.table? = some table) : table.Complete := by
  have hexit : i ≠ .exit := by
    rintro rfl
    cases htable
  exact (h.regular i hi hexit).complete table htable

/-- What is written is well formed. -/
theorem Written.wellFormed (h : p.Written lines) : Line.WellFormed lines where
  exit := by
    obtain ⟨⟨block, hi, lowered, hlines, hexit⟩⟩ := h
    exact ⟨block, hlines, hexit, lowered.marked.ahead⟩
  marks := h.marks
  complete _ hi _ htable := h.complete hi htable

/-- What is written is linked. -/
theorem Written.exists_link (h : p.Written lines) : ∃ linked, link lines = .ok linked := by
  obtain ⟨⟨block, hi, lowered, rfl, -⟩⟩ := h
  exact ⟨_, link_of_lowered lowered⟩

/-- What is written is encoded unless it is too long or has too many lights. -/
theorem Written.exists_encode (h : p.Written lines) (lights : ∀ n, p.Lights n → n < 2 ^ 24)
    (fits : Line.extent lines < addressSpace) : ∃ words, encode lines = .ok words := by
  refine exists_encode_iff.2 ⟨h.exists_link, fun cause hobstacle ↦ ?_⟩
  cases hobstacle with
  | noExit hlast =>
    obtain ⟨⟨block, hi, -, rfl, -⟩⟩ := h
    exact hlast (by simp)
  | tooLong hlong => exact Nat.not_lt.2 hlong fits
  | operands hi hfault =>
    cases hfault with
    | stopCount hsome hincomplete => exact hincomplete (h.complete hi hsome)
    | lightCount hlights =>
      exact Nat.not_lt.2 hlights (lights _ ((h.regular _ hi (by simp)).lit _ _ rfl))

/-- A program fails to be written exactly if it has a side of a path to choose or a constant that is
not finite. Otherwise what is written is well formed and linked, and it is encoded if the numbers of
its lights fit into 24 bits and the length of the list into a word. -/
theorem instructions_wellFormed (formed : p.Formed) :
    ((∃ cause, p.instructions = .error cause) ↔ ∃ q : Program ι R, q.Part p ∧
      (q.kind.isPathBoolean = true ∨ ∃ c, q.kind = .color c ∧ c.isFinite = false)) ∧
    ∀ lines, p.instructions = .ok lines →
      Line.WellFormed lines ∧ (∃ linked, link lines = .ok linked) ∧
        ((∀ n, p.Lights n → n ≤ 2 ^ 24 - 1) → Line.extent lines < addressSpace →
          ∃ words, encode lines = .ok words) := by
  refine ⟨?_, fun lines h ↦ ?_⟩
  · have hfails : (∃ cause, p.instructions = .error cause) ↔
        ¬ ∃ lines, p.instructions = .ok lines := by
      cases p.instructions <;> simp
    rw [hfails, exists_instructions_iff formed, everywhere_iff_forall_part]
    simp only [not_forall, Kind.not_writable_iff, exists_prop]
  · have hwritten := written_of_instructions formed h
    exact ⟨hwritten.wellFormed, hwritten.exists_link, fun lights fits ↦
      hwritten.exists_encode (fun n hn ↦ Nat.lt_of_le_pred (by decide) (lights n hn)) fits⟩

/-- A blend of two constants. -/
def clearBlend : Tree Float :=
  .node () (.linearBlend ⟨⟨1, 0⟩, 0⟩ .splitCentroid)
    [.node () (.color .zero) [], .node () (.color .zero) []]

/-- A constant above a gradient, whose stops are the same blend. -/
def fadedBlends (top : Vec4 Float) : Tree Float :=
  .node () .stack
    [.node () (.linearGradient ⟨1, 0, 0, 1, 0, 0⟩ ⟨0, 0⟩ ⟨1, 0⟩ [0, 1] .pad .splitCentroid)
      [clearBlend, clearBlend],
    .node () (.color top) []]

/-- The blends and the gradient pass their checks. -/
theorem constructed_fadedBlends (top : Vec4 Float) : (fadedBlends top).Constructed := by
  have hblend : clearBlend.Constructed :=
    .checked rfl (List.forall_mem_cons.2 ⟨.color () _, List.forall_mem_singleton.2 (.color () _)⟩)
  refine .checked rfl (List.forall_mem_cons.2 ⟨.checked rfl ?_, ?_⟩)
  · exact List.forall_mem_cons.2 ⟨hblend, List.forall_mem_singleton.2 hblend⟩
  · exact List.forall_mem_singleton.2 (.color () top)

/-- Every node can be written, and none lights a surface. -/
theorem everywhere_fadedBlends :
    (fadedBlends .zero).Everywhere fun k ↦ k.Writable ∧ ∀ shininess, k ≠ .phong shininess := by
  have hcolor : (node () (.color .zero) [] : Tree Float).Everywhere
      fun k ↦ k.Writable ∧ ∀ shininess, k ≠ .phong shininess :=
    .node ⟨rfl, by simp⟩ (List.forall_mem_nil _)
  have hblend : clearBlend.Everywhere fun k ↦ k.Writable ∧ ∀ shininess, k ≠ .phong shininess :=
    .node ⟨trivial, by simp⟩
      (List.forall_mem_cons.2 ⟨hcolor, List.forall_mem_singleton.2 hcolor⟩)
  refine .node ⟨trivial, by simp⟩ (List.forall_mem_cons.2 ⟨.node ⟨trivial, by simp⟩ ?_, ?_⟩)
  · exact List.forall_mem_cons.2 ⟨hblend, List.forall_mem_singleton.2 hblend⟩
  · exact List.forall_mem_singleton.2 hcolor

/-- With a transparent top the blends are written, and with an infinite one they are not. -/
theorem instructions_fadedBlends :
    (∀ top, (fadedBlends top).Formed) ∧
      (∃ cause, (fadedBlends (.splat (1 / 0))).instructions = .error cause) ∧
      ∃ lines linked, (fadedBlends .zero).instructions = .ok lines ∧ Line.WellFormed lines ∧
        link lines = .ok linked ∧
        (Line.extent lines < addressSpace → ∃ words, encode lines = .ok words) := by
  have formed (top : Vec4 Float) := (constructed_fadedBlends top).formed
  have parts := everywhere_iff_forall_part.1 everywhere_fadedBlends
  refine ⟨formed, ?_, ?_⟩
  · refine (instructions_wellFormed (formed _)).1.2 ⟨.node () (.color (.splat (1 / 0))) [], ?_, ?_⟩
    · exact .child (List.mem_cons_of_mem _ List.mem_cons_self) (.refl _)
    · exact .inr ⟨_, rfl, rfl⟩
  · obtain ⟨lines, h⟩ := (exists_instructions_iff (formed .zero)).2
      (everywhere_iff_forall_part.2 fun q hq ↦ (parts q hq).1)
    obtain ⟨hwellFormed, ⟨linked, hlinked⟩, hencode⟩ :=
      (instructions_wellFormed (formed .zero)).2 lines h
    have unlit : ∀ n, (fadedBlends .zero).Lights n → n ≤ 2 ^ 24 - 1 :=
      fun n ⟨q, shininess, hq, hphong, _⟩ ↦ absurd hphong ((parts q hq).2 shininess)
    exact ⟨lines, linked, h, hwellFormed, hlinked, hencode unlit⟩

end Program

end Shading
