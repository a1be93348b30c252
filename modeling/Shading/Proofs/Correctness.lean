import Shading.Proofs.Program.Lowering

/-!
# Correctness of compilation

A valid program without paths is written, linked and executed, and what the machine answers is the
color of the program evaluated with its operands as they are stored. Neither step can fail on such a
program, and how far the limits have to reach is said by the program: the depths of the stacks are
its resources, and no instruction is executed twice.
-/

namespace Shading

open Machine

variable {ι R : Type} [ColorModel R] [Rounding R Single]

namespace Program

variable {p : Program ι R} {block : List Line} {hi : Nat}

/-- A lowered program is written as its block and an exit. -/
theorem instructions_of_lowered (h : p.Lowered 0 block hi) :
    p.instructions = .ok (block ++ [.op .exit]) := by
  have hwrites := h.writes.bind (Emit.writes_line (.op .exit) hi) #[]
  rw [instructions, show (do p.write; Emit.op .exit : Emit R Unit) ⟨#[], 0⟩ = _ from hwrites]
  simp

/-- The code that a block is linked to behind an exit. -/
def blockCode (block : List Line) : Array (Instruction Nat) :=
  ((Line.instructions (block ++ [.op .exit])).map
    (·.map (resolveIn (block ++ [.op .exit])))).toArray

/-- The exit is one more instruction. -/
theorem size_blockCode : (blockCode block).size = Line.count block + 1 := by
  simp [blockCode, Line.count]

/-- A block is linked to its code. -/
theorem link_of_lowered (h : p.Lowered 0 block hi) :
    link (block ++ [.op .exit]) = .ok ⟨blockCode block⟩ := by
  have hmarked := h.marked.append (.op (i := .exit) rfl hi)
  exact link_eq_ok hmarked.nodup hmarked.ahead

/-- The machine runs through the block, executing nothing twice, and is at the exit with the value
that the block delivers. -/
theorem runs_of_lowered (h : p.Lowered 0 block hi) (env : Environment R) {limits : Limits}
    (stack : p.resources.stackDepth ≤ limits.stackDepth)
    (returns : p.resources.returnDepth ≤ limits.returnDepth) :
    ∃ v visited, p.answerIn env = .ok v ∧
      Runs limits env ⟨blockCode block⟩ {} visited ⟨Line.count block, ⟨[v], []⟩⟩ ∧
      Within 0 (Line.count block) visited ∧
      advance limits env ⟨blockCode block⟩ ⟨Line.count block, ⟨[v], []⟩⟩ = .halted ⟨[v], []⟩ := by
  have hmarked := h.marked.append (.op (i := .exit) rfl hi)
  have hplaced : Placed (blockCode block) (resolveIn (block ++ [.op .exit])) 0
      (block ++ [.op .exit]) := placed_linked hmarked.nodup
  obtain ⟨hblock, hexit, -⟩ := placed_append.1 hplaced
  rw [Nat.zero_add] at hexit
  have hfits : Fits limits p.resources ([] : List (Vec4 R)) [] := by
    simpa [Fits] using ⟨stack, returns⟩
  obtain ⟨v, visited, hv, -, hruns, hwithin⟩ := h.delivers env hblock hfits
  rw [Nat.zero_add] at hruns hwithin
  refine ⟨v, visited, hv, hruns, hwithin, ?_⟩
  rw [advance, show (blockCode block)[Line.count block]? = _ from hexit]
  rfl

/-- The machine answers with the value that the block delivers. -/
theorem executeIn_of_lowered (h : p.Lowered 0 block hi) (env : Environment R) {limits : Limits}
    (stack : p.resources.stackDepth ≤ limits.stackDepth)
    (returns : p.resources.returnDepth ≤ limits.returnDepth)
    (iterations : (blockCode block).size ≤ limits.iterations) :
    ∃ v, p.answerIn env = .ok v ∧
      executeIn limits env ⟨blockCode block⟩ =
        .ok (if env.premultiplied then v else Shading.unpremultiply v) := by
  obtain ⟨v, visited, hv, hruns, hwithin, hhalt⟩ := runs_of_lowered h env stack returns
  have hlength : visited.length ≤ Line.count block := hwithin.length_le
  have hsteps : visited.length + 1 ≤ limits.iterations := by
    rw [size_blockCode] at iterations
    omega
  obtain ⟨rest, hrest⟩ := Nat.exists_eq_add_of_le hsteps
  have hrun : run limits env ⟨blockCode block⟩ limits.iterations {} = .ok ⟨[v], []⟩ := by
    rw [hrest, Nat.add_assoc, run_of_runs hruns, Nat.add_comm, run, hhalt]
  refine ⟨v, hv, ?_⟩
  rw [executeIn, hrun]
  rfl

/-- A valid program without paths is written as a list that can be linked, and the machine, if its
limits admit the resources of the program and one step for each instruction, answers with the color
of the program. -/
theorem execute_instructions (valid : p.Valid) (pathFree : p.PathFree) :
    ∃ lines linked, p.instructions = .ok lines ∧ link lines = .ok linked ∧
      ∀ (limits : Limits) (ctx : Context R),
        p.resources.stackDepth ≤ limits.stackDepth → p.resources.returnDepth ≤ limits.returnDepth →
          linked.code.size ≤ limits.iterations →
            ∃ color, p.evaluateIn .stored ctx = .ok color ∧
              execute limits linked ctx = .ok color := by
  obtain ⟨block, hi, h⟩ := exists_lowered valid pathFree 0
  refine ⟨_, _, instructions_of_lowered h, link_of_lowered h,
    fun limits ctx stack returns iterations ↦ ?_⟩
  obtain ⟨v, hv, hexecute⟩ := executeIn_of_lowered h (.ofContext ctx) stack returns iterations
  refine ⟨_, ?_, hexecute⟩
  rw [evaluateIn, show p.evaluateAtIn .stored ctx.samplePoint = .ok v from hv]
  rfl

/-! ### A blend over stacks -/

def inkLayer : Tree Float := .node () (.color ⟨0, 0, 0, 1⟩) []

def paperLayer : Tree Float := .node () (.color ⟨0.5, 0.5, 0.5, 0.5⟩) []

/-- Paper under a stack that begins with ink, so a jump is taken where the ink is opaque. -/
def inkOnPaper : Tree Float := .node () .stack [paperLayer, .node () .stack [inkLayer, paperLayer]]

/-- A ramp from the stacks to a composition, which calls one of its ends or both. -/
def inkBlend : Tree Float :=
  .node () (.linearBlend ⟨⟨0.5, 0⟩, 0.25⟩ .splitCentroid)
    [inkOnPaper,
      .node () (.blendCompose .over .multiply) [inkLayer, .node () .premultiply [paperLayer]]]

theorem valid_inkBlend : inkBlend.Valid := by
  have hink : inkLayer.Valid := .node rfl nofun
  have hpaper : paperLayer.Valid := .node rfl nofun
  have hstacks : inkOnPaper.Valid :=
    .node rfl (forall_mem_pair hpaper (.node rfl (forall_mem_pair hink hpaper)))
  have htinted : (Program.node () .premultiply [paperLayer]).Valid :=
    .node rfl (List.forall_mem_singleton.2 hpaper)
  exact .node rfl (forall_mem_pair hstacks (.node rfl (forall_mem_pair hink htinted)))

theorem pathFree_inkBlend : inkBlend.PathFree := by
  have hink : inkLayer.PathFree := .node rfl nofun
  have hpaper : paperLayer.PathFree := .node rfl nofun
  have hstacks : inkOnPaper.PathFree :=
    .node rfl (forall_mem_pair hpaper (.node rfl (forall_mem_pair hink hpaper)))
  have htinted : (Program.node () .premultiply [paperLayer]).PathFree :=
    .node rfl (List.forall_mem_singleton.2 hpaper)
  exact .node rfl (forall_mem_pair hstacks (.node rfl (forall_mem_pair hink htinted)))

/-- Four operands, two return addresses and one step for each instruction suffice in any context. -/
theorem execute_inkBlend :
    inkBlend.Valid ∧ inkBlend.PathFree ∧ inkBlend.resources = ⟨4, 2⟩ ∧
      ∃ lines linked, inkBlend.instructions = .ok lines ∧ link lines = .ok linked ∧
        ∀ ctx : Context Float, ∃ color, inkBlend.evaluateIn .stored ctx = .ok color ∧
          execute ⟨4, 2, linked.code.size⟩ linked ctx = .ok color := by
  have hresources : inkBlend.resources = ⟨4, 2⟩ := rfl
  obtain ⟨lines, linked, hlines, hlink, hexecute⟩ :=
    execute_instructions valid_inkBlend pathFree_inkBlend
  rw [hresources] at hexecute
  exact ⟨valid_inkBlend, pathFree_inkBlend, hresources, lines, linked, hlines, hlink,
    fun ctx ↦ hexecute _ ctx le_rfl le_rfl le_rfl⟩

end Program

end Shading
