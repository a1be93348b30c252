import Shading.Compile
import Shading.Proofs.Code.Linking
import Shading.Proofs.Device.Refinement
import Shading.Proofs.Program.Later
import Shading.Proofs.Program.Reduced
import Shading.Proofs.Program.Writing

/-!
# Compiled programs on the device

What compiling under the default limits is good for on the device. The stacks of a program that is
compiled fit those of the device, so an invocation does not fault: it comes to the exit after some
number of steps, no more than the program has instructions, and gives the color if the device grants
that many (`run_compiled`).

Compiling does not look at the number of steps. So a color is only promised of programs with no more
instructions than the device executes; those also have fewer words than the device addresses, which
is why the length of the stream need not be bounded apart.
-/

namespace Shading

open Machine

variable {R : Type} [ColorModel R] [Rounding R Single]

/-! ### What compiling finds -/

/-- The instructions of a program that fits the limits. -/
def Program.writtenWithin (limits : Limits) (p : Shared R) : Except (Error R) (List Line) :=
  match p.resources.check limits with
  | .error cause => .error (.limits cause)
  | .ok () => p.instructions.mapError .lowering

/-- Compiling simplifies a program, if it is asked to, and writes the result. -/
theorem compile_eq (simplify : Bool) (limits : Limits) (p : Shared R) :
    compile ⟨simplify, limits⟩ p = (do
      let q ← if simplify then Build.simplified p else pure p
      return q.writtenWithin limits) := by
  unfold Program.writtenWithin
  cases simplify with
  | false =>
    refine bind_congr (x := (pure p : Build R (Shared R))) fun q ↦ ?_
    dsimp only
    cases q.resources.check limits <;> rfl
  | true =>
    refine bind_congr (x := Build.simplified p) fun q ↦ ?_
    dsimp only
    cases q.resources.check limits <;> rfl

/-- A program of a session is compiled by writing its simplification, if that fits the limits. -/
theorem exists_compile {w : Workspace R} {ps : List (Shared R)} (session : Session w ps)
    {p : Shared R} (mem : p ∈ ps) :
    ∃ r : Shared R, (p.Formed → r.Formed) ∧ (p.Irreducible → r = p) ∧
      (compile {} p w).1 = (match r.resources.check {} with
        | .error cause => .error (.limits cause)
        | .ok () => r.instructions.mapError .lowering) := by
  have settling := (settling_formed (R := R)).and settling_irreducible
  obtain ⟨nodes, hw, known⟩ := session.coherent settling
  obtain ⟨r, nodes', w', hr⟩ := Build.exists_settles settling hw (known p mem)
  have hres := hr.progress.coherent.resolved settling ((known p mem).mono hr.progress.extend)
    hr.answers
  refine ⟨r, hres.related.1, hres.related.2, ?_⟩
  have hrun : Build.simplified p w = (r, w') := hr.runs _ (Nat.le_succ _)
  rw [compile_eq, if_pos rfl, Build.bind_run hrun]
  rfl

/-- What is compiled is written from a program that fits the limits. -/
theorem exists_of_compile {w : Workspace R} {ps : List (Shared R)} (session : Session w ps)
    {p : Shared R} (mem : p ∈ ps) {lines : List Line} (h : (compile {} p w).1 = .ok lines) :
    ∃ r : Shared R, (p.Formed → r.Formed) ∧ r.resources.check {} = .ok () ∧
      r.instructions = .ok lines := by
  obtain ⟨r, hformed, -, hcompile⟩ := exists_compile session mem
  rw [hcompile] at h
  refine ⟨r, hformed, ?_⟩
  cases hcheck : r.resources.check {} with
  | error cause =>
    rw [hcheck] at h
    cases h
  | ok =>
    rw [hcheck] at h
    cases hwritten : r.instructions with
    | error cause =>
      rw [hwritten] at h
      cases h
    | ok written =>
      rw [hwritten] at h
      exact ⟨rfl, congrArg Except.ok (Except.ok.inj h)⟩

/-! ### What is encoded -/

/-- The words of a program are decoded to a list that is linked to the code of its block. -/
theorem exists_decode_of_written {p : Shared R} {block : List Line} {hi : Nat}
    {words : List UInt32} (lowered : p.Lowered 0 block hi)
    (exit : .exit ∉ Line.instructions block) (encoded : encode (block ++ [.op .exit]) = .ok words) :
    ∃ decoded, decode words 0 = .ok decoded ∧
      canonical decoded = canonical (block ++ [.op .exit]) := by
  obtain ⟨hexit, table, hlocate, hencode⟩ := encode_eq_ok encoded
  have hbody : Line.body (block ++ [.op .exit]) = block := Line.body_append exit []
  have enclosed : Line.Enclosed (block ++ [.op .exit]) := by
    rw [Line.Enclosed, hbody]
    exact lowered.marked.ahead.mem_marks
  have hdecode := decode_of_enclosed hlocate hencode hexit enclosed
  rwa [hbody] at hdecode

/-! ### Invocations -/

/-- A run that the bound cuts short. -/
theorem Machine.run_of_runs_of_le {limits : Limits} {env : Environment R} {program : Linked}
    {s s' : State R} {visited : List Nat} (h : Runs limits env program s visited s') {fuel : Nat}
    (short : fuel ≤ visited.length) :
    run limits env program fuel s = .error (.iterationCap limits.iterations) := by
  induction h generalizing fuel with
  | refl =>
    obtain rfl := Nat.le_zero.1 short
    rfl
  | step first _ ih =>
    cases fuel with
    | zero => rfl
    | succ fuel =>
      rw [run, first]
      exact ih (Nat.le_of_succ_le_succ short)

/-- An invocation does what the host does on the code that the decoded list is linked to, however
many instructions it is granted. -/
theorem run_eq_run_linked (hround : ∀ s : Single, narrow (widen s : R) = s) {words : List UInt32}
    {lines : List Line} (decodes : decode words 0 = .ok lines)
    (short : words.length < deviceAddressLimit) (ctx : DeviceContext Single)
    (hedges : ctx.edgeCount ≤ deviceIterations) (edges : Array Single) (fuel : Nat) :
    let env : Environment R := .ofDevice ctx edges
    Invocation.run (R := R) (Invocation.wordAt words.toArray) ctx edges fuel ⟨0, {}⟩ =
      ((Machine.run {} env ⟨((Line.instructions lines).map (·.map (resolveIn lines))).toArray⟩ fuel
        {} >>= Machine.answer env).toOption).map (Vec4.map narrow) := by
  obtain ⟨decoded, hdecoded, hmarked⟩ := bind_eq_ok_iff.1 decodes
  rw [drop_eq_wordsFrom] at hdecoded
  obtain ⟨stream, hbounds⟩ := Stream.of_decodeFrom hdecoded
  obtain ⟨hboundary, rfl⟩ := markTargets_eq_ok_iff.1 hmarked
  have hnodup : (decoded.map (·.1)).Nodup := stream.sorted.imp Nat.ne_of_lt
  have hlimit : ∀ a ∈ decoded.map (·.1), a < deviceAddressLimit := by
    intro a ha
    obtain ⟨d, hd, rfl⟩ := List.mem_map.1 ha
    have := hbounds d hd
    omega
  have hcode := (link_of_stream stream hboundary).symm.trans
    (link_eq_ok (nodup_marks_numberedLines hnodup)
      (ahead_numberedLines stream.sorted (forward_markedAddresses hboundary stream.ahead)))
  rw [← Except.ok.inj hcode]
  obtain ⟨i, hi⟩ := stream.head
  obtain ⟨hmem, hindex⟩ := indexIn_of_getElem? hnodup hi
  have hrun := run_eq_run stream hlimit hboundary hround edges hedges fuel (r := {}) hmem nofun
  rwa [hindex] at hrun

/-- The words of a program that fits the stacks of the device give a color after some number of
steps, and no color with less. -/
theorem exists_steps_of_lowered (hround : ∀ s : Single, narrow (widen s : R) = s) {p : Shared R}
    {block decoded : List Line} {hi : Nat} {words : List UInt32} (lowered : p.Lowered 0 block hi)
    (check : p.resources.check {} = .ok ()) (decodes : decode words 0 = .ok decoded)
    (same : canonical decoded = canonical (block ++ [.op .exit])) (ctx : DeviceContext Single)
    (hedges : ctx.edgeCount ≤ deviceIterations) (edges : Array Single) :
    ∃ color steps, steps ≤ Line.count (block ++ [.op .exit]) ∧ (words.length < deviceAddressLimit →
      ∀ fuel, Invocation.run (R := R) (Invocation.wordAt words.toArray) ctx edges fuel ⟨0, {}⟩ =
        if steps ≤ fuel then some color else none) := by
  obtain ⟨stack, returns⟩ := Resources.check_eq_ok_iff.1 check
  obtain ⟨v, visited, -, hruns, hwithin, hhalt⟩ :=
    Program.runs_of_lowered lowered (.ofDevice ctx edges) stack returns
  have hlength : visited.length ≤ Line.count block := hwithin.length_le
  refine ⟨(if ctx.premultiplied then v else unpremultiply v).map narrow, visited.length + 1,
    by simpa using hlength, fun short fuel ↦ ?_⟩
  rw [run_eq_run_linked hround decodes short ctx hedges edges fuel,
    map_resolveIn_eq_of_canonical_eq same]
  show ((Machine.run {} _ ⟨Program.blockCode block⟩ fuel {} >>= _).toOption).map _ = _
  split
  next enough =>
    obtain ⟨rest, rfl⟩ := Nat.exists_eq_add_of_le enough
    rw [Nat.add_assoc, run_of_runs hruns, Nat.add_comm 1, run, hhalt]
    rfl
  next few =>
    rw [run_of_runs_of_le hruns (by omega)]
    rfl

/-- Compiling under the default limits keeps the stacks of the device from overflowing. On the words
of a program that is compiled and encoded, and in whatever context the device can integrate, an
invocation comes to its exit after some number of steps, which is at most the number of
instructions: granted as many it gives a color, granted fewer it gives none. With no more
instructions than the device executes, the answer is never the one that stands for an error. Of the
numbers it is only assumed that a single precision number survives being widened and rounded. -/
theorem run_compiled (hround : ∀ s : Single, narrow (widen s : R) = s) {w : Workspace R}
    {ps : List (Shared R)} (session : Session w ps) {p : Shared R} (mem : p ∈ ps)
    (formed : p.Formed) {lines : List Line} (compiled : (compile {} p w).1 = .ok lines)
    {words : List UInt32} (encoded : encode lines = .ok words) (ctx : DeviceContext Single)
    (hedges : ctx.edgeCount ≤ deviceIterations) (edges : Array Single) :
    ∃ color steps, steps ≤ Line.count lines ∧
      (words.length < deviceAddressLimit → ∀ fuel,
        Invocation.run (R := R) (Invocation.wordAt words.toArray) ctx edges fuel ⟨0, {}⟩ =
          if steps ≤ fuel then some color else none) ∧
      (Line.count lines ≤ deviceIterations →
        Invocation.run (R := R) (Invocation.wordAt words.toArray) ctx edges deviceIterations
            ⟨0, {}⟩ = some color ∧
          Invocation.execute (R := R) words 0 ctx edges = color) := by
  obtain ⟨r, hformed, check, written⟩ := exists_of_compile session mem compiled
  obtain ⟨⟨block, hi, lowered, rfl, hexit⟩, hextent⟩ :=
    Program.written_of_instructions (hformed formed) written
  obtain ⟨decoded, decodes, same⟩ := exists_decode_of_written lowered hexit encoded
  obtain ⟨color, steps, hsteps, hrun⟩ :=
    exists_steps_of_lowered hround lowered check decodes same ctx hedges edges
  refine ⟨color, steps, hsteps, hrun, fun hcount ↦ ?_⟩
  obtain ⟨-, table, -, hencode⟩ := encode_eq_ok encoded
  have hshort : words.length < deviceAddressLimit := by
    rw [length_encodeFrom hencode]
    calc _ ≤ 23 * Line.count (block ++ [.op .exit]) := hextent
      _ ≤ 23 * deviceIterations := Nat.mul_le_mul_left 23 hcount
      _ < deviceAddressLimit := by decide
  have hcolor := hrun hshort deviceIterations
  rw [if_pos (Nat.le_trans hsteps hcount)] at hcolor
  exact ⟨hcolor, by rw [Invocation.execute, hcolor]; rfl⟩

/-! ### A tinted ramp -/

def blackEnd : Shared Single := .node 0 (.color ⟨⟨0⟩, ⟨0⟩, ⟨0⟩, ⟨0x3f800000⟩⟩) []

def whiteEnd : Shared Single := .node 1 (.color (.splat ⟨0x3f800000⟩)) []

def ramp : Shared Single :=
  .node 2 (.linearBlend ⟨⟨⟨0x3f800000⟩, ⟨0⟩⟩, ⟨0⟩⟩ .splitCentroid) [blackEnd, whiteEnd]

def tint : Shared Single := .node 3 (.color (.splat ⟨0x3f000000⟩)) []

def tintedRamp : Shared Single := .node 4 (.blendCompose .over .multiply) [ramp, tint]

/-- The programs in the order in which they are made, the latest first. -/
def rampPrograms : List (Shared Single) := [tintedRamp, tint, ramp, whiteEnd, blackEnd]

theorem session_rampPrograms :
    letI := singleModel
    Session ⟨5, {}⟩ rampPrograms := by
  let _ := singleModel
  have hblack : Session ⟨1, {}⟩ [blackEnd] :=
    .node (R := Single) (.color ⟨⟨0⟩, ⟨0⟩, ⟨0⟩, ⟨0x3f800000⟩⟩) .start nofun
  have hwhite : Session ⟨2, {}⟩ [whiteEnd, blackEnd] :=
    .node (R := Single) (.color (.splat ⟨0x3f800000⟩)) hblack nofun
  have hramp : Session ⟨3, {}⟩ [ramp, whiteEnd, blackEnd] :=
    .node (R := Single) (.linearBlend ⟨⟨⟨0x3f800000⟩, ⟨0⟩⟩, ⟨0⟩⟩ .splitCentroid) hwhite (by simp)
  have htint : Session ⟨4, {}⟩ [tint, ramp, whiteEnd, blackEnd] :=
    .node (R := Single) (.color (.splat ⟨0x3f000000⟩)) hramp nofun
  exact .node (.blendCompose .over .multiply) htint (by simp)

theorem formed_tintedRamp : tintedRamp.Formed :=
  .node rfl (forall_mem_pair (.node rfl (forall_mem_pair (.node rfl nofun) (.node rfl nofun)))
    (.node rfl nofun))

/-- The ends and the tint differ, and none of them can be seen through or hides the others. -/
theorem irreducible_tintedRamp :
    letI := singleModel
    tintedRamp.Irreducible := by
  let _ := singleModel
  intro q hq
  obtain rfl | hq | hq := Program.part_pair.1 hq
  · rfl
  · obtain rfl | hq | hq := Program.part_pair.1 hq
    · rfl
    · obtain rfl := Program.part_leaf.1 hq
      rfl
    · obtain rfl := Program.part_leaf.1 hq
      rfl
  · obtain rfl := Program.part_leaf.1 hq
    rfl

/-- Nothing is simplified, so the instructions of the program itself are compiled. -/
theorem compile_tintedRamp :
    letI := singleModel
    letI := singleRounding
    (compile {} tintedRamp ⟨5, {}⟩).1 = .ok rampLines := by
  let _ := singleModel
  let _ := singleRounding
  obtain ⟨r, -, hself, hcompile⟩ := exists_compile session_rampPrograms List.mem_cons_self
  rw [hcompile, hself irreducible_tintedRamp]
  rfl

theorem run_compiled_tintedRamp :
    letI := singleModel
    letI := singleRounding
    let packed : DeviceContext Single × Array Single := DeviceContext.ofContext rampContext #[]
    (∀ s : Single, narrow (widen s : Single) = s) ∧ Session ⟨5, {}⟩ rampPrograms ∧
      tintedRamp ∈ rampPrograms ∧ tintedRamp.Formed ∧
      (compile {} tintedRamp ⟨5, {}⟩).1 = .ok rampLines ∧ encode rampLines = .ok rampWords ∧
      packed.1.edgeCount = 3 ∧ packed.1.edgeCount ≤ deviceIterations ∧
      ∃ color steps, steps ≤ Line.count rampLines ∧
        (∀ fuel, Invocation.run (R := Single) (Invocation.wordAt rampWords.toArray) packed.1
            packed.2 fuel ⟨0, {}⟩ = if steps ≤ fuel then some color else none) ∧
          Invocation.run (R := Single) (Invocation.wordAt rampWords.toArray) packed.1 packed.2
              deviceIterations ⟨0, {}⟩ = some color ∧
            Invocation.execute (R := Single) rampWords 0 packed.1 packed.2 = color := by
  let _ := singleModel
  let _ := singleRounding
  have mem : tintedRamp ∈ rampPrograms := List.mem_cons_self
  have encoded : encode rampLines = .ok rampWords := rfl
  have few : 3 ≤ deviceIterations := by decide
  obtain ⟨color, steps, hsteps, hrun, hcolor⟩ := run_compiled (fun _ ↦ rfl) session_rampPrograms mem
    formed_tintedRamp compile_tintedRamp encoded
    (DeviceContext.ofContext rampContext #[] : DeviceContext Single × Array Single).1 few
    (DeviceContext.ofContext rampContext #[] : DeviceContext Single × Array Single).2
  exact ⟨fun _ ↦ rfl, session_rampPrograms, mem, formed_tintedRamp, compile_tintedRamp, encoded,
    rfl, few, color, steps, hsteps, hrun (by decide), hcolor (by decide)⟩

end Shading
