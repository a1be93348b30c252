import Mathlib.Algebra.GroupWithZero.Nat
import Mathlib.Order.Interval.Finset.Nat
import Shading.Device.Invocation

/-!
# Contexts that share a buffer

Contexts are packed one after another, each with its edges behind those of the ones before
(`packAll`). A packed context designates the edges of its own face, rounded and in order, wherever
they are in the buffer and whatever is packed later (`Stands`). The places that two of them
designate have none in common.

All that an invocation reads of its context is where it samples and whether the answer stays
premultiplied, and of the buffer it only reads the edges that are designated. So an invocation has
the answer that it would have if its context were the only one in the buffer (`execute_packAll`).
-/

namespace Shading

variable {R S : Type}

/-- The edges of the face of a context, which are none without a face. -/
def Context.edges (ctx : Context R) : List (Edge R) :=
  match ctx.face with
  | some face => face.edges
  | none => []

namespace DeviceContext

/-! ### Designated edges -/

section Designated

variable [Scalar S]

/-- The edges of a buffer that a context designates. -/
def designated (ctx : DeviceContext S) (buffer : Array S) : List (Edge S) :=
  (List.range ctx.edgeCount).map fun i ↦ edgeAt buffer (ctx.edgeOffset + i)

/-- The moments of a packed context are those of its edges and its sides. -/
theorem moments_eq (ctx : DeviceContext S) (buffer : Array S) :
    ctx.moments buffer =
      (Face.mk [] ctx.bounds ctx.minX ctx.minY ctx.maxX ctx.maxY).sides.foldl
        (fun m s ↦ m.add s.1 (Scalar.ofInt s.2))
        ((ctx.designated buffer).foldl (fun m e ↦ m.add e 1) ⟨0, 0, 0⟩) := by
  rw [moments, designated, List.foldl_map]

/-- The context with its edges elsewhere. -/
def movedTo (ctx : DeviceContext S) (offset : Nat) : DeviceContext S :=
  { ctx with edgeOffset := offset }

/-- A context takes its samples at the same points wherever its edges are. -/
theorem samplePoint?_movedTo (ctx : DeviceContext S) {o o' : Nat} {buffer buffer' : Array S}
    (same : (ctx.movedTo o).designated buffer = (ctx.movedTo o').designated buffer')
    (accuracy : Accuracy) :
    (ctx.movedTo o).samplePoint? buffer accuracy =
      (ctx.movedTo o').samplePoint? buffer' accuracy := by
  have hmoments : (ctx.movedTo o).moments buffer = (ctx.movedTo o').moments buffer' := by
    rw [moments_eq, moments_eq, same]
    rfl
  simp only [samplePoint?, centroid?, faceCentroid?, hmoments]
  rfl

end Designated

section Reading

variable [Scalar S] [Rounding R S]

/-- An edge is read from where its numbers lie. -/
theorem edgeAt_append {before : Array S} {n : Nat} (whole : before.size = 4 * n) (e : Edge R)
    (after : Array S) :
    edgeAt (before ++ (edgeNumbers e).toArray ++ after) n = e.map narrow := by
  have hbehind (k : Nat) : ¬ 4 * n + k < 4 * n := Nat.not_lt.2 (Nat.le_add_right ..)
  simp only [edgeAt, Array.getD_eq_getD_getElem?, Array.append_assoc, Array.getElem?_append, whole]
  simp [edgeNumbers, Edge.map, Point.map, hbehind]

/-- Edges are read from wherever their numbers are, between whole edges and anything else. -/
theorem edges_append {before : Array S} {n : Nat} (whole : before.size = 4 * n)
    (es : List (Edge R)) (after : Array S) :
    ((List.range es.length).map fun i ↦
      edgeAt (before ++ (es.flatMap edgeNumbers).toArray ++ after) (n + i)) =
      es.map (Edge.map narrow) := by
  induction es generalizing before n with
  | nil => rfl
  | cons e es ih =>
    have hbuffer : before ++ ((e :: es).flatMap edgeNumbers).toArray ++ after =
        before ++ (edgeNumbers e).toArray ++ (es.flatMap edgeNumbers).toArray ++ after := by
      rw [List.flatMap_cons, ← List.append_toArray, ← Array.append_assoc]
    have hwhole : (before ++ (edgeNumbers (S := S) e).toArray).size = 4 * (n + 1) := by
      rw [Array.size_append, whole]
      rfl
    rw [hbuffer, List.length_cons, List.range_succ_eq_map, List.map_cons, List.map_map,
      List.map_cons, ← ih hwhole]
    refine congrArg₂ List.cons ?_ (List.map_congr_left fun i _ ↦ ?_)
    · rw [Nat.add_zero, Array.append_assoc]
      exact edgeAt_append whole e _
    · show edgeAt _ (n + (i + 1)) = edgeAt _ (n + 1 + i)
      rw [Nat.add_right_comm, Nat.add_assoc]

end Reading

/-! ### Packed contexts -/

/-- The places of the edges that a context designates. -/
def places (ctx : DeviceContext S) : Finset Nat :=
  .Ico ctx.edgeOffset (ctx.edgeOffset + ctx.edgeCount)

section Packed

variable [Scalar R] [Rounding R S]

/-- A packed context counts all edges of its face. -/
theorem edgeCount_ofContext (ctx : Context R) (buffer : Array S) :
    (ofContext ctx buffer).1.edgeCount = ctx.edges.length := by
  rw [Context.edges]
  cases hface : ctx.face <;> simp [ofContext, hface, Face.ofBounds]

/-- A packed context adds the numbers of its edges behind the buffer. -/
theorem buffer_ofContext (ctx : Context R) (buffer : Array S) :
    (ofContext ctx buffer).2 = buffer ++ (ctx.edges.flatMap edgeNumbers).toArray := by
  rw [Context.edges]
  cases hface : ctx.face <;> simp [ofContext, hface, Face.ofBounds]

theorem size_ofContext (ctx : Context R) (buffer : Array S) :
    (ofContext ctx buffer).2.size = buffer.size + 4 * ctx.edges.length := by
  have hnumbers (es : List (Edge R)) :
      (es.flatMap (edgeNumbers (S := S))).length = 4 * es.length := by
    induction es with
    | nil => rfl
    | cons e es ih =>
      rw [List.flatMap_cons, List.length_append, ih, List.length_cons]
      exact Nat.add_comm 4 _
  rw [buffer_ofContext, Array.size_append]
  exact congrArg (buffer.size + ·) (hnumbers ctx.edges)

/-- The contexts packed one after another, and the buffer behind the last one. -/
def packAll (buffer : Array S) : List (Context R) → List (DeviceContext S) × Array S
  | [] => ([], buffer)
  | ctx :: ctxs =>
    let packed := ofContext ctx buffer
    let rest := packAll packed.2 ctxs
    (packed.1 :: rest.1, rest.2)

variable {buffer : Array S} {ctxs : List (Context R)}

/-- Contexts that are packed together add the numbers of all their edges. -/
theorem size_packAll (buffer : Array S) (ctxs : List (Context R)) : (packAll buffer ctxs).2.size =
    buffer.size + 4 * (ctxs.map fun ctx ↦ ctx.edges.length).sum := by
  induction ctxs generalizing buffer with
  | nil => rfl
  | cons ctx ctxs ih =>
    rw [packAll, ih, size_ofContext, List.map_cons, List.sum_cons]
    omega

/-- Packing leaves what is in the buffer as it is. -/
theorem exists_packAll_eq_append (buffer : Array S) (ctxs : List (Context R)) :
    ∃ after, (packAll buffer ctxs).2 = buffer ++ after := by
  induction ctxs generalizing buffer with
  | nil => exact ⟨#[], Array.append_empty.symm⟩
  | cons ctx ctxs ih =>
    obtain ⟨after, hafter⟩ := ih (ofContext ctx buffer).2
    refine ⟨(ctx.edges.flatMap edgeNumbers).toArray ++ after, ?_⟩
    rw [packAll, hafter, buffer_ofContext, Array.append_assoc]

/-- No packed context refers to edges in front of its buffer. -/
theorem le_edgeOffset_of_mem {c : DeviceContext S} (h : c ∈ (packAll buffer ctxs).1) :
    buffer.size / 4 ≤ c.edgeOffset := by
  induction ctxs generalizing buffer with
  | nil => cases h
  | cons ctx ctxs ih =>
    rcases List.mem_cons.1 h with rfl | h
    · exact Nat.le_refl _
    · refine Nat.le_trans (Nat.div_le_div_right ?_) (ih h)
      rw [size_ofContext]
      exact Nat.le_add_right ..

/-- No two contexts designate the same place. -/
theorem disjoint_places (buffer : Array S) (ctxs : List (Context R)) :
    (packAll buffer ctxs).1.Pairwise fun c d ↦ Disjoint c.places d.places := by
  induction ctxs generalizing buffer with
  | nil => exact .nil
  | cons ctx ctxs ih =>
    refine List.pairwise_cons.2 ⟨fun d hd ↦ Finset.disjoint_left.2 fun i hi hi' ↦ ?_, ih _⟩
    have hbehind := le_edgeOffset_of_mem hd
    have hoffset : (ofContext ctx buffer).1.edgeOffset = buffer.size / 4 := rfl
    rw [size_ofContext] at hbehind
    rw [places, Finset.mem_Ico, edgeCount_ofContext] at hi
    rw [places, Finset.mem_Ico] at hi'
    omega

variable [Scalar S]

/-- A packed context stands for a context in a buffer: apart from where its edges are, it is what
the context is packed to alone, and it designates the edges of the face. -/
structure Stands (buffer : Array S) (ctx : Context R) (c : DeviceContext S) : Prop where
  alone : ∃ offset, c = (ofContext ctx #[]).1.movedTo offset
  designated : c.designated buffer = ctx.edges.map (Edge.map narrow)
  within : 4 * (c.edgeOffset + c.edgeCount) ≤ buffer.size

/-- Behind whole edges, a context is packed to one that stands for it, whatever comes later. -/
theorem stands_ofContext {n : Nat} (whole : buffer.size = 4 * n) (ctx : Context R)
    (after : Array S) :
    Stands ((ofContext ctx buffer).2 ++ after) ctx (ofContext ctx buffer).1 where
  alone := ⟨buffer.size / 4, rfl⟩
  designated := by
    have hoffset : (ofContext ctx buffer).1.edgeOffset = n := by
      show buffer.size / 4 = n
      omega
    rw [DeviceContext.designated, edgeCount_ofContext, hoffset, buffer_ofContext]
    exact edges_append whole ctx.edges after
  within := by
    rw [edgeCount_ofContext, Array.size_append, size_ofContext]
    show 4 * (buffer.size / 4 + _) ≤ _
    omega

/-- Contexts that are packed together find their edges in the common buffer. -/
theorem stands_packAll {n : Nat} (whole : buffer.size = 4 * n) (ctxs : List (Context R)) :
    List.Forall₂ (Stands (packAll buffer ctxs).2) ctxs (packAll buffer ctxs).1 := by
  induction ctxs generalizing buffer n with
  | nil => exact .nil
  | cons ctx ctxs ih =>
    have hwhole : (ofContext ctx buffer).2.size = 4 * (n + ctx.edges.length) := by
      rw [size_ofContext, whole, Nat.mul_add]
    refine .cons ?_ (ih hwhole)
    obtain ⟨after, hafter⟩ := exists_packAll_eq_append (ofContext ctx buffer).2 ctxs
    rw [packAll, hafter]
    exact stands_ofContext whole ctx after

end Packed

end DeviceContext

/-! ### Invocations -/

namespace Invocation

variable [ColorModel R] [Rounding R Single] {c c' : DeviceContext Single}
  {buffer buffer' : Array Single}

/-- The device samples at the same points and hands back the same kind of answer. -/
structure Alike (c : DeviceContext Single) (buffer : Array Single) (c' : DeviceContext Single)
    (buffer' : Array Single) : Prop where
  sample : ∀ accuracy, c.samplePoint? buffer accuracy = c'.samplePoint? buffer' accuracy
  premultiplied : c.premultiplied = c'.premultiplied

section

variable (alike : Alike c buffer c' buffer')

include alike

omit [ColorModel R] in
/-- A sample only depends on the edges that the context designates. -/
theorem sample_congr (code : UInt32) :
    sample (R := R) c buffer code = sample c' buffer' code := by
  simp only [sample, alike.sample]

theorem step_congr (word : Nat → UInt32) (address : Nat) (header : UInt32) (opcode : Opcode) :
    step (R := R) word c buffer address header opcode =
      step (R := R) word c' buffer' address header opcode := by
  cases opcode with
  | linearBlendRatio | radialBlendRatio | linearGradientRatio | radialGradientRatio
  | barycentricBlend => simp only [step, sample_congr alike]
  | _ => rfl

theorem run_congr (word : Nat → UInt32) (fuel : Nat) (s : State) :
    run (R := R) word c buffer fuel s = run (R := R) word c' buffer' fuel s := by
  have hadvance (s : State) :
      advance (R := R) word c buffer s = advance (R := R) word c' buffer' s := by
    simp only [advance, step_congr alike]
  have hfinish (r : Registers) : finish (R := R) c r = finish (R := R) c' r := by
    simp only [finish, alike.premultiplied]
  induction fuel generalizing s with
  | zero => rfl
  | succ fuel ih => simp only [run, hadvance, hfinish, ih]

/-- An invocation only depends on the edges that the context designates. -/
theorem execute_congr (words : List UInt32) (offset : Nat) :
    execute (R := R) words offset c buffer = execute (R := R) words offset c' buffer' := by
  rw [execute, execute, run_congr alike]

end

/-- Two contexts that stand for the same one are alike. -/
theorem alike_of_stands {ctx : Context R} (h : DeviceContext.Stands buffer ctx c)
    (h' : DeviceContext.Stands buffer' ctx c') : Alike c buffer c' buffer' := by
  obtain ⟨⟨o, rfl⟩, hedges, -⟩ := h
  obtain ⟨⟨o', rfl⟩, hedges', -⟩ := h'
  refine ⟨fun accuracy ↦ ?_, rfl⟩
  exact DeviceContext.samplePoint?_movedTo _ (hedges.trans hedges'.symm) accuracy

open DeviceContext in
/-- Contexts packed into one buffer do not interfere: each of them designates the edges of its own
face, no two designate the same place, and an invocation answers as if its context were alone in the
buffer. Fewer than `2 ^ 32` edges can all be told by numbers of 32 bits. -/
theorem execute_packAll (ctxs : List (Context R))
    (few : (ctxs.map fun ctx ↦ ctx.edges.length).sum < 4294967296) :
    let packed := packAll (S := Single) #[] ctxs
    packed.1.length = ctxs.length ∧
    (packed.1.Pairwise fun c d ↦ Disjoint c.places d.places) ∧
    ∀ (i : Nat) (ctx : Context R) (c : DeviceContext Single),
      ctxs[i]? = some ctx → packed.1[i]? = some c →
      c.designated packed.2 = ctx.edges.map (Edge.map narrow) ∧
      c.edgeOffset + c.edgeCount < 4294967296 ∧
      let alone := ofContext ctx #[]
      ∀ words offset, execute (R := R) words offset c packed.2 =
        execute (R := R) words offset alone.1 alone.2 := by
  intro packed
  have hempty : (#[] : Array Single).size = 4 * 0 := rfl
  have hstands := stands_packAll hempty ctxs
  refine ⟨hstands.length_eq.symm, disjoint_places #[] ctxs, fun i ctx c hctx hc ↦ ?_⟩
  have hstand : Stands packed.2 ctx c := by
    obtain ⟨hi, rfl⟩ := List.getElem?_eq_some_iff.1 hctx
    obtain ⟨hi', rfl⟩ := List.getElem?_eq_some_iff.1 hc
    exact hstands.get hi hi'
  have halone := stands_ofContext hempty ctx #[]
  rw [Array.append_empty] at halone
  refine ⟨hstand.designated, ?_, execute_congr (alike_of_stands hstand halone)⟩
  have hsize : packed.2.size = 0 + _ := size_packAll #[] ctxs
  have hwithin := hstand.within
  omega

/-- A pixel with half of it for its face, a full pixel without a face, and another half. -/
def threePixels : List (Context Float) :=
  [{ Context.fullPixel 0 0 with face := some ⟨[⟨⟨1, 0⟩, ⟨0, 1⟩⟩], ⟨0, 0, 1, 1⟩, 1, 1, 0, 0⟩ },
   Context.fullPixel 1 0,
   { Context.fullPixel 2 0 with face := some ⟨[⟨⟨2, 0⟩, ⟨3, 1⟩⟩], ⟨2, 0, 3, 1⟩, 1, 0, 0, 1⟩ }]

/-- The edge of the third pixel is the second one of the buffer. -/
theorem execute_threePixels :
    let packed := DeviceContext.packAll (S := Single) #[] threePixels
    let alone := DeviceContext.ofContext (threePixels[2]) (#[] : Array Single)
    (threePixels.map fun ctx ↦ ctx.edges.length).sum < 4294967296 ∧
      packed.1.map (fun c ↦ (c.edgeOffset, c.edgeCount)) = [(0, 1), (1, 0), (1, 1)] ∧
      ∃ c, packed.1[2]? = some c ∧
        c.designated packed.2 = [Edge.map narrow ⟨⟨(2 : Float), 0⟩, ⟨3, 1⟩⟩] ∧
        ∀ words offset, execute (R := Float) words offset c packed.2 =
          execute (R := Float) words offset alone.1 alone.2 := by
  intro packed alone
  have few : (threePixels.map fun ctx ↦ ctx.edges.length).sum < 4294967296 := by decide
  obtain ⟨-, -, hall⟩ := execute_packAll threePixels few
  obtain ⟨hedges, -, hexecute⟩ := hall 2 _ _ rfl rfl
  exact ⟨few, rfl, _, rfl, hedges, hexecute⟩

end Invocation

end Shading
