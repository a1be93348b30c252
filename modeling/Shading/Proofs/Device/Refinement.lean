import Mathlib.Data.List.Nodup
import Shading.Proofs.Code.Normalization
import Shading.Proofs.Device.Mirror

/-!
# The device refines the host

On a buffer whose words can be decoded, an invocation does what the host does with the decoded
instructions, with the same limits, the same samples and values kept in single precision
(`run_eq_executeIn`). The addresses of the invocation and the indices of the host are two names of
the same places: the index of an address is its position among the boundaries of the stream.
-/

namespace Shading

variable {R : Type} [ColorModel R] [Rounding R Single]

/-- The surroundings of an invocation, for the host: the samples of the invocation, and values that
are rounded when they are kept. -/
def Environment.ofDevice (ctx : DeviceContext Single) (edges : Array Single) : Environment R where
  sample accuracy := ((ctx.samplePoint? edges accuracy).getD ctx.center).map widen
  premultiplied := ctx.premultiplied
  keep v := (v.map narrow : Vec4 Single).map widen

omit [ColorModel R] in
/-- With no more edges than the device integrates, both sides sample alike. -/
theorem samplesAs_ofDevice {ctx : DeviceContext Single} {edges : Array Single}
    (h : ctx.edgeCount ≤ deviceIterations) :
    SamplesAs (R := R) (.ofDevice ctx edges) ctx edges := by
  intro accuracy
  have hsome : ∃ p, ctx.samplePoint? edges accuracy = some p := by
    have hface : ∃ p, ctx.faceCentroid? edges = some p := by
      rw [DeviceContext.faceCentroid?, if_neg (by omega)]
      simp only
      split
      · exact ⟨_, rfl⟩
      · exact ⟨_, rfl⟩
    rw [DeviceContext.samplePoint?, DeviceContext.centroid?]
    split
    · split
      · exact ⟨_, rfl⟩
      · exact hface
    · exact ⟨_, rfl⟩
  obtain ⟨p, hp⟩ := hsome
  refine ⟨p, hp, ?_⟩
  show ((ctx.samplePoint? edges accuracy).getD ctx.center).map widen = _
  rw [hp]
  rfl

namespace Machine

/-- The answer of the host from the stacks at the exit. -/
def answer (env : Environment R) (store : Stacks R) : Except ExecutionError (Vec4 R) := do
  let value ← store.finish
  return if env.premultiplied then value else Shading.unpremultiply value

end Machine

section

variable {word : Nat → UInt32} {offset : Nat} {decoded : List (Nat × Instruction Nat)}

/-- The index of an address of a stream. -/
def indexIn (decoded : List (Nat × Instruction Nat)) (a : Nat) : Nat := (decoded.map (·.1)).idxOf a

/-- The code that a stream is linked to. -/
def codeOf (decoded : List (Nat × Instruction Nat)) : Array (Instruction Nat) :=
  (decoded.map fun d ↦ d.2.map (indexIn decoded)).toArray

/-- Every known address has an index. -/
theorem getElem?_indexIn {a : Nat} (h : a ∈ decoded.map (·.1)) :
    ∃ i, decoded[indexIn decoded a]? = some (a, i) := by
  have hidx := List.getElem?_idxOf h
  rw [List.getElem?_map] at hidx
  obtain ⟨⟨b, i⟩, hd, hb⟩ := Option.map_eq_some_iff.1 hidx
  cases hb
  exact ⟨i, hd⟩

/-- The index of an address is the place of its instruction. -/
theorem indexIn_of_getElem? (nodup : (decoded.map (·.1)).Nodup) {k a : Nat} {i : Instruction Nat}
    (h : decoded[k]? = some (a, i)) : a ∈ decoded.map (·.1) ∧ indexIn decoded a = k := by
  have hget : (decoded.map (·.1))[k]? = some a := by
    rw [List.getElem?_map, h]
    rfl
  obtain ⟨hk, hak⟩ := List.getElem?_eq_some_iff.1 hget
  refine ⟨List.mem_of_getElem? hget, ?_⟩
  rw [indexIn, ← hak]
  exact nodup.idxOf_getElem k hk

/-- Both sides answer alike, up to rounding. -/
theorem finish_eq_answer (hround : ∀ s : Single, narrow (widen s : R) = s)
    {ctx : DeviceContext Single} {edges : Array Single} (index : Nat → Nat) (r : Registers) :
    Invocation.finish (R := R) ctx r =
      ((Machine.answer (.ofDevice ctx edges : Environment R) (hostStacks index r)).toOption).map
        (Vec4.map narrow) := by
  match r with
  | ⟨[v], []⟩ =>
    have hv : (v.map (widen (R := R))).map narrow = v := by
      rw [Vec4.map_map]
      simp only [hround]
      rfl
    show some _ = some (Vec4.map narrow (if ctx.premultiplied then _ else _))
    by_cases h : ctx.premultiplied = true
    · rw [if_pos h, if_pos h, hv]
    · rw [if_neg h, if_neg h]
  | ⟨[], rs⟩ => cases rs <;> rfl
  | ⟨[v], b :: rs⟩ => rfl
  | ⟨v :: w :: vs, rs⟩ => rfl

/-- An instruction other than the exit, executed by the device. -/
theorem advance_of_opcode {ctx : DeviceContext Single} {edges : Array Single} {a : Nat}
    {r : Registers} {o : Opcode} (hlimit : a < deviceAddressLimit)
    (hopcode : Opcode.ofWord? (word a) = some o) (hne : o ≠ .exit) :
    Invocation.advance (R := R) word ctx edges ⟨a, r⟩ =
      match Invocation.step (R := R) word ctx edges a (word a) o r with
      | none => .faulted
      | some (.next, r) => .running ⟨a + o.length (word a), r⟩
      | some (.jump t, r) => .running ⟨t, r⟩ := by
  rw [Invocation.advance, if_neg (Nat.not_le_of_lt hlimit)]
  dsimp only
  rw [hopcode]
  cases o <;> first | exact absurd rfl hne | rfl

/-- The host gets to the same place as the device, or both come to an end. -/
inductive Follows (decoded : List (Nat × Instruction Nat)) :
    Invocation.Outcome → Machine.Outcome R → Prop
  | running {a : Nat} {r : Registers} : a ∈ decoded.map (·.1) →
    (∀ b ∈ r.returns, b ∈ decoded.map (·.1)) → Follows decoded (.running ⟨a, r⟩)
      (.running ⟨indexIn decoded a, hostStacks (indexIn decoded) r⟩)
  | halted (r : Registers) :
    Follows decoded (.halted r) (.halted (hostStacks (indexIn decoded) r))
  | faulted (cause : ExecutionError) : Follows decoded .faulted (.failed cause)

/-- From the same place, one step of the host follows one step of the device. -/
theorem follows_advance (stream : Stream word offset decoded)
    (hlimit : ∀ a ∈ decoded.map (·.1), a < deviceAddressLimit)
    (hboundary : ∀ d ∈ decoded, ∀ t ∈ d.2.targets, t ∈ decoded.map (·.1))
    (hround : ∀ s : Single, narrow (widen s : R) = s) {ctx : DeviceContext Single}
    (edges : Array Single) (hedges : ctx.edgeCount ≤ deviceIterations) {a : Nat} {r : Registers}
    (ha : a ∈ decoded.map (·.1)) (hr : ∀ b ∈ r.returns, b ∈ decoded.map (·.1)) :
    Follows decoded (Invocation.advance (R := R) word ctx edges ⟨a, r⟩)
      (Machine.advance {} (.ofDevice ctx edges : Environment R) ⟨codeOf decoded⟩
        ⟨indexIn decoded a, hostStacks (indexIn decoded) r⟩) := by
  -- Both are at the same instruction: the words at the address spell the one with the index.
  obtain ⟨i, hi⟩ := getElem?_indexIn ha
  obtain ⟨hopcode, hspells, hnext⟩ := stream.getElem? hi
  have hcode : (codeOf decoded)[indexIn decoded a]? = some (i.map (indexIn decoded)) := by
    rw [codeOf, List.getElem?_toArray, List.getElem?_map, hi]
    rfl
  rw [Machine.advance, hcode]
  by_cases hexit : i = .exit
  · subst hexit
    have hdevice : Invocation.advance (R := R) word ctx edges ⟨a, r⟩ = .halted r := by
      rw [Invocation.advance, if_neg (Nat.not_le_of_lt (hlimit a ha))]
      simp only [show Opcode.ofWord? (word a) = some .exit from hopcode]
    rw [hdevice]
    exact .halted r
  · have hmirrors : Mirrors (· ∈ decoded.map (·.1)) (indexIn decoded)
        (Machine.step {} (.ofDevice ctx edges) (i.map (indexIn decoded)))
        (Invocation.step (R := R) word ctx edges a (word a) i.opcode)
        (hostFlow (indexIn decoded)) (KnownFlow (· ∈ decoded.map (·.1))) :=
      mirrors_step hround (fun _ ↦ rfl) (samplesAs_ofDevice hedges) hspells hexit
        (hboundary _ (List.mem_of_getElem? hi))
    have hstep := hmirrors r hr
    rw [advance_of_opcode (hlimit a ha) hopcode
      fun h ↦ hexit (Instruction.eq_exit_of_opcode h)]
    rcases hdevice : Invocation.step (R := R) word ctx edges a (word a) i.opcode r with
      - | ⟨- | t, r'⟩
    · rw [hdevice] at hstep
      obtain ⟨cause, hcause⟩ := hstep
      rcases hhost : Machine.step {} (.ofDevice ctx edges : Environment R)
        (i.map (indexIn decoded)) (hostStacks (indexIn decoded) r) with ⟨result, store⟩
      rw [hhost] at hcause
      obtain rfl : result = .error cause := hcause
      simp only [hhost]
      exact .faulted cause
    · rw [hdevice] at hstep
      obtain ⟨hhost, hr', -⟩ := hstep
      obtain ⟨j, hj⟩ := hnext hexit
      obtain ⟨hmem, hindex⟩ := indexIn_of_getElem? (stream.sorted.imp Nat.ne_of_lt) hj
      simp only [hhost]
      exact hindex ▸ .running hmem hr'
    · rw [hdevice] at hstep
      obtain ⟨hhost, hr', hflow⟩ := hstep
      simp only [hhost]
      exact .running hflow hr'

/-- From the same place, the device and the host run to the same answer. -/
theorem run_eq_run (stream : Stream word offset decoded)
    (hlimit : ∀ a ∈ decoded.map (·.1), a < deviceAddressLimit)
    (hboundary : ∀ d ∈ decoded, ∀ t ∈ d.2.targets, t ∈ decoded.map (·.1))
    (hround : ∀ s : Single, narrow (widen s : R) = s) {ctx : DeviceContext Single}
    (edges : Array Single) (hedges : ctx.edgeCount ≤ deviceIterations) (fuel : Nat) {a : Nat}
    {r : Registers} (ha : a ∈ decoded.map (·.1)) (hr : ∀ b ∈ r.returns, b ∈ decoded.map (·.1)) :
    let env : Environment R := .ofDevice ctx edges
    Invocation.run (R := R) word ctx edges fuel ⟨a, r⟩ =
      ((Machine.run {} env ⟨codeOf decoded⟩ fuel
        ⟨indexIn decoded a, hostStacks (indexIn decoded) r⟩ >>= Machine.answer env).toOption).map
          (Vec4.map narrow) := by
  intro env
  induction fuel generalizing a r with
  | zero => rfl
  | succ fuel ih =>
    have hfollows := follows_advance (R := R) stream hlimit hboundary hround edges hedges ha hr
    rw [Invocation.run, Machine.run]
    generalize Invocation.advance (R := R) word ctx edges ⟨a, r⟩ = device at hfollows ⊢
    generalize Machine.advance {} env ⟨codeOf decoded⟩
      ⟨indexIn decoded a, hostStacks (indexIn decoded) r⟩ = host at hfollows ⊢
    cases hfollows with
    | running ha' hr' => exact ih ha' hr'
    | halted r' => exact finish_eq_answer hround (indexIn decoded) r'
    | faulted cause => rfl

/-- The marked lines of a stream are linked to its instructions, with indices for addresses. -/
theorem link_of_stream (stream : Stream word offset decoded)
    (hboundary : ∀ d ∈ decoded, ∀ t ∈ d.2.targets, t ∈ decoded.map (·.1)) :
    link (numberedLines (markedAddresses decoded) decoded) = .ok ⟨codeOf decoded⟩ := by
  have hnodup : (decoded.map (·.1)).Nodup := stream.sorted.imp Nat.ne_of_lt
  have hforward := forward_markedAddresses hboundary stream.ahead
  rw [link_eq_ok (nodup_marks_numberedLines hnodup) (ahead_numberedLines stream.sorted hforward),
    instructions_numberedLines, List.map_map, codeOf]
  have hcode : decoded.map ((·.map (resolveIn (numberedLines (markedAddresses decoded) decoded))) ∘
      fun d ↦ d.2.map (markedAddresses decoded).idxOf) =
        decoded.map fun d ↦ d.2.map (indexIn decoded) := by
    refine List.map_congr_left fun d hd ↦ ?_
    rw [Function.comp_apply, Instruction.map_map]
    refine Instruction.map_congr fun t ht ↦ ?_
    obtain ⟨hmarked, hmem, -⟩ := hforward d hd t ht
    rw [resolveIn, positionOf_numberedLines hnodup hmarked hmem, Nat.zero_add]
    rfl
  rw [hcode]

end

/-- The words behind an offset are those that an invocation sees from there on. -/
theorem drop_eq_wordsFrom (words : List UInt32) (offset : Nat) :
    words.drop offset =
      wordsFrom (Invocation.wordAt words.toArray) offset (words.length - offset) := by
  refine List.ext_getElem (by simp [wordsFrom]) fun k hk hk' ↦ ?_
  have hlt : offset + k < words.length := by
    rw [List.length_drop] at hk
    omega
  simp [wordsFrom, Invocation.wordAt, Array.getD, hlt]

/-- On every buffer and offset that can be decoded, an invocation comes to its end exactly if the
host does, on the decoded instructions in the surroundings of the invocation and with the default
limits, and then with the same color. Of the numbers it is only assumed that a single precision
number survives being widened and rounded. -/
theorem run_eq_executeIn (hround : ∀ s : Single, narrow (widen s : R) = s) {words : List UInt32}
    {offset : Nat} {lines : List Line} (decodes : decode words offset = .ok lines)
    (short : words.length < deviceAddressLimit) (ctx : DeviceContext Single)
    (hedges : ctx.edgeCount ≤ deviceIterations) (edges : Array Single) :
    ∃ linked, link lines = .ok linked ∧
      let host : Except ExecutionError (Vec4 R) :=
        Machine.executeIn {} (.ofDevice ctx edges) linked
      let run := Invocation.run (R := R) (Invocation.wordAt words.toArray) ctx edges
        deviceIterations ⟨offset, {}⟩
      let shown := Invocation.execute (R := R) words offset ctx edges
      (∀ color, host = .ok color → run = some (color.map narrow) ∧ shown = color.map narrow) ∧
        ∀ cause, host = .error cause → run = none ∧ shown = errorColor := by
  obtain ⟨decoded, hdecoded, hmarked⟩ := bind_eq_ok_iff.1 decodes
  rw [drop_eq_wordsFrom] at hdecoded
  obtain ⟨stream, hbounds⟩ := Stream.of_decodeFrom hdecoded
  obtain ⟨hboundary, rfl⟩ := markTargets_eq_ok_iff.1 hmarked
  have hlimit : ∀ a ∈ decoded.map (·.1), a < deviceAddressLimit := by
    intro a ha
    obtain ⟨d, hd, rfl⟩ := List.mem_map.1 ha
    have := hbounds d hd
    have := stream.le_of_mem d.1 (List.mem_map_of_mem hd)
    omega
  obtain ⟨i, hi⟩ := stream.head
  obtain ⟨hmem, hindex⟩ := indexIn_of_getElem? (stream.sorted.imp Nat.ne_of_lt) hi
  have hrun := run_eq_run stream hlimit hboundary hround edges hedges deviceIterations
    (r := {}) hmem nofun
  rw [hindex] at hrun
  have hrun' : Invocation.run (R := R) (Invocation.wordAt words.toArray) ctx edges deviceIterations
      ⟨offset, {}⟩ = (Machine.executeIn {} (.ofDevice ctx edges) ⟨codeOf decoded⟩ :
        Except ExecutionError (Vec4 R)).toOption.map (Vec4.map narrow) := hrun
  refine ⟨_, link_of_stream stream hboundary, fun color hcolor ↦ ?_, fun cause hcause ↦ ?_⟩
  · rw [Invocation.execute, hrun', hcolor]
    exact ⟨rfl, rfl⟩
  · rw [Invocation.execute, hrun', hcause]
    exact ⟨rfl, rfl⟩

/-- A host that computes in single precision itself. -/
@[reducible]
def singleModel : ColorModel Single where
  convert := Conversion.formula
  opacityTolerance := 1e-8

/-- Between equal types of numbers nothing is rounded. -/
@[reducible]
def singleRounding : Rounding Single Single := ⟨fun s ↦ s, fun s ↦ s⟩

/-! ### A tinted ramp -/

/-- A ramp from black to white, which calls one of its ends or both, and a tint composed with it. -/
def rampCode : List (Nat × Instruction Nat) :=
  [(0, .linearBlendRatio ⟨⟨⟨0x3f800000⟩, ⟨0⟩⟩, ⟨0⟩⟩ .splitCentroid ⟨8, 14, 20, 21⟩),
    (8, .pushColor ⟨⟨0⟩, ⟨0⟩, ⟨0⟩, ⟨0x3f800000⟩⟩), (13, .ret),
    (14, .pushColor (.splat ⟨0x3f800000⟩)), (19, .ret), (20, .mix),
    (21, .pushColor (.splat ⟨0x3f000000⟩)), (26, .blendCompose .over .multiply), (27, .exit)]

def rampLines : List Line :=
  [.op (.linearBlendRatio ⟨⟨⟨0x3f800000⟩, ⟨0⟩⟩, ⟨0⟩⟩ .splitCentroid ⟨0, 1, 2, 3⟩),
    .mark 0, .op (.pushColor ⟨⟨0⟩, ⟨0⟩, ⟨0⟩, ⟨0x3f800000⟩⟩), .op .ret,
    .mark 1, .op (.pushColor (.splat ⟨0x3f800000⟩)), .op .ret, .mark 2, .op .mix,
    .mark 3, .op (.pushColor (.splat ⟨0x3f000000⟩)), .op (.blendCompose .over .multiply), .op .exit]

def rampWords : List UInt32 :=
  [0x113, 0x3f800000, 0, 0, 8, 14, 20, 21, 2, 0, 0, 0, 0x3f800000, 1,
    2, 0x3f800000, 0x3f800000, 0x3f800000, 0x3f800000, 1, 5,
    2, 0x3f000000, 0x3f000000, 0x3f000000, 0x3f000000, 0x10006, 0]

/-- The instructions stand where their code says, in the words of the ramp. -/
theorem written_rampCode : Written 0 rampCode rampWords := by
  -- From the exit backwards, as each instruction stands in front of the words that follow it.
  have hexit : Written 27 [(27, .exit)] [0] := .exit (by decide)
  have hcompose := Written.step (a := 26) (i := .blendCompose .over .multiply) nofun rfl nofun hexit
  have htint := Written.step (a := 21) (i := .pushColor (.splat ⟨0x3f000000⟩)) nofun rfl nofun
    hcompose
  have hmix := Written.step (a := 20) (i := .mix) nofun rfl nofun htint
  have hret := Written.step (a := 19) (i := .ret) nofun rfl nofun hmix
  have hwhite := Written.step (a := 14) (i := .pushColor (.splat ⟨0x3f800000⟩)) nofun rfl nofun hret
  have hret := Written.step (a := 13) (i := .ret) nofun rfl nofun hwhite
  have hblack := Written.step (a := 8) (i := .pushColor ⟨⟨0⟩, ⟨0⟩, ⟨0⟩, ⟨0x3f800000⟩⟩) nofun rfl
    nofun hret
  exact Written.step (a := 0)
    (i := .linearBlendRatio ⟨⟨⟨0x3f800000⟩, ⟨0⟩⟩, ⟨0⟩⟩ .splitCentroid ⟨8, 14, 20, 21⟩) nofun rfl
    (by decide) hblack

theorem decode_rampWords : decode rampWords 0 = .ok rampLines :=
  written_rampCode.decode_eq (by decide)

/-- The lower left half of the unit square, whose centroid is left to the device. -/
def rampContext : Context Single where
  face := some
    { edges := [⟨⟨⟨0⟩, ⟨0⟩⟩, ⟨⟨0x3f800000⟩, ⟨0⟩⟩⟩, ⟨⟨⟨0x3f800000⟩, ⟨0⟩⟩, ⟨⟨0⟩, ⟨0x3f800000⟩⟩⟩,
        ⟨⟨⟨0⟩, ⟨0x3f800000⟩⟩, ⟨⟨0⟩, ⟨0⟩⟩⟩]
      bounds := ⟨⟨0⟩, ⟨0⟩, ⟨0x3f800000⟩, ⟨0x3f800000⟩⟩
      minX := 0
      minY := 0
      maxX := 0
      maxY := 0 }
  area := ⟨0x3f000000⟩
  centroid := none
  bounds := ⟨⟨0⟩, ⟨0⟩, ⟨0x3f800000⟩, ⟨0x3f800000⟩⟩
  premultiplied := false

theorem run_rampWords :
    letI := singleModel
    letI := singleRounding
    let packed : DeviceContext Single × Array Single := DeviceContext.ofContext rampContext #[]
    (∀ s : Single, narrow (widen s : Single) = s) ∧ decode rampWords 0 = .ok rampLines ∧
      rampWords.length < deviceAddressLimit ∧
      packed.1.edgeCount = 3 ∧ packed.1.edgeCount ≤ deviceIterations ∧
      ∃ linked, link rampLines = .ok linked ∧
        let host : Except ExecutionError (Vec4 Single) :=
          Machine.executeIn {} (.ofDevice packed.1 packed.2) linked
        let run := Invocation.run (R := Single) (Invocation.wordAt rampWords.toArray) packed.1
          packed.2 deviceIterations ⟨0, {}⟩
        let shown := Invocation.execute (R := Single) rampWords 0 packed.1 packed.2
        (∀ color, host = .ok color → run = some (color.map narrow) ∧ shown = color.map narrow) ∧
          ∀ cause, host = .error cause → run = none ∧ shown = errorColor :=
  have few : 3 ≤ deviceIterations := by decide
  ⟨fun _ ↦ rfl, decode_rampWords, by decide, rfl, few,
    @run_eq_executeIn Single singleModel singleRounding (fun _ ↦ rfl) _ _ _ decode_rampWords
      (by decide) _ few _⟩

end Shading
