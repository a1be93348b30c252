import Mathlib.Data.List.Forall2
import Shading.Proofs.Code.Header
import Shading.Proofs.Code.Marking

/-!
# Encoded instructions read back

A reader restores a value from some words if, run on these words and any others behind them, it
gives the value and leaves the others (`Restores`). Readers one after the other restore what is
written one after the other, so each instruction is read back by following its operands
(`restores_operands`), and a list of instructions by following its instructions
(`decodeFrom_encodeFrom`).

Jumps change their meaning on the way. They are written as distances and read back as addresses of
the buffer, so what is restored is the instruction with its references passed through the function
`place` from locations to addresses.
-/

namespace Shading

variable {α β ℓ : Type}

/-- The reader takes the words, and nothing behind them, for the value. -/
def Restores (r : WordReader α) (words : List UInt32) (x : α) : Prop :=
  ∀ rest, r (words ++ rest) = .ok (x, rest)

namespace Restores

variable {r : WordReader α} {f : α → WordReader β} {xs ys : List UInt32} {x : α} {y : β}

theorem pure (x : α) : Restores (pure x) [] x :=
  fun _ ↦ rfl

theorem bind (h : Restores r xs x) (h' : Restores (f x) ys y) :
    Restores (r >>= f) (xs ++ ys) y := by
  intro rest
  rw [List.append_assoc]
  exact bind_eq_ok_iff.2 ⟨(x, ys ++ rest), h (ys ++ rest), h' rest⟩

/-- A reader that needs no words, followed by another one. -/
theorem silent (h : Restores r [] x) (h' : Restores (f x) ys y) : Restores (r >>= f) ys y :=
  h.bind h'

/-- A reader followed by one that needs no words. -/
theorem last (h : Restores r xs x) (h' : Restores (f x) [] y) : Restores (r >>= f) xs y := by
  have hboth := h.bind h'
  rwa [List.append_nil] at hboth

end Restores

theorem restores_single (s : Single) : Restores .single [s.bits] s :=
  fun _ ↦ rfl

theorem restores_get {cause : DecodeError} {a : Option α} {x : α} (h : a = some x) :
    Restores (.get cause a) [] x := by
  rw [h]
  exact fun _ ↦ rfl

/-- As many items as there are values, each restored from a word of its own. -/
theorem restores_items {item : WordReader α} {xs : List α} {words : List UInt32}
    (h : List.Forall₂ (fun w x ↦ Restores item [w] x) words xs) :
    Restores (.items item xs.length) words xs := by
  induction h with
  | nil => exact .pure []
  | cons hw _ ih => exact hw.bind (ih.last (.pure _))

theorem restores_singles (xs : List Single) :
    Restores (.items .single xs.length) (operandWords xs) xs :=
  restores_items (List.forall₂_map_left_iff.2 (List.forall₂_same.2 fun s _ ↦ restores_single s))

/-! ### Jumps -/

/-- Locations are resolved one by one, each to one word. -/
theorem resolveAll_cons {resolve : ℓ → Except EncodeError UInt32} {l : ℓ} {ls : List ℓ}
    {ds : List UInt32} (h : resolveAll resolve (l :: ls) = .ok ds) :
    ∃ d rest, ds = d :: rest ∧ resolve l = .ok d ∧ resolveAll resolve ls = .ok rest := by
  obtain ⟨d, hd, h⟩ := bind_eq_ok_iff.1 h
  obtain ⟨rest, hrest, h⟩ := bind_eq_ok_iff.1 h
  exact ⟨d, rest, (Except.ok.inj h).symm, hd, hrest⟩

/-- The distance that a location resolves to leads from an address to the place of the location. -/
def Reaches (resolve : ℓ → Except EncodeError UInt32) (place : ℓ → Nat) (a : Nat) (l : ℓ) : Prop :=
  ∀ d, resolve l = .ok d → Restores (.target a) [d] (place l)

/-- A target is read back from a distance that is not zero and stays within reach. -/
theorem restores_target {a : Nat} {d : UInt32} (h : d ≠ 0) (h' : a + d.toNat < 4294967296) :
    Restores (.target a) [d] (a + d.toNat) := by
  intro rest
  show (if d = 0 then WordReader.fail _ else if a + d.toNat < 4294967296 then _ else _) rest = _
  rw [if_neg h, if_pos h']
  rfl

section

variable {resolve : ℓ → Except EncodeError UInt32} {place : ℓ → Nat} {a : Nat}

/-- Targets are read back from their distances, one by one. -/
theorem restores_targets {ls : List ℓ} {ds : List UInt32} (h : resolveAll resolve ls = .ok ds)
    (reach : ∀ l ∈ ls, Reaches resolve place a l) :
    Restores (.items (.target a) ls.length) ds (ls.map place) := by
  induction ls generalizing ds with
  | nil =>
    cases h
    exact .pure []
  | cons l ls ih =>
    obtain ⟨d, rest, rfl, hd, hrest⟩ := resolveAll_cons h
    obtain ⟨hl, hls⟩ := List.forall_mem_cons.1 reach
    exact (hl d hd).bind ((ih hrest hls).last (.pure _))

/-- The targets of a blend are read back from their distances. -/
theorem restores_branches {b : Branches ℓ} {ds : List UInt32}
    (h : resolveAll resolve b.targets = .ok ds)
    (reach : ∀ l ∈ b.targets, Reaches resolve place a l) :
    Restores (.branches a) ds (b.map place) := by
  obtain ⟨d0, rest, rfl, h0, h⟩ := resolveAll_cons h
  obtain ⟨d1, rest, rfl, h1, h⟩ := resolveAll_cons h
  obtain ⟨d2, rest, rfl, h2, h⟩ := resolveAll_cons h
  obtain ⟨d3, rest, rfl, h3, h⟩ := resolveAll_cons h
  cases h
  simp only [Branches.targets, List.forall_mem_cons] at reach
  obtain ⟨r0, r1, r2, r3, -⟩ := reach
  exact (r0 d0 h0).bind ((r1 d1 h1).bind ((r2 d2 h2).bind ((r3 d3 h3).last (.pure _))))

/-- There are between one and 65535 ratios, each with its place. -/
def StopTable.Complete (table : StopTable ℓ) : Prop :=
  1 ≤ table.ratios.length ∧ table.ratios.length ≤ 65535 ∧
    table.stops.length = table.ratios.length

/-- A table passes the check exactly if it is complete. -/
theorem checkTable_cases (table : StopTable ℓ) :
    (table.Complete ∧ checkTable table = .ok ()) ∨ (¬ table.Complete ∧
      checkTable table = .error (.stopCount table.ratios.length table.stops.length)) := by
  have hcomplete : (table.ratios.length = 0 ∨ 65535 < table.ratios.length ∨
      table.stops.length ≠ table.ratios.length) ↔ ¬ table.Complete := by
    rw [StopTable.Complete]
    omega
  by_cases h : table.Complete
  · exact .inl ⟨h, if_neg (mt hcomplete.1 (not_not.2 h))⟩
  · exact .inr ⟨h, if_pos (hcomplete.2 h)⟩

/-- Only complete tables pass the check. -/
theorem complete_of_checkTable {table : StopTable ℓ} (h : checkTable table = .ok ()) :
    table.Complete := by
  rcases checkTable_cases table with ⟨hcomplete, -⟩ | ⟨-, herror⟩
  · exact hcomplete
  · rw [h] at herror
    cases herror

/-- The stops of a gradient, given what its header says. -/
theorem restores_stopTable {table : StopTable ℓ} {header : UInt32} {extend : Extend}
    {ws : List UInt32} (check : checkTable table = .ok ())
    (encodes : encodeStops resolve table = .ok ws)
    (reach : ∀ l ∈ table.targets, Reaches resolve place a l)
    (stops : headerStops header = table.ratios.length)
    (hextend : Extend.ofCode? (header >>> 12 &&& 0xf).toNat = some extend) :
    Restores (.stopTable a header) ws (extend, table.map place) := by
  obtain ⟨hpos, -, hlength⟩ := complete_of_checkTable check
  obtain ⟨ends, hends, encodes⟩ := bind_eq_ok_iff.1 encodes
  obtain ⟨places, hplaces, encodes⟩ := bind_eq_ok_iff.1 encodes
  obtain rfl := Except.ok.inj encodes
  obtain ⟨d0, rest, rfl, h0, hends⟩ := resolveAll_cons hends
  obtain ⟨d1, rest, rfl, h1, hends⟩ := resolveAll_cons hends
  cases hends
  simp only [StopTable.targets, List.forall_mem_append, List.forall_mem_cons] at reach
  obtain ⟨hstops, r0, r1, -⟩ := reach
  have hitems := restores_targets hplaces hstops
  rw [hlength] at hitems
  rw [WordReader.stopTable, stops, if_neg (Nat.ne_of_gt hpos)]
  exact (restores_get hextend).silent ((r0 d0 h0).bind ((r1 d1 h1).bind
    ((restores_singles table.ratios).bind (hitems.last (.pure _)))))

/-! ### Instructions -/

theorem restores_linearRamp (ramp : LinearRamp Single) :
    Restores .linearRamp (operandWords ramp.operands) ramp :=
  fun _ ↦ rfl

theorem restores_radialRamp (ramp : RadialRamp Single) :
    Restores .radialRamp (operandWords ramp.operands) ramp :=
  fun _ ↦ rfl

theorem restores_linearAxis (axis : LinearAxis Single) :
    Restores .linearAxis (operandWords axis.operands) axis :=
  fun _ ↦ rfl

theorem restores_circlePair (circles : CirclePair Single) :
    Restores .circlePair (operandWords circles.operands) circles :=
  fun _ ↦ rfl

/-- A triangle is read back, with depths if the header announces them. -/
theorem restores_triangle {triangle : Triangle Single} {header : UInt32}
    (h : (header &&& perspectiveFlag != 0) = triangle.depths.isSome) :
    Restores (.triangle header) (operandWords triangle.operands) triangle := by
  rw [WordReader.triangle, h]
  rcases triangle with ⟨corners, inverse, - | depths⟩
  · exact fun _ ↦ rfl
  · exact fun _ ↦ rfl

/-- An accuracy is read back from its code, and takes no words. -/
theorem restores_accuracy {code : UInt32} {accuracy : Accuracy} (h : code.toNat = accuracy.code) :
    Restores (.accuracy code) [] accuracy := by
  refine restores_get ?_
  rw [h, Accuracy.ofCode?_code]

/-- What an instruction is checked for before it is written makes its header fit. -/
theorem headerFits_of_encodeOperands {i : Instruction ℓ} {ws : List UInt32}
    (encodes : encodeOperands resolve i = .ok ws) : i.HeaderFits := by
  cases i with
  | phong shininess lights =>
    rw [encodeOperands] at encodes
    split at encodes
    · cases encodes
    · show lights < 2 ^ 24
      omega
  | linearGradientRatio axis accuracy extend table =>
    exact Nat.lt_succ_of_le (complete_of_checkTable (check_bind_eq_ok_iff.1 encodes).1).2.1
  | radialGradientRatio circles accuracy extend table =>
    exact Nat.lt_succ_of_le (complete_of_checkTable (check_bind_eq_ok_iff.1 encodes).1).2.1
  | _ => trivial

/-- A gradient, given what its header says. -/
theorem restores_gradient {r : WordReader α} {f : α → Accuracy → Extend → StopTable Nat → β} {x : α}
    {xs ws : List UInt32} {table : StopTable ℓ} {header : UInt32} {accuracy : Accuracy}
    {extend : Extend} (axis : Restores r xs x) (check : checkTable table = .ok ())
    (encodes : encodeStops resolve table = .ok ws)
    (reach : ∀ l ∈ table.targets, Reaches resolve place a l)
    (hstops : headerStops header = table.ratios.length)
    (haccuracy : (header >>> 8 &&& 0xf).toNat = accuracy.code)
    (hextend : (header >>> 12 &&& 0xf).toNat = extend.code) :
    Restores (do
      let axis ← r
      let (extend, table) ← .stopTable a header
      return f axis (← .accuracy (header >>> 8 &&& 0xf)) extend table) (xs ++ ws)
      (f x accuracy extend (table.map place)) := by
  have htable : Restores (.stopTable a header) ws (extend, table.map place) := by
    refine restores_stopTable check encodes reach hstops ?_
    rw [hextend, Extend.ofCode?_code]
  exact axis.bind (htable.last ((restores_accuracy haccuracy).silent (.pure _)))

/-- The operands of an instruction are read back, with its jumps led to their places. -/
theorem restores_operands {i : Instruction ℓ} {ws : List UInt32}
    (encodes : encodeOperands resolve i = .ok ws)
    (reach : ∀ l ∈ i.targets, Reaches resolve place a l) :
    Restores (.operands a i.header i.opcode) ws (i.map place) := by
  have fits := headerFits_of_encodeOperands encodes
  cases i with
  | opaqueJump target =>
    obtain ⟨d, rest, rfl, hd, hrest⟩ := resolveAll_cons encodes
    cases hrest
    exact (reach target (List.mem_singleton_self target) d hd).last (.pure _)
  | blendCompose compose blend =>
    cases encodes
    obtain ⟨hcompose, hblend⟩ := Instruction.composeFields fits rfl
    refine (restores_get (x := compose) ?_).silent ((restores_get (x := blend) ?_).silent (.pure _))
    · rw [hcompose, Compose.ofCode?_code]
    · rw [hblend, Blend.ofCode?_code]
  | phong shininess lights =>
    rw [encodeOperands] at encodes
    split at encodes
    · cases encodes
    · cases encodes
      refine (restores_single shininess).last ?_
      rw [Instruction.lightField fits]
      exact .pure _
  | linearBlendRatio ramp accuracy branches =>
    obtain ⟨ds, hds, encodes⟩ := bind_eq_ok_iff.1 encodes
    cases encodes
    exact (restores_linearRamp ramp).bind
      ((restores_accuracy (Instruction.rampFields fits rfl)).silent
        ((restores_branches hds reach).last (.pure _)))
  | radialBlendRatio ramp accuracy branches =>
    obtain ⟨ds, hds, encodes⟩ := bind_eq_ok_iff.1 encodes
    cases encodes
    exact (restores_radialRamp ramp).bind
      ((restores_accuracy (Instruction.rampFields fits rfl)).silent
        ((restores_branches hds reach).last (.pure _)))
  | linearGradientRatio axis accuracy extend table =>
    obtain ⟨check, encodes⟩ := check_bind_eq_ok_iff.1 encodes
    obtain ⟨ws, hws, encodes⟩ := bind_eq_ok_iff.1 encodes
    cases encodes
    obtain ⟨hstops, haccuracy, hextend⟩ := Instruction.gradientFields fits rfl
    exact restores_gradient (restores_linearAxis axis) check hws reach hstops haccuracy hextend
  | radialGradientRatio circles accuracy extend table =>
    obtain ⟨check, encodes⟩ := check_bind_eq_ok_iff.1 encodes
    obtain ⟨ws, hws, encodes⟩ := bind_eq_ok_iff.1 encodes
    cases encodes
    obtain ⟨hstops, haccuracy, hextend⟩ := Instruction.gradientFields fits rfl
    exact restores_gradient (restores_circlePair circles) check hws reach hstops haccuracy hextend
  | barycentricBlend triangle accuracy =>
    cases encodes
    exact (restores_triangle Instruction.perspective_header).last
      ((restores_accuracy (Instruction.triangleField triangle accuracy)).silent (.pure _))
  | exit | ret | pushColor | stackBlend | mix | premultiply | unpremultiply | convert
  | multiplyScalar | normalize | filter =>
    -- Nothing is read from the header, and there are no jumps.
    cases encodes
    exact fun _ ↦ rfl

end

end Shading
