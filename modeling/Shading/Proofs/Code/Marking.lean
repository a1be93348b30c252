import Mathlib.Data.List.Basic
import Shading.Code.Decode
import Shading.Proofs.Code.Placement
import Shading.Proofs.Failure

/-!
# Marked streams

The last step of decoding puts a mark in front of each instruction that some jump leads to, and
numbers the marks in their order. Here the numbers are taken apart from the choice of marks: with
any list of marked addresses, an address has its position in that list as its number
(`numberedLines`).

What later proofs use is that nothing is lost by numbering: the position of the mark for an address
is the position of the address among all boundaries (`positionOf_numberedLines`), and jumps that
lead forward lead to marks ahead (`ahead_numberedLines`).
-/

namespace Shading

namespace Instruction

variable {ℓ ℓ' ℓ'' : Type}

theorem map_map (g : ℓ' → ℓ'') (f : ℓ → ℓ') (i : Instruction ℓ) :
    (i.map f).map g = i.map fun l ↦ g (f l) := by
  cases i <;> simp [map, Branches.map, StopTable.map]

theorem map_id (i : Instruction ℓ) : i.map id = i := by
  cases i <;> simp [map, Branches.map, StopTable.map]

/-- Functions that agree on the references of an instruction do the same to it. -/
theorem map_congr {f g : ℓ → ℓ'} {i : Instruction ℓ} (h : ∀ t ∈ i.targets, f t = g t) :
    i.map f = i.map g := by
  cases i with
  | opaqueJump target =>
    rw [map, map, h target (List.mem_singleton_self target)]
  | linearBlendRatio ramp accuracy branches | radialBlendRatio ramp accuracy branches =>
    simp only [targets, Branches.targets, List.forall_mem_cons] at h
    simp only [map, Branches.map, h.1, h.2.1, h.2.2.1, h.2.2.2.1]
  | linearGradientRatio axis accuracy extend table
  | radialGradientRatio axis accuracy extend table =>
    simp only [targets, StopTable.targets, List.forall_mem_append, List.forall_mem_cons] at h
    simp only [map, StopTable.map, h.2.1, h.2.2.1, List.map_congr_left h.1]
  | _ => rfl

theorem opcode_map (f : ℓ → ℓ') (i : Instruction ℓ) : (i.map f).opcode = i.opcode := by
  cases i <;> rfl

theorem eq_exit_of_opcode {i : Instruction ℓ} (h : i.opcode = .exit) : i = .exit := by
  cases i <;> first | rfl | cases h

end Instruction

/-- Instructions with their addresses as lines, with a mark in front of each one whose address is
marked. The number of an address is its position among the marked ones. -/
def numberedLines (marked : List Nat) : List (Nat × Instruction Nat) → List Line
  | [] => []
  | d :: ds =>
    (if marked.contains d.1 then [.mark (marked.idxOf d.1)] else []) ++
      .op (d.2.map marked.idxOf) :: numberedLines marked ds

variable {marked : List Nat} {decoded : List (Nat × Instruction Nat)}

/-- Decoded instructions are numbered by the places of their targets among the marked addresses. -/
theorem instructions_numberedLines :
    Line.instructions (numberedLines marked decoded) =
      decoded.map fun d ↦ d.2.map marked.idxOf := by
  induction decoded with
  | nil => rfl
  | cons d ds ih =>
    rw [numberedLines, Line.instructions_append, Line.instructions_op, ih, List.map_cons]
    split <;> rfl

/-- The marks are the numbers of the marked addresses that occur. -/
theorem mem_marks_numberedLines {l : Nat} :
    l ∈ Line.marks (numberedLines marked decoded) ↔
      ∃ a ∈ decoded.map (·.1), a ∈ marked ∧ marked.idxOf a = l := by
  induction decoded with
  | nil => simp [numberedLines, Line.marks]
  | cons d ds ih =>
    rw [numberedLines, Line.marks_append, List.mem_append, Line.marks, ih, List.map_cons]
    by_cases h : d.1 ∈ marked
    · simp [h, Line.marks, eq_comm]
    · simp [h, Line.marks]

/-- If instructions have distinct addresses, marks are distinct. -/
theorem nodup_marks_numberedLines (nodup : (decoded.map (·.1)).Nodup) :
    (Line.marks (numberedLines marked decoded)).Nodup := by
  induction decoded with
  | nil => exact List.nodup_nil
  | cons d ds ih =>
    rw [List.map_cons, List.nodup_cons] at nodup
    rw [numberedLines, Line.marks_append, Line.marks]
    by_cases h : d.1 ∈ marked
    · rw [if_pos (List.contains_iff_mem.2 h)]
      refine List.nodup_cons.2 ⟨fun hmem ↦ ?_, ih nodup.2⟩
      obtain ⟨a, ha, -, hidx⟩ := mem_marks_numberedLines.1 hmem
      have heq : d.1 = a := (List.idxOf_inj h).1 hidx.symm
      exact nodup.1 (heq ▸ ha)
    · rw [if_neg (mt List.contains_iff_mem.1 h)]
      exact ih nodup.2

/-- The mark for an address stands in front of the instruction at that address. -/
theorem positionOf_numberedLines (nodup : (decoded.map (·.1)).Nodup) {t : Nat} (ht : t ∈ marked)
    (hmem : t ∈ decoded.map (·.1)) (start : Nat) :
    positionOf (marked.idxOf t) start (numberedLines marked decoded) =
      some (start + (decoded.map (·.1)).idxOf t) := by
  induction decoded generalizing start with
  | nil => cases hmem
  | cons d ds ih =>
    rw [List.map_cons, List.nodup_cons] at nodup
    rw [numberedLines, positionOf_append, positionOf, List.map_cons]
    by_cases heq : d.1 = t
    -- The address is marked here and, being unique, nowhere behind.
    · have hnone : ∀ index, positionOf (marked.idxOf t) index (numberedLines marked ds) = none := by
        intro index
        refine positionOf_eq_none_iff.2 fun hl ↦ ?_
        obtain ⟨a, ha, -, hidx⟩ := mem_marks_numberedLines.1 hl
        have hat : t = a := (List.idxOf_inj ht).1 hidx.symm
        exact nodup.1 (heq ▸ hat ▸ ha)
      have hmark : marked.contains d.1 = true := List.contains_iff_mem.2 (heq ▸ ht)
      rw [hnone, if_pos hmark, heq, List.idxOf_cons_self]
      simp [positionOf]
    · have hds : t ∈ ds.map (·.1) := (List.mem_cons.1 hmem).resolve_left (Ne.symm heq)
      rw [ih nodup.2 hds, List.idxOf_cons_ne _ heq]
      have hcount : Line.count (if marked.contains d.1 = true then [Line.mark (marked.idxOf d.1)]
          else []) = 0 := by split <;> rfl
      rw [hcount]
      simp only [Option.some_or, Option.some.injEq]
      omega

/-- Every jump leads to a marked address that lies ahead of it, where an instruction starts. -/
def Forward (marked : List Nat) (decoded : List (Nat × Instruction Nat)) : Prop :=
  ∀ d ∈ decoded, ∀ t ∈ d.2.targets, t ∈ marked ∧ t ∈ decoded.map (·.1) ∧ d.1 < t

/-- Jumps that lead to later instructions lead to marks ahead. -/
theorem ahead_numberedLines (sorted : (decoded.map (·.1)).Pairwise (· < ·))
    (forward : Forward marked decoded) : Line.Ahead (numberedLines marked decoded) := by
  suffices h : ∀ before rest, decoded = before ++ rest → Line.Ahead (numberedLines marked rest) from
    h [] decoded rfl
  intro before rest hrest
  induction rest generalizing before with
  | nil => trivial
  | cons d ds ih =>
    have hds := ih (before ++ [d]) (by rw [hrest, List.append_assoc]; rfl)
    have hahead : ∀ t ∈ (d.2.map marked.idxOf).targets,
        t ∈ Line.marks (numberedLines marked ds) := by
      intro t ht
      rw [Instruction.targets_map] at ht
      obtain ⟨a, ha, rfl⟩ := List.mem_map.1 ht
      obtain ⟨hmarked, hmem, hlt⟩ := forward d (by rw [hrest]; simp) a ha
      -- An address behind that of `d` belongs to one of the instructions that follow.
      have hlater : a ∈ ds.map (·.1) := by
        rw [hrest, List.map_append, List.map_cons] at hmem sorted
        rcases List.mem_append.1 hmem with hearlier | hmem
        · have := (List.pairwise_append.1 sorted).2.2 a hearlier d.1 List.mem_cons_self
          omega
        · exact (List.mem_cons.1 hmem).resolve_left (by omega)
      exact mem_marks_numberedLines.2 ⟨a, hlater, hmarked, rfl⟩
    rw [numberedLines]
    split
    · exact ⟨hahead, hds⟩
    · exact ⟨hahead, hds⟩

/-! ### The last step of decoding -/

/-- The check asks all targets to be boundaries. -/
theorem checkTargets_eq_ok_iff {boundaries targets : List Nat} :
    checkTargets boundaries targets = .ok () ↔ ∀ t ∈ targets, t ∈ boundaries := by
  induction targets with
  | nil => exact ⟨fun _ ↦ nofun, fun _ ↦ rfl⟩
  | cons t targets ih =>
    rw [checkTargets, List.forall_mem_cons]
    by_cases h : t ∈ boundaries
    · rw [if_pos (List.contains_iff_mem.2 h), ih]
      exact ⟨fun hrest ↦ ⟨h, hrest⟩, fun hboth ↦ hboth.2⟩
    · rw [if_neg (mt List.contains_iff_mem.1 h)]
      exact ⟨nofun, fun hboth ↦ absurd hboth.1 h⟩

/-- The addresses that some jump leads to. -/
def markedAddresses (decoded : List (Nat × Instruction Nat)) : List Nat :=
  (decoded.map (·.1)).filter (decoded.flatMap (·.2.targets)).contains

/-- Marking succeeds exactly if all targets are addresses of instructions, and gives the numbered
lines. -/
theorem markTargets_eq_ok_iff {lines : List Line} :
    markTargets decoded = .ok lines ↔
      (∀ d ∈ decoded, ∀ t ∈ d.2.targets, t ∈ decoded.map (·.1)) ∧
        lines = numberedLines (markedAddresses decoded) decoded := by
  have hlines : ∀ (marked : List Nat) ds, numberedLines marked ds =
      ds.flatMap fun d ↦ if marked.contains d.1 then
        [.mark (marked.idxOf d.1), .op (d.2.map marked.idxOf)]
      else [.op (d.2.map marked.idxOf)] := by
    intro marked ds
    induction ds with
    | nil => rfl
    | cons d ds ih =>
      rw [numberedLines, ih, List.flatMap_cons]
      split <;> rfl
  have htargets : (∀ t ∈ decoded.flatMap (·.2.targets), t ∈ decoded.map (·.1)) ↔
      ∀ d ∈ decoded, ∀ t ∈ d.2.targets, t ∈ decoded.map (·.1) := by
    simp only [List.mem_flatMap]
    exact ⟨fun h d hd t ht ↦ h t ⟨d, hd, ht⟩, fun h t ⟨d, hd, ht⟩ ↦ h d hd t ht⟩
  rw [← htargets, ← checkTargets_eq_ok_iff, hlines, markTargets, check_bind_eq_ok_iff]
  exact and_congr_right fun _ ↦ ⟨fun h ↦ (Except.ok.inj h).symm, fun h ↦ congrArg Except.ok h.symm⟩

/-- Jumps of a stream lead to addresses that are marked, if they lead to instructions ahead. -/
theorem forward_markedAddresses
    (boundary : ∀ d ∈ decoded, ∀ t ∈ d.2.targets, t ∈ decoded.map (·.1))
    (ahead : ∀ d ∈ decoded, ∀ t ∈ d.2.targets, d.1 < t) :
    Forward (markedAddresses decoded) decoded := by
  intro d hd t ht
  have hmem := boundary d hd t ht
  refine ⟨List.mem_filter.2 ⟨hmem, List.contains_iff_mem.2 ?_⟩, hmem, ahead d hd t ht⟩
  exact List.mem_flatMap.2 ⟨d, hd, ht⟩

end Shading
