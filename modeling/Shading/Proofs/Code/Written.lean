import Shading.Proofs.Code.Acceptance
import Shading.Proofs.Code.Relocation

/-!
# Streams written again

What is decoded from a stream is a list of instructions that stand directly one after the other and
end with an exit, each of which can be encoded (`Written`, `written_of_decodeFrom`). Such a list
determines its words, and it does not matter for them where it stands: encoding the marked list
gives them back, and so does decoding them from another place, up to moving the addresses.
-/

namespace Shading

variable {ℓ ℓ' : Type}

/-! ### Encoded operands -/

/-- Locations are resolved to one word each. -/
theorem length_resolveAll {resolve : ℓ → Except EncodeError UInt32} {ls : List ℓ}
    {ws : List UInt32} (h : resolveAll resolve ls = .ok ws) : ws.length = ls.length := by
  induction ls generalizing ws with
  | nil =>
    cases h
    rfl
  | cons l ls ih =>
    obtain ⟨d, rest, rfl, -, hrest⟩ := resolveAll_cons h
    rw [List.length_cons, ih hrest, List.length_cons]

/-- A table of stops is encoded in two words for each stop, and two for the mix and the end. -/
theorem length_encodeStops {resolve : ℓ → Except EncodeError UInt32} {table : StopTable ℓ}
    {ws : List UInt32} (check : checkTable table = .ok ())
    (h : encodeStops resolve table = .ok ws) : ws.length = 2 + 2 * table.ratios.length := by
  obtain ⟨ends, hends, h⟩ := bind_eq_ok_iff.1 h
  obtain ⟨stops, hstops, h⟩ := bind_eq_ok_iff.1 h
  obtain rfl := Except.ok.inj h
  have hlength := (complete_of_checkTable check).2.2
  rw [List.length_append, List.length_append, length_resolveAll hends, length_resolveAll hstops,
    operandWords, List.length_map, hlength]
  simp only [List.length_cons, List.length_nil]
  omega

/-- Encoded operands have the length that goes with the instruction. -/
theorem length_encodeOperands {resolve : ℓ → Except EncodeError UInt32} {i : Instruction ℓ}
    {ws : List UInt32} (h : encodeOperands resolve i = .ok ws) : ws.length + 1 = i.length := by
  cases i with
  | opaqueJump target => rw [length_resolveAll h]; rfl
  | phong shininess lights =>
    rw [encodeOperands] at h
    split at h
    · cases h
    · cases h
      rfl
  | linearBlendRatio ramp accuracy branches | radialBlendRatio ramp accuracy branches =>
    obtain ⟨ds, hds, h⟩ := bind_eq_ok_iff.1 h
    obtain rfl := Except.ok.inj h
    rw [List.length_append, length_resolveAll hds]
    rfl
  | linearGradientRatio axis accuracy extend table
  | radialGradientRatio circles accuracy extend table =>
    obtain ⟨check, h⟩ := check_bind_eq_ok_iff.1 h
    obtain ⟨ds, hds, h⟩ := bind_eq_ok_iff.1 h
    obtain rfl := Except.ok.inj h
    rw [List.length_append, length_encodeStops check hds, operandWords, List.length_map]
    simp only [LinearAxis.operands, CirclePair.operands, Affine.toList, Point.toList,
      List.length_append, List.length_cons, List.length_nil, Instruction.length]
    omega
  | barycentricBlend triangle accuracy =>
    obtain rfl := Except.ok.inj h
    rcases triangle with ⟨corners, inverse, - | depths⟩ <;> rfl
  | _ =>
    cases h
    rfl

theorem resolveAll_map (resolve : ℓ' → Except EncodeError UInt32) (f : ℓ → ℓ') (ls : List ℓ) :
    resolveAll resolve (ls.map f) = resolveAll (fun l ↦ resolve (f l)) ls := by
  induction ls with
  | nil => rfl
  | cons l ls ih => rw [List.map_cons, resolveAll, ih, resolveAll]

/-- Operands do not depend on how locations are named, only on what they are resolved to. -/
theorem encodeOperands_map (resolve : ℓ' → Except EncodeError UInt32) (f : ℓ → ℓ')
    (i : Instruction ℓ) :
    encodeOperands resolve (i.map f) = encodeOperands (fun l ↦ resolve (f l)) i := by
  have htargets (b : Branches ℓ) :
      resolveAll resolve (b.map f).targets = resolveAll (fun l ↦ resolve (f l)) b.targets :=
    resolveAll_map resolve f b.targets
  have hcheck (t : StopTable ℓ) : checkTable (t.map f) = checkTable t := by
    simp only [checkTable, StopTable.map, List.length_map]
  have hstops (t : StopTable ℓ) :
      encodeStops resolve (t.map f) = encodeStops (fun l ↦ resolve (f l)) t := by
    have hends := resolveAll_map resolve f [t.blend, t.done]
    rw [encodeStops, encodeStops, ← resolveAll_map resolve f t.stops, ← hends]
    rfl
  cases i with
  | opaqueJump target => exact resolveAll_map resolve f [target]
  | linearBlendRatio ramp accuracy b | radialBlendRatio ramp accuracy b =>
    rw [Instruction.map, encodeOperands, htargets, encodeOperands]
  | linearGradientRatio axis accuracy extend table
  | radialGradientRatio circles accuracy extend table =>
    rw [Instruction.map, encodeOperands, hcheck, hstops, encodeOperands]
  | _ => rfl

theorem header_map (f : ℓ → ℓ') (i : Instruction ℓ) : (i.map f).header = i.header := by
  cases i <;> rfl

/-- Operands are encoded alike by functions that agree on the jumps. -/
theorem encodeOperands_congr {resolve resolve' : ℓ → Except EncodeError UInt32}
    {i : Instruction ℓ} (h : ∀ t ∈ i.targets, resolve t = resolve' t) :
    encodeOperands resolve i = encodeOperands resolve' i := by
  -- A function of references is the identity of references after it.
  have hid := encodeOperands_map id resolve i
  rw [Instruction.map_congr h] at hid
  exact hid.symm.trans (encodeOperands_map id resolve' i)

/-- An instruction is encoded if its operands are. -/
theorem encodeInstruction_of_operands {resolve : ℓ → Except EncodeError UInt32}
    {i : Instruction ℓ} {ws : List UInt32} (h : encodeOperands resolve i = .ok ws) :
    encodeInstruction resolve i = .ok (i.header :: ws) := by
  have hlength : (i.header :: ws).length = i.length := length_encodeOperands h
  rw [encodeInstruction, h]
  exact if_pos hlength

/-! ### Instructions one after the other -/

/-- The first instruction of some words: it is read from just the words that it is encoded as, its
header apart. -/
theorem exists_of_decodeFrom {a : Nat} {words : List UInt32}
    {decoded : List (Nat × Instruction Nat)} (h : decodeFrom a words = .ok decoded) :
    ∃ header own rest i, words = header :: own ++ rest ∧
      Opcode.ofWord? header = some (Instruction.opcode i) ∧ Accepted a header own i ∧
      i.opcode.length header = i.length ∧ a < addressSpace ∧
      if i.opcode = .exit then decoded = [(a, i)]
      else ∃ later, decodeFrom (a + i.length) rest = .ok later ∧ decoded = (a, i) :: later := by
  cases words with
  | nil =>
    rw [decodeFrom] at h
    cases h
  | cons header tail =>
    rw [decodeFrom] at h
    rcases hopcode : Opcode.ofWord? header with - | opcode
    · rw [hopcode] at h
      cases h
    · rw [hopcode] at h
      obtain ⟨m, hm⟩ := Nat.exists_eq_add_of_lt (opcode.length_pos header)
      rw [Nat.zero_add] at hm
      simp only [hm, List.take_succ_cons, Nat.add_sub_cancel] at h
      split at h
      · cases h
      · rename_i hlong
        obtain ⟨⟨i, left⟩, hi, h⟩ := bind_eq_ok_iff.1 h
        obtain ⟨own, hown, rfl, haccepted⟩ := admits_operands a hopcode _ _ _ hi
        have hlength := Instruction.length_header (headerFits_of_encodeOperands haccepted.operands)
        rw [haccepted.header_eq, Opcode.length_and_headerMask] at hlength
        -- The reader leaves nothing of the words that it is given.
        have htake : (tail.take m).length = (own ++ left).length := congrArg List.length hown
        have hencoded := length_encodeOperands haccepted.operands
        rw [List.length_append, List.length_take] at htake
        rw [List.length_cons, List.length_take] at hlong
        have hleft : left = [] := List.length_eq_zero_iff.1 (by omega)
        rw [hleft, List.append_nil] at hown
        refine ⟨header, own, tail.drop m, i, ?_, hopcode, haccepted, hlength, ?_⟩
        · rw [← hown, List.cons_append, List.take_append_drop]
        · simp only at h
          split at h
          · cases h
          · rename_i hrange
            refine ⟨Nat.lt_of_not_le hrange, ?_⟩
            split at h
            · rename_i hexit
              rw [if_pos hexit]
              cases h
              rfl
            · rename_i hexit
              rw [if_neg hexit]
              obtain ⟨later, hlater, h⟩ := bind_eq_ok_iff.1 h
              cases h
              rw [← hlength, hm]
              exact ⟨later, hlater, rfl⟩

/-- Instructions from an address on, each directly followed by the next one, and the words that they
are encoded as. The last one is the only exit. -/
inductive Written : Nat → List (Nat × Instruction Nat) → List UInt32 → Prop
  | exit {a : Nat} : a < addressSpace → Written a [(a, .exit)] [Instruction.header (ℓ := Nat) .exit]
  | step {a : Nat} {i : Instruction Nat} {own words : List UInt32}
    {decoded : List (Nat × Instruction Nat)} :
    i ≠ .exit → encodeOperands (fun t ↦ .ok (gap a t)) i = .ok own → (∀ t ∈ i.targets, a < t) →
      Written (a + i.length) decoded words →
        Written a ((a, i) :: decoded) (i.header :: own ++ words)

/-- What is decoded is written in the words it was decoded from, with unused bits cleared. -/
theorem written_of_decodeFrom {a : Nat} {words : List UInt32}
    {decoded : List (Nat × Instruction Nat)} (h : decodeFrom a words = .ok decoded) :
    ∃ stream rest cleared, words = stream ++ rest ∧ Cleared stream cleared ∧
      Written a decoded cleared := by
  induction hlength : words.length using Nat.strongRecOn generalizing words a decoded with
  | ind n ih =>
    obtain ⟨header, own, rest, i, rfl, hopcode, haccepted, hwords, hrange, hlater⟩ :=
      exists_of_decodeFrom h
    have hown := length_encodeOperands haccepted.operands
    split at hlater
    case isTrue hexit =>
      obtain rfl := Instruction.eq_exit_of_opcode hexit
      have hnil : own = [] := (Except.ok.inj haccepted.operands).symm
      subst hnil hlater
      exact ⟨[header], rest, _, rfl, .exit hopcode, haccepted.header_eq ▸ .exit hrange⟩
    case isFalse hexit =>
      obtain ⟨later, hdecode, rfl⟩ := hlater
      rw [List.length_append, List.length_cons] at hlength
      obtain ⟨stream, after, cleared, rfl, hcleared, hwritten⟩ :=
        ih rest.length (by omega) hdecode rfl
      refine ⟨_, after, _, (List.append_assoc ..).symm,
        .step hopcode hexit (hown.trans hwords.symm) hcleared, ?_⟩
      rw [← haccepted.header_eq]
      exact .step (fun h ↦ hexit (h ▸ rfl)) haccepted.operands haccepted.ahead hwritten

namespace Written

variable {a offset : Nat} {decoded : List (Nat × Instruction Nat)} {words : List UInt32}

/-- A stream ends within the address space. -/
theorem length_le (h : Written a decoded words) : a + words.length ≤ addressSpace := by
  induction h with
  | exit ha => exact ha
  | step _ operands _ _ ih =>
    have hown := length_encodeOperands operands
    rw [List.length_append, List.length_cons]
    omega

/-- All instructions of a stream stand within its words. -/
theorem bounds (h : Written a decoded words) :
    ∀ d ∈ decoded, a ≤ d.1 ∧ d.1 < a + words.length := by
  induction h with
  | exit =>
    intro d hd
    rw [List.mem_singleton.1 hd]
    exact ⟨Nat.le_refl _, Nat.lt_succ_self _⟩
  | step _ operands _ _ ih =>
    have hown := length_encodeOperands operands
    rw [List.length_append, List.length_cons]
    refine List.forall_mem_cons.2 ⟨⟨Nat.le_refl _, ?_⟩, fun d hd ↦ ?_⟩
    · show _ < _
      omega
    · have := ih d hd
      omega

/-- The instructions stand in the order of their addresses. -/
theorem sorted (h : Written a decoded words) : (decoded.map (·.1)).Pairwise (· < ·) := by
  induction h with
  | exit => exact List.pairwise_singleton _ _
  | @step a i own words decoded _ _ _ rest ih =>
    refine List.pairwise_cons.2 ⟨fun b hb ↦ ?_, ih⟩
    obtain ⟨d, hd, rfl⟩ := List.mem_map.1 hb
    have hle := (rest.bounds d hd).1
    have hlength := i.length_pos
    show a < d.1
    omega

/-- No two instructions of a stream stand at one address. -/
theorem nodup (h : Written a decoded words) : (decoded.map (·.1)).Nodup :=
  h.sorted.imp Nat.ne_of_lt

/-- All jumps of a stream go forward. -/
theorem ahead (h : Written a decoded words) : ∀ d ∈ decoded, ∀ t ∈ d.2.targets, d.1 < t := by
  induction h with
  | exit => exact fun d hd ↦ List.mem_singleton.1 hd ▸ nofun
  | step _ _ hahead _ ih => exact List.forall_mem_cons.2 ⟨hahead, ih⟩

/-- A jump that leads to one of the instructions leads to an address of the space. -/
theorem target_lt (h : Written a decoded words) {t : Nat} (ht : t ∈ decoded.map (·.1)) :
    a ≤ t ∧ t < addressSpace := by
  obtain ⟨d, hd, rfl⟩ := List.mem_map.1 ht
  have hbounds := h.bounds d hd
  have hlength := h.length_le
  exact ⟨hbounds.1, by omega⟩

/-- The words stand for the same instructions wherever they are copied to. -/
theorem decodeFrom_eq (h : Written a decoded words) (le : offset ≤ a)
    (boundary : ∀ d ∈ decoded, ∀ t ∈ d.2.targets, t < addressSpace) :
    decodeFrom (a - offset) words = .ok (decoded.map (moveEntry (· - offset))) := by
  have hreach : ∀ {a t : Nat}, offset ≤ a → a < t → t < addressSpace →
      Reaches (fun t ↦ .ok (gap a t)) (· - offset) (a - offset) t := by
    intro a t le hlt hrange d hd
    obtain rfl := Except.ok.inj hd
    have hrange : t < 4294967296 := hrange
    have hgap : (gap a t).toNat = t - a := UInt32.toNat_ofNat_of_lt' (by show _ < 4294967296; omega)
    have hne : gap a t ≠ 0 := by
      intro hzero
      rw [hzero] at hgap
      have : 0 = t - a := hgap
      omega
    have htarget := restores_target hne (a := a - offset) (by omega)
    rwa [hgap, show a - offset + (t - a) = t - offset by omega] at htarget
  induction h with
  | @exit a ha =>
    have hexit : encodeInstruction (fun t : Nat ↦ .ok (gap 0 t)) .exit = .ok [_] := rfl
    have hnone : ∀ t ∈ (Instruction.exit : Instruction Nat).targets,
        Reaches (fun t ↦ .ok (gap 0 t)) (· - offset) (a - offset) t := nofun
    exact decodeFrom_encodeInstruction hexit hnone
      (Nat.lt_of_le_of_lt (Nat.sub_le _ offset) ha) []
  | @step a i own words decoded hexit operands hahead rest ih =>
    rw [List.forall_mem_cons] at boundary
    have hi := encodeInstruction_of_operands operands
    have hlength := rest.length_le
    have hpos := i.length_pos
    have hdecode := decodeFrom_encodeInstruction hi
      (fun t ht ↦ hreach le (hahead t ht) (boundary.1 t ht))
      (show a - offset < addressSpace by omega) words
    have hopcode : i.opcode ≠ .exit := fun h ↦ hexit (Instruction.eq_exit_of_opcode h)
    rw [hdecode, if_neg hopcode, ← Nat.sub_add_comm le, ih (by omega) boundary.2]
    rfl

/-- Given the addresses that the numbers of jumps stand for, the numbered lines are encoded as the
words. -/
theorem encodeFrom_eq {table : AddressTable} {marked : List Nat} (h : Written a decoded words)
    (le : offset ≤ a)
    (look : ∀ d ∈ decoded, ∀ t ∈ d.2.targets,
      table.lookup (marked.idxOf t) = some (t - offset)) :
    encodeFrom table (a - offset) (numberedLines marked decoded) = .ok words := by
  -- Marks are not encoded.
  have hmark : ∀ (a b l : Nat) (lines : List Line),
      encodeFrom table b ((if marked.contains a then [.mark l] else []) ++ lines) =
        encodeFrom table b lines := by
    intro a b l lines
    split <;> rfl
  induction h with
  | exit =>
    rw [numberedLines, hmark]
    rfl
  | @step a i own words decoded _ operands hahead _ ih =>
    rw [List.forall_mem_cons] at look
    have hdistance : ∀ t ∈ i.targets,
        distance table (a - offset) (marked.idxOf t) = .ok (gap a t) := by
      intro t ht
      have hlt := hahead t ht
      rw [distance, look.1 t ht]
      simp only
      rw [if_neg (by omega), gap, show t - offset - (a - offset) = t - a by omega]
    have hi : encodeInstruction (distance table (a - offset)) (i.map marked.idxOf) =
        .ok (i.header :: own) := by
      rw [← header_map marked.idxOf i]
      refine encodeInstruction_of_operands ?_
      rw [encodeOperands_map, encodeOperands_congr hdistance, operands]
    rw [numberedLines, hmark, encodeFrom, hi, Instruction.length_map, ← Nat.sub_add_comm le]
    show (encodeFrom _ _ _ >>= _) = _
    rw [ih (by omega) look.2]
    rfl

/-- A mark that may be there takes no room. -/
theorem extent_mark_or_nil (marked : List Nat) (b l : Nat) :
    Line.extent (if marked.contains b then [.mark l] else []) = 0 := by
  split <;> rfl

/-- A list that is decoded measures as many words as it was decoded from. -/
theorem extent_numberedLines {marked : List Nat} (h : Written a decoded words) :
    Line.extent (numberedLines marked decoded) = words.length := by
  induction h with
  | exit =>
    rw [numberedLines, Line.extent_append, extent_mark_or_nil]
    rfl
  | step _ operands _ _ ih =>
    have hown := length_encodeOperands operands
    rw [numberedLines, Line.extent_append, extent_mark_or_nil, Line.extent_op, ih,
      Instruction.length_map, List.length_append, List.length_cons, hown, Nat.zero_add]

/-- The mark in front of an instruction is located at the address of the instruction. -/
theorem lookup_of_located {table : AddressTable} {marked : List Nat} (h : Written a decoded words)
    (le : offset ≤ a) (located : Located table (a - offset) (numberedLines marked decoded)) :
    ∀ t ∈ decoded.map (·.1), t ∈ marked → table.lookup (marked.idxOf t) = some (t - offset) := by
  induction h with
  | exit =>
    intro t ht hmarked
    obtain rfl := List.mem_singleton.1 ht
    rw [numberedLines, if_pos (List.contains_iff_mem.2 hmarked)] at located
    exact located.1
  | @step a i own words decoded _ _ _ _ ih =>
    intro t ht hmarked
    rw [numberedLines, located_append] at located
    rw [extent_mark_or_nil, Nat.add_zero, Located, Instruction.length_map,
      ← Nat.sub_add_comm le] at located
    rcases List.mem_cons.1 ht with rfl | ht
    · rw [if_pos (List.contains_iff_mem.2 hmarked)] at located
      exact located.1.1
    · exact ih (by omega) located.2 t ht hmarked

end Written

end Shading
