import Mathlib.Data.List.TakeWhile
import Shading.Proofs.Code.Normalization

/-!
# Jumps past the first exit

Encoding and decoding look at jumps in different ways. Encoding asks that the location is marked
behind the jump, anywhere in the list; decoding stops at the first exit and asks that an instruction
of what it has read starts at the target. The two agree on a list exactly if the jumps in front of
its first exit stay in front of it (`Line.Enclosed`): then the lines up to the exit are read back,
in canonical form. Otherwise the words that were written are refused, for a target behind the exit
(`decode_encode_eq`).

A jump that is encoded has an address in the table of locations, so the only thing to compare is
whether its mark stands in front of the exit or behind it.
-/

namespace Shading

variable {table : AddressTable} {address : Nat} {lines : List Line} {words : List UInt32}

namespace Line

/-- The lines in front of the first exit. -/
def body (lines : List Line) : List Line := lines.takeWhile (· ≠ .op .exit)

/-- The jumps in front of the first exit refer to locations that are marked in front of it. -/
def Enclosed (lines : List Line) : Prop :=
  ∀ i ∈ instructions (body lines), ∀ l ∈ i.targets, l ∈ marks (body lines)

instance : DecidablePred Enclosed := fun lines ↦
  inferInstanceAs (Decidable (∀ i ∈ instructions (body lines), ∀ l ∈ i.targets, _))

theorem mem_instructions {i : Instruction Nat} : i ∈ instructions lines ↔ .op i ∈ lines := by
  induction lines with
  | nil => simp
  | cons x lines ih => cases x <;> simp [ih]

/-- What precedes the first exit has no exit. -/
theorem exit_notMem_body : .exit ∉ instructions (body lines) := by
  rw [mem_instructions]
  intro h
  simpa using List.mem_takeWhile_imp h

/-- What follows the first exit does not count. -/
theorem body_append (h : .exit ∉ instructions lines) (after : List Line) :
    body (lines ++ .op .exit :: after) = lines := by
  rw [body, List.takeWhile_append_of_pos, List.takeWhile_cons_of_neg (by simp), List.append_nil]
  intro x hx
  have hne : x ≠ .op .exit := fun heq ↦ h (mem_instructions.2 (heq ▸ hx))
  simpa using hne

/-- A list with an exit is its body, the exit, and what follows. -/
theorem exists_eq_body_append (h : .exit ∈ instructions lines) :
    ∃ after, lines = body lines ++ .op .exit :: after := by
  rw [mem_instructions] at h
  induction lines with
  | nil => cases h
  | cons x lines ih =>
    by_cases hx : x = .op .exit
    · exact ⟨lines, by simp [body, hx]⟩
    · obtain ⟨after, hafter⟩ := ih ((List.mem_cons.1 h).resolve_left (Ne.symm hx))
      refine ⟨after, ?_⟩
      rw [body, List.takeWhile_cons_of_pos (by simpa using hx), List.cons_append]
      exact congrArg _ hafter

end Line

/-! ### What is encoded -/

/-- If all locations are resolved, each of them is. -/
theorem resolveAll_eq_ok {ℓ : Type} {resolve : ℓ → Except EncodeError UInt32} {ls : List ℓ}
    (h : resolveAll resolve ls = .ok words) : ∀ l ∈ ls, ∃ d, resolve l = .ok d := by
  induction ls generalizing words with
  | nil => exact nofun
  | cons l ls ih =>
    obtain ⟨d, rest, -, hd, hrest⟩ := resolveAll_cons h
    exact List.forall_mem_cons.2 ⟨⟨d, hd⟩, ih hrest⟩

/-- If a table is encoded, each of its locations is resolved. -/
theorem encodeStops_eq_ok {ℓ : Type} {resolve : ℓ → Except EncodeError UInt32}
    {stops : StopTable ℓ} (h : encodeStops resolve stops = .ok words) :
    ∀ l ∈ stops.targets, ∃ d, resolve l = .ok d := by
  obtain ⟨ends, hends, h⟩ := bind_eq_ok_iff.1 h
  obtain ⟨places, hplaces, -⟩ := bind_eq_ok_iff.1 h
  rw [StopTable.targets, List.forall_mem_append]
  exact ⟨resolveAll_eq_ok hplaces, resolveAll_eq_ok hends⟩

/-- The jumps of an instruction that is encoded have distances. -/
theorem encodeOperands_eq_ok {ℓ : Type} {resolve : ℓ → Except EncodeError UInt32}
    {i : Instruction ℓ} (h : encodeOperands resolve i = .ok words) :
    ∀ l ∈ i.targets, ∃ d, resolve l = .ok d := by
  cases i with
  | opaqueJump target => exact resolveAll_eq_ok h
  | linearBlendRatio ramp accuracy branches | radialBlendRatio ramp accuracy branches =>
    obtain ⟨ds, hds, -⟩ := bind_eq_ok_iff.1 h
    exact resolveAll_eq_ok hds
  | linearGradientRatio axis accuracy extend stops
  | radialGradientRatio circles accuracy extend stops =>
    obtain ⟨-, h⟩ := check_bind_eq_ok_iff.1 h
    obtain ⟨ds, hds, -⟩ := bind_eq_ok_iff.1 h
    exact encodeStops_eq_ok hds
  | _ => exact nofun

/-- There is a distance exactly to locations that are marked further on. -/
theorem exists_distance_iff {address l : Nat} :
    (∃ d, distance table address l = .ok d) ↔ address < (table.lookup l).getD 0 := by
  rw [distance]
  rcases table.lookup l with - | target
  · simp
  · by_cases hle : target ≤ address
    · simp [hle]
    · simp [hle, Nat.lt_of_not_le hle]

/-- Encoding encodes every instruction, at its address. -/
theorem exists_of_encodeFrom {xs ys : List Line} {i : Instruction Nat} {address : Nat}
    (h : encodeFrom table address (xs ++ .op i :: ys) = .ok words) :
    ∃ own, encodeInstruction (distance table (address + Line.extent xs)) i = .ok own := by
  induction xs generalizing address words with
  | nil =>
    obtain ⟨own, hown, -⟩ := bind_eq_ok_iff.1 h
    exact ⟨own, hown⟩
  | cons x xs ih =>
    cases x with
    | mark k =>
      rw [Line.extent_mark]
      exact ih h
    | op j =>
      obtain ⟨own, -, h⟩ := bind_eq_ok_iff.1 h
      obtain ⟨later, hlater, -⟩ := bind_eq_ok_iff.1 h
      rw [Line.extent_op, ← Nat.add_assoc]
      exact ih hlater

/-- The jumps of a list that is encoded refer to locations that have an address. -/
theorem isSome_lookup_of_encodeFrom (h : encodeFrom table address lines = .ok words) :
    ∀ i ∈ Line.instructions lines, ∀ l ∈ i.targets, (table.lookup l).isSome := by
  intro i hi l hl
  obtain ⟨before, rest, rfl⟩ := List.append_of_mem (Line.mem_instructions.1 hi)
  obtain ⟨own, hown⟩ := exists_of_encodeFrom h
  obtain ⟨-, operands, -, hoperands⟩ := encodeInstruction_eq_ok hown
  have hlt := exists_distance_iff.1 (encodeOperands_eq_ok hoperands l hl)
  cases hlook : table.lookup l with
  | none => rw [hlook] at hlt; cases hlt
  | some target => rfl

/-- A list that is given addresses has fewer words than there are addresses. -/
theorem extent_lt_of_locate (h : locate 0 [] lines = .ok table) :
    Line.extent lines < addressSpace := by
  have hnodup := (located_of_locate h).2.1
  by_contra hlong
  have hlocate : if 0 + Line.extent lines < addressSpace then _
      else locate 0 [] lines = .error .tooLong :=
    locate_of_nodup hnodup (fun _ _ ↦ rfl) (by decide)
  rw [if_neg (by omega), h] at hlocate
  cases hlocate

/-- Every location has a place within the list, or none and the place zero. -/
theorem placeAt_lt_of_locate (h : locate 0 [] lines = .ok table) (l : Nat) :
    placeAt table 0 l < addressSpace := by
  obtain ⟨located, -, -, hother⟩ := located_of_locate h
  have hextent := extent_lt_of_locate h
  by_cases hl : l ∈ Line.marks lines
  · obtain ⟨xs, ys, rfl⟩ := exists_mark hl
    have hlook : table.lookup l = some (0 + Line.extent xs) := (located_append.1 located).2.1
    rw [Line.extent_append] at hextent
    rw [placeAt, hlook, Option.getD_some]
    omega
  · rw [placeAt, hother l hl]
    show 0 < addressSpace
    decide

/-! ### What is decoded -/

/-- The words of a list are decoded up to its first exit, and the marks are left to be put. -/
theorem decode_encode_eq_markTargets (hlocate : locate 0 [] lines = .ok table)
    (encodes : encodeFrom table 0 lines = .ok words) (exit : .exit ∈ Line.instructions lines) :
    decode words 0 =
      markTargets (Line.entries (placeAt table 0) 0 (Line.body lines ++ [.op .exit])) := by
  obtain ⟨after, hafter⟩ := Line.exists_eq_body_append exit
  have hextent := extent_lt_of_locate hlocate
  have hlength := length_encodeFrom encodes
  rw [addressSpace] at hextent
  rw [hafter] at encodes
  have hdecode : decodeFrom (0 + 0) (words ++ []) = _ :=
    decodeFrom_encodeFrom encodes Line.exit_notMem_body
      (fun _ _ l _ ↦ placeAt_lt_of_locate hlocate l) (by omega) []
  rw [List.append_nil, Nat.zero_add] at hdecode
  rw [decode, List.drop_zero, hdecode]
  rfl

/-- The lines up to the first exit of an enclosed list are complete. -/
theorem Line.Enclosed.complete (h : Line.Enclosed lines) :
    Line.Complete (Line.body lines ++ [.op .exit]) :=
  ⟨Line.body lines, [], rfl, Line.exit_notMem_body, rfl, h⟩

/-- The targets of some instructions are the places of what these refer to. -/
theorem mem_targets_entries {place : Nat → Nat} {t : Nat} :
    t ∈ (Line.entries place address lines).flatMap (·.2.targets) ↔
      ∃ i ∈ Line.instructions lines, ∃ l ∈ i.targets, place l = t := by
  have hsnd : (Line.entries place address lines).map (·.2) =
      (Line.instructions lines).map (·.map place) := Line.map_snd_entries
  have hflat : (Line.entries place address lines).flatMap (·.2.targets) =
      ((Line.instructions lines).map (·.map place)).flatMap (·.targets) := by
    rw [← hsnd, List.flatMap_map]
  rw [hflat, List.flatMap_map, List.mem_flatMap]
  simp only [Instruction.targets_map, List.mem_map]

/-- The first target that is no boundary is reported, if there is one. -/
theorem checkTargets_eq_error {boundaries targets : List Nat}
    (h : ¬ ∀ t ∈ targets, t ∈ boundaries) :
    ∃ t ∈ targets, t ∉ boundaries ∧ checkTargets boundaries targets = .error (.notBoundary t) := by
  induction targets with
  | nil => exact absurd (nofun : ∀ t ∈ [], t ∈ boundaries) h
  | cons t targets ih =>
    rw [checkTargets]
    by_cases ht : t ∈ boundaries
    · obtain ⟨u, hu, hnot, hcheck⟩ := ih fun hall ↦ h (List.forall_mem_cons.2 ⟨ht, hall⟩)
      rw [if_pos (List.contains_iff_mem.2 ht)]
      exact ⟨u, List.mem_cons_of_mem _ hu, hnot, hcheck⟩
    · rw [if_neg (mt List.contains_iff_mem.1 ht)]
      exact ⟨t, List.mem_cons_self, ht, rfl⟩

section

variable {i : Instruction Nat} {l : Nat} (hlocate : locate 0 [] lines = .ok table)
  (encodes : encodeFrom table 0 lines = .ok words) (exit : .exit ∈ Line.instructions lines)

include hlocate exit

/-- A location that is marked in front of the exit is found where an instruction starts. -/
theorem placeAt_mem_boundaries (hl : l ∈ Line.marks (Line.body lines)) :
    placeAt table 0 l ∈
      (Line.entries (placeAt table 0) 0 (Line.body lines ++ [.op .exit])).map (·.1) := by
  obtain ⟨located, nodup, -, -⟩ := located_of_locate hlocate
  obtain ⟨after, hafter⟩ := Line.exists_eq_body_append exit
  rw [hafter, List.append_cons] at located nodup
  rw [Line.marks_append] at nodup
  obtain ⟨xs, ys, hbody⟩ := exists_mark hl
  have hsplit : Line.body lines ++ [.op .exit] = xs ++ .mark l :: (ys ++ [.op .exit]) := by
    rw [hbody, List.append_assoc]
    rfl
  exact (placeAt_mark hsplit (List.nodup_append.1 nodup).1 (located_append.1 located).1
    (by simp)).2.1

include encodes

/-- A jump in front of the exit to a location that is not marked there is encoded as one to the
address of a mark behind the exit. -/
theorem exists_mark_behind (hi : i ∈ Line.instructions (Line.body lines)) (hl : l ∈ i.targets)
    (hmark : l ∉ Line.marks (Line.body lines)) :
    ∃ xs ys, lines = Line.body lines ++ .op .exit :: xs ++ .mark l :: ys ∧
      placeAt table 0 l = Line.extent (Line.body lines ++ .op .exit :: xs) := by
  obtain ⟨located, -, -, hother⟩ := located_of_locate hlocate
  obtain ⟨after, hafter⟩ := Line.exists_eq_body_append exit
  have hi' : i ∈ Line.instructions lines := by
    rw [hafter, Line.instructions_append]
    exact List.mem_append_left _ hi
  have hmarked : l ∈ Line.marks lines := by
    by_contra hnot
    have := isSome_lookup_of_encodeFrom encodes i hi' l hl
    rw [hother l hnot] at this
    cases this
  rw [hafter, Line.marks_append] at hmarked
  have hbehind : l ∈ Line.marks after := (List.mem_append.1 hmarked).resolve_left hmark
  obtain ⟨xs, ys, rfl⟩ := exists_mark hbehind
  have hsplit : lines = Line.body lines ++ .op .exit :: xs ++ .mark l :: ys := by
    rw [List.append_assoc, List.cons_append]
    exact hafter
  refine ⟨xs, ys, hsplit, ?_⟩
  rw [hsplit] at located
  have hlook : table.lookup l = some (0 + Line.extent (Line.body lines ++ .op .exit :: xs)) :=
    (located_append.1 located).2.1
  rw [placeAt, hlook, Option.getD_some]
  omega

/-- An enclosed list is read back, up to its first exit. -/
theorem decode_of_enclosed (enclosed : Line.Enclosed lines) :
    ∃ decoded, decode words 0 = .ok decoded ∧
      canonical decoded = canonical (Line.body lines ++ [.op .exit]) := by
  obtain ⟨located, nodup, -, -⟩ := located_of_locate hlocate
  obtain ⟨after, hafter⟩ := Line.exists_eq_body_append exit
  rw [hafter, List.append_cons] at located nodup
  rw [Line.marks_append] at nodup
  rw [decode_encode_eq_markTargets hlocate encodes exit]
  exact exists_markTargets_entries enclosed.complete (List.nodup_append.1 nodup).1
    (located_append.1 located).1

/-- The words of a list that is not enclosed are refused, for a target behind the exit. -/
theorem decode_of_not_enclosed (enclosed : ¬ Line.Enclosed lines) :
    ∃ xs l ys, lines = Line.body lines ++ .op .exit :: xs ++ .mark l :: ys ∧
      decode words 0 =
        .error (.notBoundary (Line.extent (Line.body lines ++ .op .exit :: xs))) := by
  generalize hentries : Line.entries (placeAt table 0) 0 (Line.body lines ++ [.op .exit]) = entries
  have hmem : ∀ t, t ∈ entries.flatMap (·.2.targets) ↔
      ∃ i ∈ Line.instructions (Line.body lines), ∃ l ∈ i.targets, placeAt table 0 l = t := by
    intro t
    rw [← hentries, mem_targets_entries, Line.instructions_append]
    refine ⟨fun ⟨i, hi, l, hl, hplace⟩ ↦ ?_, fun ⟨i, hi, h⟩ ↦ ⟨i, List.mem_append_left _ hi, h⟩⟩
    rcases List.mem_append.1 hi with hi | hi
    · exact ⟨i, hi, l, hl, hplace⟩
    · rw [List.mem_singleton.1 hi] at hl
      cases hl
  -- Some jump leads behind the exit, where nothing is read.
  have hbeyond : ¬ ∀ t ∈ entries.flatMap (·.2.targets), t ∈ entries.map (·.1) := by
    intro hall
    simp only [Line.Enclosed, not_forall] at enclosed
    obtain ⟨i, hi, l, hl, hmark⟩ := enclosed
    obtain ⟨xs, ys, -, hplace⟩ := exists_mark_behind hlocate encodes exit hi hl hmark
    obtain ⟨d, hd, hfst⟩ := List.mem_map.1 (hall _ ((hmem _).2 ⟨i, hi, l, hl, rfl⟩))
    rw [← hentries] at hd
    have hlt := (Line.mem_entries hd).2
    have hone : (Instruction.exit : Instruction Nat).length = 1 := rfl
    simp only [hfst, hplace, Line.extent_append, Line.extent_op, Line.extent_nil, hone] at hlt
    omega
  obtain ⟨t, ht, hnot, hcheck⟩ := checkTargets_eq_error hbeyond
  obtain ⟨i, hi, l, hl, rfl⟩ := (hmem t).1 ht
  have hmark : l ∉ Line.marks (Line.body lines) := fun h ↦
    hnot (hentries ▸ placeAt_mem_boundaries hlocate exit h)
  obtain ⟨xs, ys, hlines, hplace⟩ := exists_mark_behind hlocate encodes exit hi hl hmark
  refine ⟨xs, l, ys, hlines, ?_⟩
  rw [decode_encode_eq_markTargets hlocate encodes exit, hentries, markTargets, ← hplace, hcheck]
  rfl

end

/-- What is decoded from the words of a list: the lines up to its first exit, if the jumps among
them stay there, and otherwise nothing, since the target of some jump is behind that exit. -/
theorem decode_encode_eq (encodes : encode lines = .ok words) :
    if Line.Enclosed lines then
      ∃ decoded, decode words 0 = .ok decoded ∧
        canonical decoded = canonical (Line.body lines ++ [.op .exit])
    else
      ∃ xs l ys, lines = Line.body lines ++ .op .exit :: xs ++ .mark l :: ys ∧
        decode words 0 =
          .error (.notBoundary (Line.extent (Line.body lines ++ .op .exit :: xs))) := by
  obtain ⟨exit, table, hlocate, hencode⟩ := encode_eq_ok encodes
  split
  next enclosed => exact decode_of_enclosed hlocate hencode exit enclosed
  next enclosed => exact decode_of_not_enclosed hlocate hencode exit enclosed

/-- A list that goes on behind an exit is read back up to that. -/
theorem decode_jumpReturnWords :
    encode [.op (.opaqueJump 5), .op .premultiply, .mark 5, .op .exit, .op .ret, .op .exit] =
        .ok [3, 3, 7, 0, 1, 0] ∧
      ∃ decoded, decode [3, 3, 7, 0, 1, 0] 0 = .ok decoded ∧
        canonical decoded = [.opaqueJump (some 2), .premultiply, .exit] := by
  have encodes : encode [.op (.opaqueJump 5), .op .premultiply, .mark 5, .op .exit, .op .ret,
      .op .exit] = .ok [3, 3, 7, 0, 1, 0] := rfl
  have hdecode := decode_encode_eq encodes
  rw [if_pos (by decide)] at hdecode
  exact ⟨encodes, hdecode⟩

/-- A jump to a mark behind the exit is encoded, and the words are refused. -/
theorem decode_jumpOverExit :
    encode [.op (.opaqueJump 0), .op .exit, .mark 0] = .ok [3, 3, 0] ∧
      decode [3, 3, 0] 0 = .error (.notBoundary 3) := by
  have encodes : encode [.op (.opaqueJump 0), .op .exit, .mark 0] = .ok [3, 3, 0] := rfl
  obtain ⟨exit, table, hlocate, hencode⟩ := encode_eq_ok encodes
  rw [decode_encode_eq_markTargets hlocate hencode exit]
  cases hlocate
  exact ⟨encodes, rfl⟩

end Shading
