import Shading.Proofs.Code.Written

/-!
# Decoded streams encoded again

Decoding accepts nothing that encoding could not have written, except for header bits that are not
read: a list that is decoded is encoded as the words that it was decoded from, with these bits
cleared, and decoding those gives the list again, with the same numbers for its locations
(`encode_decode`). The only lists that are decoded but not encoded have as many words as there are
addresses: encoding refuses an address behind its exit (`encode_decode_tooLong`).
-/

namespace Shading

variable {decoded : List (Nat × Instruction Nat)} {lines : List Line} {marked : List Nat}

/-! ### Numbers of marks -/

/-- The marks of a list are numbered in their order, no two of them stand in front of the same
instruction, and they are the locations that jumps refer to. -/
structure Line.Numbered (lines : List Line) : Prop where
  marks_eq : marks lines = List.range (marks lines).length
  apart : ∀ k ∈ marks lines, ∀ l ∈ marks lines,
    positionOf k 0 lines = positionOf l 0 lines → k = l
  mem_marks : ∀ l, l ∈ marks lines ↔ ∃ i ∈ instructions lines, l ∈ i.targets

/-- Marks are numbered by their places among the marked addresses, in the order of addresses. -/
theorem marks_numberedLines :
    Line.marks (numberedLines marked decoded) =
      ((decoded.map (·.1)).filter marked.contains).map marked.idxOf := by
  induction decoded with
  | nil => rfl
  | cons d ds ih =>
    rw [numberedLines, Line.marks_append, Line.marks, ih, List.map_cons, List.filter_cons]
    split <;> rfl

/-- Each of some distinct elements has its position as its number. -/
theorem map_idxOf_self {xs : List Nat} (nodup : xs.Nodup) :
    xs.map xs.idxOf = List.range xs.length := by
  refine List.ext_getElem (by simp) fun k hk _ ↦ ?_
  rw [List.getElem_map, List.getElem_range, nodup.idxOf_getElem]

/-- If all targets are boundaries, marks are numbered from zero, one for each target. -/
theorem numbered_numberedLines (nodup : (decoded.map (·.1)).Nodup)
    (boundary : ∀ d ∈ decoded, ∀ t ∈ d.2.targets, t ∈ decoded.map (·.1)) :
    Line.Numbered (numberedLines (markedAddresses decoded) decoded) := by
  have hmarked : ∀ a, a ∈ markedAddresses decoded ↔ ∃ d ∈ decoded, a ∈ d.2.targets := by
    intro a
    rw [markedAddresses, List.mem_filter, List.contains_iff_mem, List.mem_flatMap]
    refine ⟨fun h ↦ h.2, fun h ↦ ?_⟩
    obtain ⟨d, hd, ha⟩ := h
    exact ⟨boundary d hd a ha, d, hd, ha⟩
  have hfilter : (decoded.map (·.1)).filter (markedAddresses decoded).contains =
      markedAddresses decoded := by
    refine List.filter_congr fun a ha ↦ ?_
    rw [Bool.eq_iff_iff, List.contains_iff_mem, markedAddresses, List.mem_filter]
    exact ⟨fun h ↦ h.2, fun h ↦ ⟨ha, h⟩⟩
  have hmarks : Line.marks (numberedLines (markedAddresses decoded) decoded) =
      List.range (markedAddresses decoded).length := by
    rw [marks_numberedLines, hfilter]
    exact map_idxOf_self (nodup.filter _)
  have hposition : ∀ l ∈ Line.marks (numberedLines (markedAddresses decoded) decoded),
      ∃ a ∈ decoded.map (·.1), (markedAddresses decoded).idxOf a = l ∧
        positionOf l 0 (numberedLines (markedAddresses decoded) decoded) =
          some ((decoded.map (·.1)).idxOf a) := by
    intro l hl
    obtain ⟨a, hmem, ha, rfl⟩ := mem_marks_numberedLines.1 hl
    refine ⟨a, hmem, rfl, ?_⟩
    rw [positionOf_numberedLines nodup ha hmem, Nat.zero_add]
  refine ⟨by rw [hmarks, List.length_range], fun k hk l hl h ↦ ?_, fun l ↦ ?_⟩
  · obtain ⟨a, ha, rfl, hpa⟩ := hposition k hk
    obtain ⟨b, -, rfl, hpb⟩ := hposition l hl
    rw [hpa, hpb, Option.some.injEq, List.idxOf_inj ha] at h
    rw [h]
  · rw [mem_marks_numberedLines, instructions_numberedLines]
    constructor
    · rintro ⟨a, -, ha, rfl⟩
      obtain ⟨d, hd, hda⟩ := (hmarked a).1 ha
      refine ⟨_, List.mem_map_of_mem hd, ?_⟩
      rw [Instruction.targets_map]
      exact List.mem_map_of_mem hda
    · rintro ⟨i, hi, hl⟩
      obtain ⟨d, hd, rfl⟩ := List.mem_map.1 hi
      rw [Instruction.targets_map] at hl
      obtain ⟨a, ha, rfl⟩ := List.mem_map.1 hl
      exact ⟨a, boundary d hd a ha, (hmarked a).2 ⟨d, hd, ha⟩, rfl⟩

/-! ### Encoding what was decoded -/

/-- Distinct locations are given addresses, unless the list does not fit the addresses. -/
theorem locate_of_nodup {before : AddressTable} {next : Nat}
    (nodup : (Line.marks lines).Nodup) (fresh : ∀ l ∈ Line.marks lines, before.lookup l = none)
    (range : next < addressSpace) :
    if next + Line.extent lines < addressSpace then ∃ table, locate next before lines = .ok table
    else locate next before lines = .error .tooLong := by
  induction lines generalizing before next with
  | nil => exact (if_pos range).mpr ⟨before, rfl⟩
  | cons x lines ih =>
    cases x with
    | mark k =>
      rw [Line.marks, List.nodup_cons] at nodup
      have hk : before.lookup k = none := fresh k List.mem_cons_self
      have hfresh : ∀ l ∈ Line.marks lines, ((k, next) :: before).lookup l = none := by
        intro l hl
        have hne : (l == k) = false := beq_false_of_ne fun h ↦ nodup.1 (h ▸ hl)
        rw [List.lookup_cons, hne]
        exact fresh l (List.mem_cons_of_mem _ hl)
      rw [Line.extent_mark, locate, hk]
      exact ih nodup.2 hfresh range
    | op i =>
      rw [Line.extent_op, locate, ← Nat.add_assoc]
      by_cases h : addressSpace ≤ next + i.length
      · rw [if_pos h, if_neg (by omega)]
      · rw [if_neg h]
        exact ih nodup fresh (Nat.lt_of_not_le h)

namespace Written

variable {a : Nat} {words : List UInt32}

/-- What is decoded ends with its only exit. -/
theorem getLast?_instructions (h : Written a decoded words) :
    (Line.instructions (numberedLines marked decoded)).getLast? = some .exit := by
  rw [instructions_numberedLines]
  induction h with
  | exit => rfl
  | step _ _ _ rest ih =>
    rw [List.map_cons, List.getLast?_cons, ih]
    rfl

/-- The marked instructions are encoded as their words, unless these take up all addresses: there
would be no address for what follows the exit. -/
theorem encode_eq (h : Written a decoded words)
    (boundary : ∀ d ∈ decoded, ∀ t ∈ d.2.targets, t ∈ decoded.map (·.1)) :
    encode (numberedLines (markedAddresses decoded) decoded) =
      if words.length = addressSpace then .error .tooLong else .ok words := by
  have hnodup : (Line.marks (numberedLines (markedAddresses decoded) decoded)).Nodup :=
    nodup_marks_numberedLines h.nodup
  have hlocate := locate_of_nodup hnodup (fun l _ ↦ List.lookup_nil (a := l))
    (by decide : 0 < addressSpace)
  rw [Nat.zero_add, h.extent_numberedLines] at hlocate
  rw [encode, if_pos h.getLast?_instructions]
  split at hlocate
  case isTrue hfits =>
    obtain ⟨table, htable⟩ := hlocate
    obtain ⟨hlocated, -⟩ := located_of_locate htable
    rw [← Nat.sub_self a] at hlocated
    have hlook : ∀ d ∈ decoded, ∀ t ∈ d.2.targets,
        table.lookup ((markedAddresses decoded).idxOf t) = some (t - a) := by
      intro d hd t ht
      have hmem := boundary d hd t ht
      exact h.lookup_of_located (Nat.le_refl a) hlocated t hmem
        (List.mem_filter.2 ⟨hmem, List.contains_iff_mem.2 (List.mem_flatMap.2 ⟨d, hd, ht⟩)⟩)
    have hencode := h.encodeFrom_eq (Nat.le_refl a) hlook
    rw [Nat.sub_self] at hencode
    rw [if_neg (Nat.ne_of_lt hfits), htable]
    exact hencode
  case isFalse hfits =>
    have hlength := h.length_le
    rw [if_pos (by omega), hlocate]
    rfl

/-- The words are decoded to the marked instructions, although they stand elsewhere. -/
theorem decode_eq (h : Written a decoded words)
    (boundary : ∀ d ∈ decoded, ∀ t ∈ d.2.targets, t ∈ decoded.map (·.1)) :
    decode words 0 = .ok (numberedLines (markedAddresses decoded) decoded) := by
  have htarget : ∀ d ∈ decoded, ∀ t ∈ d.2.targets, a ≤ t ∧ t < addressSpace :=
    fun d hd t ht ↦ h.target_lt (boundary d hd t ht)
  have hdecode := h.decodeFrom_eq (Nat.le_refl a) fun d hd t ht ↦ (htarget d hd t ht).2
  rw [Nat.sub_self] at hdecode
  -- Moved back to where they were decoded from, the instructions are what they were.
  have hback : (decoded.map (moveEntry (· - a))).map (moveEntry (a + ·)) = decoded := by
    rw [List.map_map]
    refine (List.map_congr_left fun d hd ↦ ?_).trans (List.map_id decoded)
    have hle := (h.bounds d hd).1
    refine Prod.ext (Nat.add_sub_cancel' hle) ?_
    show (d.2.map _).map _ = d.2
    rw [Instruction.map_map]
    exact (Instruction.map_congr fun t ht ↦ Nat.add_sub_cancel' (htarget d hd t ht).1).trans
      (Instruction.map_id d.2)
  rw [decode, List.drop_zero, hdecode]
  refine markTargets_of_moveEntry (f := (a + ·)) (fun _ _ ↦ Nat.add_left_cancel) ?_
  rw [hback]
  exact markTargets_eq_ok_iff.2 ⟨boundary, rfl⟩

end Written

/-- A list that is decoded from some words of a buffer is encoded as these words, with the bits of
headers cleared that are not read, unless the words take up the whole address space; its marks are
numbered in order; and it is decoded again, to the letter, from the words it is encoded as. -/
theorem encode_decode {words : List UInt32} {offset : Nat} (h : decode words offset = .ok lines) :
    ∃ stream rest cleared, words.drop offset = stream ++ rest ∧ Cleared stream cleared ∧
      cleared.length = stream.length ∧ offset + stream.length ≤ addressSpace ∧
      encode lines =
        (if stream.length = addressSpace then .error .tooLong else .ok cleared) ∧
      Line.Numbered lines ∧ decode cleared 0 = .ok lines := by
  obtain ⟨decoded, hdecode, hmark⟩ := bind_eq_ok_iff.1 h
  obtain ⟨stream, rest, cleared, hdrop, hcleared, hwritten⟩ := written_of_decodeFrom hdecode
  obtain ⟨hboundary, rfl⟩ := markTargets_eq_ok_iff.1 hmark
  have hlength := hwritten.length_le
  have hencode := hwritten.encode_eq hboundary
  rw [hcleared.length_eq] at hlength hencode
  exact ⟨stream, rest, cleared, hdrop, hcleared, hcleared.length_eq, hlength, hencode,
    numbered_numberedLines hwritten.nodup hboundary, hwritten.decode_eq hboundary⟩

/-- A jump to the exit behind another word, with bits set that neither instruction reads. -/
theorem encode_decode_jumpWords :
    decode [9, 0x00ff0003, 3, 0x00000107, 0x80000000] 1 =
        .ok [.op (.opaqueJump 0), .op .premultiply, .mark 0, .op .exit] ∧
      ∃ stream rest cleared,
        [9, 0x00ff0003, 3, 0x00000107, 0x80000000].drop 1 = stream ++ rest ∧
          Cleared stream cleared ∧ cleared.length = stream.length ∧
          1 + stream.length ≤ addressSpace ∧
          encode [.op (.opaqueJump 0), .op .premultiply, .mark 0, .op .exit] =
            (if stream.length = addressSpace then .error .tooLong else .ok cleared) ∧
          Line.Numbered [.op (.opaqueJump 0), .op .premultiply, .mark 0, .op .exit] ∧
          decode cleared 0 = .ok [.op (.opaqueJump 0), .op .premultiply, .mark 0, .op .exit] := by
  have hdecode : decode [9, 0x00ff0003, 3, 0x00000107, 0x80000000] 1 =
      .ok [.op (.opaqueJump 0), .op .premultiply, .mark 0, .op .exit] := by
    have hexit : decodeFrom 4 [0x80000000] = .ok [(4, .exit)] := by
      rw [decodeFrom]
      rfl
    have hplain : decodeFrom 3 [0x00000107, 0x80000000] = .ok [(3, .premultiply), (4, .exit)] := by
      rw [decodeFrom]
      show (decodeFrom 4 [0x80000000] >>= fun later ↦ _) = _
      rw [hexit]
      rfl
    have hjump : decodeFrom 1 [0x00ff0003, 3, 0x00000107, 0x80000000] =
        .ok [(1, .opaqueJump 4), (3, .premultiply), (4, .exit)] := by
      rw [decodeFrom]
      show (decodeFrom 3 [0x00000107, 0x80000000] >>= fun later ↦ _) = _
      rw [hplain]
      rfl
    show (decodeFrom 1 [0x00ff0003, 3, 0x00000107, 0x80000000] >>= markTargets) = _
    rw [hjump]
    rfl
  exact ⟨hdecode, encode_decode hdecode⟩

/-! ### A stream that takes up all addresses -/

/-- The words of many premultiplications and an exit. -/
def premultiplications (n : Nat) : List UInt32 :=
  List.replicate n (Instruction.header (ℓ := Nat) .premultiply) ++
    [Instruction.header (ℓ := Nat) .exit]

theorem length_premultiplications (n : Nat) : (premultiplications n).length = n + 1 := by
  rw [premultiplications, List.length_append, List.length_replicate, List.length_singleton]

/-- Instructions without operands stand one word apart. -/
theorem exists_written_premultiplications {n a : Nat} (h : a + n < addressSpace) :
    ∃ decoded, Written a decoded (premultiplications n) ∧ ∀ d ∈ decoded, d.2.targets = [] := by
  induction n generalizing a with
  | zero => exact ⟨_, .exit h, List.forall_mem_singleton.2 rfl⟩
  | succ n ih =>
    obtain ⟨decoded, hwritten, hplain⟩ := ih (show a + 1 + n < addressSpace by omega)
    have hstep : Written a ((a, .premultiply) :: decoded)
        (Instruction.header (ℓ := Nat) .premultiply :: [] ++ premultiplications n) :=
      .step nofun rfl nofun hwritten
    exact ⟨_, hstep, List.forall_mem_cons.2 ⟨rfl, hplain⟩⟩

/-- The stream is decoded, but not encoded again if its exit stands at the last address. -/
theorem encode_decode_premultiplications {n : Nat} (h : n < addressSpace) :
    ∃ lines, decode (premultiplications n) 0 = .ok lines ∧
      encode lines =
        if n + 1 = addressSpace then .error .tooLong else .ok (premultiplications n) := by
  obtain ⟨decoded, hwritten, hplain⟩ :=
    exists_written_premultiplications (a := 0) (by rwa [Nat.zero_add])
  have hboundary : ∀ d ∈ decoded, ∀ t ∈ d.2.targets, t ∈ decoded.map (·.1) := by
    intro d hd t ht
    rw [hplain d hd] at ht
    cases ht
  have hencode := hwritten.encode_eq hboundary
  rw [length_premultiplications] at hencode
  exact ⟨_, hwritten.decode_eq hboundary, hencode⟩

/-- There is a stream of as many words as there are addresses, and it is decoded to a list that is
too long to be encoded. -/
theorem encode_decode_tooLong :
    (premultiplications (addressSpace - 1)).length = addressSpace ∧
      ∃ lines, decode (premultiplications (addressSpace - 1)) 0 = .ok lines ∧
        encode lines = .error .tooLong := by
  have hlast : addressSpace - 1 + 1 = addressSpace :=
    Nat.sub_add_cancel (show 1 ≤ addressSpace by decide)
  obtain ⟨lines, hdecode, hencode⟩ :=
    encode_decode_premultiplications (Nat.lt_of_succ_le (Nat.le_of_eq hlast))
  rw [if_pos hlast] at hencode
  exact ⟨(length_premultiplications _).trans hlast, lines, hdecode, hencode⟩

end Shading
