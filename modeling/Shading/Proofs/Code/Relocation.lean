import Shading.Proofs.Code.Addresses
import Shading.Proofs.Code.Comparison

/-!
# Lists copied to a buffer

The marks that decoding puts in place of addresses do not depend on where the words stand
(`markTargets_moveEntry`), and they give every jump the instruction that it led to before the list
was encoded. So a list decoded from anywhere in a buffer has the same canonical form as the list
that was written there (`decode_encode`).
-/

namespace Shading

variable {table : AddressTable} {address offset : Nat} {lines : List Line} {words : List UInt32}

/-! ### Marks put back -/

/-- A map that keeps numbers apart keeps their places in a list. -/
theorem idxOf_map_of_injective {f : Nat → Nat} (hf : f.Injective) (x : Nat) (xs : List Nat) :
    (xs.map f).idxOf (f x) = xs.idxOf x := by
  induction xs with
  | nil => rfl
  | cons y xs ih =>
    rw [List.map_cons]
    by_cases h : y = x
    · rw [h, List.idxOf_cons_self, List.idxOf_cons_self]
    · rw [List.idxOf_cons_ne _ h, List.idxOf_cons_ne _ (mt (@hf y x) h), ih]

/-- An instruction with its address and its references, all passed through a function. -/
def moveEntry (f : Nat → Nat) (d : Nat × Instruction Nat) : Nat × Instruction Nat :=
  (f d.1, d.2.map f)

section

variable {f : Nat → Nat} {decoded : List (Nat × Instruction Nat)}

/-- Moving decoded instructions moves their addresses. -/
theorem map_fst_moveEntry : (decoded.map (moveEntry f)).map (·.1) = (decoded.map (·.1)).map f := by
  rw [List.map_map, List.map_map]
  rfl

/-- Lines are numbered alike, wherever they were decoded from. -/
theorem numberedLines_moveEntry (hf : f.Injective) (marked : List Nat) :
    numberedLines (marked.map f) (decoded.map (moveEntry f)) = numberedLines marked decoded := by
  induction decoded with
  | nil => rfl
  | cons d decoded ih =>
    have hnumber : (fun a ↦ (marked.map f).idxOf (f a)) = marked.idxOf :=
      funext fun a ↦ idxOf_map_of_injective hf a marked
    have hmarked : (marked.map f).contains (f d.1) = marked.contains d.1 := by
      rw [Bool.eq_iff_iff, List.contains_iff_mem, List.contains_iff_mem,
        List.mem_map_of_injective hf]
    rw [List.map_cons, numberedLines, ih, moveEntry, Instruction.map_map, hnumber, hmarked,
      idxOf_map_of_injective hf, numberedLines]

/-- Moving decoded instructions moves the addresses that are marked. -/
theorem markedAddresses_moveEntry (hf : f.Injective) :
    markedAddresses (decoded.map (moveEntry f)) = (markedAddresses decoded).map f := by
  have htargets : (decoded.map (moveEntry f)).flatMap (·.2.targets) =
      (decoded.flatMap (·.2.targets)).map f := by
    induction decoded with
    | nil => rfl
    | cons d decoded ih =>
      rw [List.map_cons, List.flatMap_cons, ih, List.flatMap_cons, List.map_append]
      exact congrArg (· ++ _) (Instruction.targets_map f d.2)
  rw [markedAddresses, map_fst_moveEntry, htargets, List.filter_map, markedAddresses]
  refine congrArg _ (List.filter_congr fun a _ ↦ ?_)
  show List.contains (List.map f _) (f a) = List.contains _ a
  rw [Bool.eq_iff_iff, List.contains_iff_mem, List.contains_iff_mem, List.mem_map_of_injective hf]

/-- The marks do not depend on where the instructions stand. -/
theorem markTargets_moveEntry (hf : f.Injective) (h : markTargets decoded = .ok lines) :
    markTargets (decoded.map (moveEntry f)) = .ok lines := by
  obtain ⟨hboundary, rfl⟩ := markTargets_eq_ok_iff.1 h
  refine markTargets_eq_ok_iff.2 ⟨fun d hd t ht ↦ ?_, ?_⟩
  · obtain ⟨e, he, rfl⟩ := List.mem_map.1 hd
    rw [moveEntry, Instruction.targets_map] at ht
    obtain ⟨u, hu, rfl⟩ := List.mem_map.1 ht
    rw [map_fst_moveEntry]
    exact List.mem_map_of_mem (hboundary e he u hu)
  · rw [markedAddresses_moveEntry hf, numberedLines_moveEntry hf]

/-- Marks that are put on moved instructions are put on them where they were before. -/
theorem markTargets_of_moveEntry (hf : f.Injective)
    (h : markTargets (decoded.map (moveEntry f)) = .ok lines) :
    markTargets decoded = .ok lines := by
  obtain ⟨hboundary, rfl⟩ := markTargets_eq_ok_iff.1 h
  refine markTargets_eq_ok_iff.2 ⟨fun d hd t ht ↦ ?_, ?_⟩
  · have hmem : f t ∈ (moveEntry f d).2.targets := by
      rw [moveEntry, Instruction.targets_map]
      exact List.mem_map_of_mem ht
    have hmoved := hboundary _ (List.mem_map_of_mem hd) (f t) hmem
    rwa [map_fst_moveEntry, List.mem_map_of_injective hf] at hmoved
  · rw [markedAddresses_moveEntry hf, numberedLines_moveEntry hf]

/-- In canonical form, a jump of marked instructions refers to the position of its address. -/
theorem canonical_of_markTargets (nodup : (decoded.map (·.1)).Nodup)
    (h : markTargets decoded = .ok lines) :
    canonical lines =
      decoded.map fun d ↦ d.2.map fun t ↦ some ((decoded.map (·.1)).idxOf t) := by
  obtain ⟨hboundary, rfl⟩ := markTargets_eq_ok_iff.1 h
  rw [canonical, instructions_numberedLines, List.map_map]
  refine List.map_congr_left fun d hd ↦ ?_
  show (d.2.map _).map _ = _
  rw [Instruction.map_map]
  refine Instruction.map_congr fun t ht ↦ ?_
  have hmem := hboundary d hd t ht
  have hmarked : t ∈ markedAddresses decoded :=
    List.mem_filter.2 ⟨hmem, List.contains_iff_mem.2 (List.mem_flatMap.2 ⟨d, hd, ht⟩)⟩
  rw [positionOf_numberedLines nodup hmarked hmem, Nat.zero_add]

end

/-- The entries of a list behind an offset are its entries, moved by the offset. -/
theorem entries_moveEntry :
    Line.entries (placeAt table offset) (offset + address) lines =
      (Line.entries (placeAt table 0) address lines).map (moveEntry (offset + ·)) := by
  have hplace : (fun l ↦ offset + placeAt table 0 l) = placeAt table offset :=
    funext fun l ↦ by rw [placeAt, placeAt, Nat.zero_add]
  induction lines generalizing address with
  | nil => rfl
  | cons x lines ih =>
    cases x with
    | mark l => exact ih
    | op i =>
      rw [Line.entries, Nat.add_assoc, ih, Line.entries, List.map_cons, moveEntry,
        Instruction.map_map, hplace]

/-! ### Round trip -/

/-- The only exit of the list is its last instruction, and every jump refers to a location that is
marked before the exit. -/
def Line.Complete (lines : List Line) : Prop :=
  ∃ before after, lines = before ++ .op .exit :: after ∧ .exit ∉ instructions before ∧
    instructions after = [] ∧ ∀ i ∈ instructions before, ∀ l ∈ i.targets, l ∈ marks before

/-- A mark that an instruction follows: where it stands, by address and by position. -/
theorem placeAt_mark {l : Nat} {xs ys : List Line} (hlines : lines = xs ++ .mark l :: ys)
    (nodup : (Line.marks lines).Nodup) (located : Located table 0 lines)
    (follows : 0 < Line.count ys) :
    placeAt table 0 l < Line.extent lines ∧
      placeAt table 0 l ∈ (Line.entries (placeAt table 0) 0 lines).map (·.1) ∧
      positionOf l 0 lines =
        some (((Line.entries (placeAt table 0) 0 lines).map (·.1)).idxOf (placeAt table 0 l)) := by
  rw [hlines] at nodup located ⊢
  have hlook : table.lookup l = some (0 + Line.extent xs) := (located_append.1 located).2.1
  have hplace : placeAt table 0 l = 0 + Line.extent xs := by
    rw [placeAt, hlook, Nat.zero_add]
    rfl
  have hcount := Line.count_le_extent ys
  have hfollows : 0 < Line.count (.mark l :: ys) := follows
  obtain ⟨hmem, hidx⟩ := Line.idxOf_entries (placeAt table 0) 0 xs hfollows
  rw [Line.marks_append, Line.marks] at nodup
  have hnone : positionOf l (0 + Line.count xs) ys = none :=
    positionOf_eq_none_iff.2 (List.nodup_cons.1 (List.nodup_append.1 nodup).2.1).1
  rw [Line.extent_append, Line.extent_mark, hplace, hidx, positionOf_append, positionOf, hnone]
  refine ⟨by omega, hmem, ?_⟩
  simp

section Complete

variable (complete : Line.Complete lines) (nodup : (Line.marks lines).Nodup)
  (located : Located table 0 lines)

include complete nodup located

/-- Every jump of a complete list refers to a mark that an instruction follows. -/
theorem placeAt_target {i : Instruction Nat} (hi : i ∈ Line.instructions lines) {l : Nat}
    (hl : l ∈ i.targets) :
    placeAt table 0 l < Line.extent lines ∧
      placeAt table 0 l ∈ (Line.entries (placeAt table 0) 0 lines).map (·.1) ∧
      positionOf l 0 lines =
        some (((Line.entries (placeAt table 0) 0 lines).map (·.1)).idxOf (placeAt table 0 l)) := by
  obtain ⟨front, back, hlines, -, hback, htargets⟩ := complete
  rw [hlines, Line.instructions_append, Line.instructions_op, hback] at hi
  rcases List.mem_append.1 hi with hi | hi
  · obtain ⟨xs, ys, hfront⟩ := exists_mark (htargets i hi l hl)
    have hsplit : lines = xs ++ .mark l :: (ys ++ .op .exit :: back) := by
      rw [hlines, hfront, List.append_assoc]
      rfl
    have hcount : 0 < Line.count (ys ++ .op .exit :: back) := by
      rw [Line.count_append, Line.count_op]
      omega
    exact placeAt_mark hsplit nodup located hcount
  · rw [List.mem_singleton.1 hi] at hl
    cases hl

/-- The jumps of a complete list lead to its instructions. -/
theorem target_mem_entries : ∀ d ∈ Line.entries (placeAt table 0) 0 lines, ∀ t ∈ d.2.targets,
    t ∈ (Line.entries (placeAt table 0) 0 lines).map (·.1) := by
  intro d hd t ht
  have hmem : d.2 ∈ (Line.instructions lines).map (·.map (placeAt table 0)) :=
    Line.map_snd_entries ▸ List.mem_map_of_mem hd
  obtain ⟨i, hi, hmap⟩ := List.mem_map.1 hmem
  rw [← hmap, Instruction.targets_map] at ht
  obtain ⟨l, hl, rfl⟩ := List.mem_map.1 ht
  exact (placeAt_target complete nodup located hi hl).2.1

/-- The marks of the instructions of a complete list are put back as they were. -/
theorem exists_markTargets_entries :
    ∃ decoded, markTargets (Line.entries (placeAt table 0) 0 lines) = .ok decoded ∧
      canonical decoded = canonical lines := by
  have hmarks := markTargets_eq_ok_iff.2 ⟨target_mem_entries complete nodup located, rfl⟩
  refine ⟨_, hmarks, ?_⟩
  -- The entries have the instructions of the list, in order.
  have hsnd (f : Instruction Nat → Instruction (Option Nat)) :
      (Line.entries (placeAt table 0) 0 lines).map (fun d ↦ f d.2) =
        (Line.instructions lines).map fun i ↦ f (i.map (placeAt table 0)) := by
    have h := congrArg (List.map f)
      (Line.map_snd_entries : (Line.entries (placeAt table 0) 0 lines).map _ = _)
    rw [List.map_map, List.map_map] at h
    exact h
  rw [canonical_of_markTargets Line.nodup_entries hmarks, canonical, hsnd]
  refine List.map_congr_left fun i hi ↦ ?_
  rw [Instruction.map_map]
  exact Instruction.map_congr fun l hl ↦ (placeAt_target complete nodup located hi hl).2.2.symm

/-- The words of a complete list are read as its instructions, moved to where they stand. -/
theorem decodeFrom_encoded (encodes : encodeFrom table 0 lines = .ok words)
    (fits : offset + words.length ≤ 4294967296) (after : List UInt32) :
    decodeFrom offset (words ++ after) =
      .ok ((Line.entries (placeAt table 0) 0 lines).map (moveEntry (offset + ·))) := by
  have hlength := length_encodeFrom encodes
  have hrange : ∀ i ∈ Line.instructions lines, ∀ l ∈ i.targets,
      placeAt table offset l < 4294967296 := by
    intro i hi l hl
    have hlt := (placeAt_target complete nodup located hi hl).1
    rw [placeAt] at hlt ⊢
    omega
  obtain ⟨front, back, rfl, hexit, hback, -⟩ := complete
  have hentries : Line.entries (placeAt table 0) 0 (front ++ .op .exit :: back) =
      Line.entries (placeAt table 0) 0 (front ++ [.op .exit]) := by
    rw [List.append_cons, Line.entries_append, Line.entries_eq_nil hback, List.append_nil]
  rw [hentries, ← entries_moveEntry]
  exact decodeFrom_encodeFrom encodes hexit (fun i hi ↦ hrange i (by simp [hi])) (by omega) after

/-- The words of a complete list are decoded to its instructions, moved to where they stand. -/
theorem decode_append (encodes : encodeFrom table 0 lines = .ok words) {before : List UInt32}
    (fits : before.length + words.length ≤ 4294967296) (after : List UInt32) :
    decode (before ++ words ++ after) before.length =
      markTargets ((Line.entries (placeAt table 0) 0 lines).map
        (moveEntry (before.length + ·))) := by
  rw [decode, List.append_assoc, List.drop_left,
    decodeFrom_encoded complete nodup located encodes fits]
  rfl

end Complete

/-- What encoding a list has found out when it succeeds. -/
theorem encode_eq_ok (h : encode lines = .ok words) :
    .exit ∈ Line.instructions lines ∧ ∃ table, locate 0 [] lines = .ok table ∧
      encodeFrom table 0 lines = .ok words := by
  have hwords : (if (Line.instructions lines).getLast? = some .exit then
      locate 0 [] lines >>= fun table ↦ encodeFrom table 0 lines else _) = .ok words := h
  split at hwords
  case isFalse => cases hwords
  next hlast => exact ⟨List.mem_of_getLast? hlast, bind_eq_ok_iff.1 hwords⟩

/-- Decoding undoes encoding, wherever in a buffer the words stand: one list is decoded from all
places, and it has the canonical form of the list that was encoded. -/
theorem decode_encode (complete : Line.Complete lines) (encodes : encode lines = .ok words) :
    ∃ decoded, (∀ before after : List UInt32, before.length + words.length ≤ 4294967296 →
        decode (before ++ words ++ after) before.length = .ok decoded) ∧
      canonical decoded = canonical lines ∧
      ((∀ i ∈ Line.instructions lines, AllNumbers i.singles) →
        sameInstructions decoded lines = true) := by
  obtain ⟨-, table, htable, hwords⟩ := encode_eq_ok encodes
  obtain ⟨located, nodup, -, -⟩ := located_of_locate htable
  obtain ⟨decoded, hmarks, hcanonical⟩ := exists_markTargets_entries complete nodup located
  refine ⟨decoded, fun before after fits ↦ ?_, hcanonical,
    sameInstructions_of_canonical_eq hcanonical⟩
  rw [decode_append complete nodup located hwords fits]
  exact markTargets_moveEntry (fun _ _ h ↦ Nat.add_left_cancel h) hmarks

/-- A jump over one instruction to the exit, read back from anywhere. -/
theorem decode_jumpWords :
    ∃ decoded, (∀ before after : List UInt32, before.length + 4 ≤ 4294967296 →
        decode (before ++ [3, 3, 7, 0] ++ after) before.length = .ok decoded) ∧
      canonical decoded = [.opaqueJump (some 2), .premultiply, .exit] := by
  have complete : Line.Complete [.op (.opaqueJump 5), .op .premultiply, .mark 5, .op .exit] :=
    ⟨[.op (.opaqueJump 5), .op .premultiply, .mark 5], [], rfl, by decide, rfl, by decide⟩
  have encodes : encode [.op (.opaqueJump 5), .op .premultiply, .mark 5, .op .exit] =
      .ok [3, 3, 7, 0] := by rfl
  obtain ⟨decoded, hdecode, hcanonical, -⟩ := decode_encode complete encodes
  exact ⟨decoded, hdecode, hcanonical⟩

end Shading
