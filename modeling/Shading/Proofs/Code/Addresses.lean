import Shading.Proofs.Code.RoundTrip

/-!
# Addresses of lines

In a list, a location has a position, counted in instructions, and an address, counted in words.
`Located` says that a table holds the addresses, as `Placed` does for positions, and `idxOf_entries`
that an address behind some lines is found again by its position among the addresses of the
instructions.

The words of a list may stand anywhere in a buffer, with other words before and behind them.
Decoded from there, they are the instructions of the list at the addresses they were copied to, with
jumps to the addresses of their locations (`decodeFrom_encodeFrom`).
-/

namespace Shading

variable {table : AddressTable} {address offset : Nat} {lines : List Line} {words : List UInt32}

/-! ### Addresses of lines -/

namespace Line

/-- The number of words of some lines. -/
def extent (lines : List Line) : Nat := (lines.map length).sum

@[simp]
theorem extent_nil : extent [] = 0 :=
  rfl

@[simp]
theorem extent_mark (l : Nat) (lines : List Line) : extent (.mark l :: lines) = extent lines :=
  Nat.zero_add _

@[simp]
theorem extent_op (i : Instruction Nat) (lines : List Line) :
    extent (.op i :: lines) = i.length + extent lines :=
  rfl

@[simp]
theorem extent_append (xs ys : List Line) : extent (xs ++ ys) = extent xs + extent ys := by
  rw [extent, List.map_append, List.sum_append]
  rfl

/-- The instructions of some lines with their addresses, their references passed through a
function. -/
def entries (place : Nat → Nat) (address : Nat) : List Line → List (Nat × Instruction Nat)
  | [] => []
  | .mark _ :: rest => entries place address rest
  | .op i :: rest => (address, i.map place) :: entries place (address + i.length) rest

variable {place : Nat → Nat}

/-- The entries of the second of two lists come behind the words of the first. -/
theorem entries_append (xs ys : List Line) :
    entries place address (xs ++ ys) =
      entries place address xs ++ entries place (address + extent xs) ys := by
  induction xs generalizing address with
  | nil => rfl
  | cons x xs ih =>
    cases x with
    | mark l => rw [List.cons_append, entries, ih, entries, extent_mark]
    | op i => rw [List.cons_append, entries, ih, entries, extent_op, Nat.add_assoc]; rfl

theorem map_snd_entries : (entries place address lines).map (·.2) =
    (instructions lines).map (·.map place) := by
  induction lines generalizing address with
  | nil => rfl
  | cons x lines ih =>
    cases x with
    | mark l => exact ih
    | op i => rw [entries, List.map_cons, ih, instructions_op, List.map_cons]

theorem length_entries : (entries place address lines).length = count lines := by
  have h : ((entries place address lines).map (·.2)).length = _ :=
    congrArg List.length map_snd_entries
  rwa [List.length_map, List.length_map] at h

theorem entries_eq_nil (h : instructions lines = []) : entries place address lines = [] := by
  rw [← List.length_eq_zero_iff, length_entries, count, h, List.length_nil]

/-- Each instruction takes a word at least. -/
theorem count_le_extent (lines : List Line) : count lines ≤ extent lines := by
  induction lines with
  | nil => exact Nat.le_refl 0
  | cons x lines ih =>
    cases x with
    | mark l =>
      rw [extent_mark]
      exact ih
    | op i =>
      have hlength := i.length_pos
      rw [count_op, extent_op]
      omega

/-- Instructions start within their lines. -/
theorem mem_entries {d : Nat × Instruction Nat} (h : d ∈ entries place address lines) :
    address ≤ d.1 ∧ d.1 < address + extent lines := by
  induction lines generalizing address with
  | nil => cases h
  | cons x lines ih =>
    cases x with
    | mark l =>
      rw [extent_mark]
      exact ih h
    | op i =>
      have hlength := i.length_pos
      rw [extent_op]
      rcases List.mem_cons.1 h with rfl | h
      · show address ≤ address ∧ address < address + (i.length + extent lines)
        omega
      · have := ih h
        omega

/-- No two instructions stand at one address. -/
theorem nodup_entries : ((entries place address lines).map (·.1)).Nodup := by
  induction lines generalizing address with
  | nil => exact List.nodup_nil
  | cons x lines ih =>
    cases x with
    | mark l => exact ih
    | op i =>
      refine List.nodup_cons.2 ⟨fun hmem ↦ ?_, ih⟩
      obtain ⟨d, hd, hfst⟩ := List.mem_map.1 hmem
      have hle := (mem_entries hd).1
      have hlength := i.length_pos
      have haddress : d.1 = address := hfst
      omega

/-- The address behind some lines is where the next instruction starts, so its position among the
addresses is the number of instructions passed. -/
theorem idxOf_entries (place : Nat → Nat) (address : Nat) (xs : List Line) {ys : List Line}
    (h : 0 < count ys) :
    address + extent xs ∈ (entries place address (xs ++ ys)).map (·.1) ∧
      ((entries place address (xs ++ ys)).map (·.1)).idxOf (address + extent xs) = count xs := by
  have hhead : ∃ ds, (entries place (address + extent xs) ys).map (·.1) =
      (address + extent xs) :: ds := by
    induction ys with
    | nil => cases h
    | cons y ys ih =>
      cases y with
      | mark l => exact ih h
      | op i => exact ⟨_, rfl⟩
  obtain ⟨ds, hds⟩ := hhead
  have hnotMem : address + extent xs ∉ (entries place address xs).map (·.1) := by
    intro hmem
    obtain ⟨d, hd, hfst⟩ := List.mem_map.1 hmem
    have hlt := (mem_entries hd).2
    have haddress : d.1 = address + extent xs := hfst
    omega
  rw [entries_append, List.map_append, hds]
  refine ⟨List.mem_append_right _ List.mem_cons_self, ?_⟩
  rw [List.idxOf_append_of_notMem hnotMem, List.idxOf_cons_self, List.length_map, length_entries,
    Nat.add_zero]

end Line

/-- The table holds the addresses of the marks of some lines that start at an address. -/
def Located (table : AddressTable) (address : Nat) : List Line → Prop
  | [] => True
  | .mark l :: rest => table.lookup l = some address ∧ Located table address rest
  | .op i :: rest => Located table (address + i.length) rest

/-- Each location of a list is looked up in the part that marks it. -/
theorem located_append {xs ys : List Line} :
    Located table address (xs ++ ys) ↔
      Located table address xs ∧ Located table (address + Line.extent xs) ys := by
  induction xs generalizing address with
  | nil => simp [Located]
  | cons x xs ih =>
    cases x with
    | mark l => rw [List.cons_append, Located, Located, ih, Line.extent_mark, and_assoc]
    | op i => rw [List.cons_append, Located, Located, ih, Line.extent_op, Nat.add_assoc]

/-- Distinct marks are located in the table that starts out without them, and no other location
is entered. -/
theorem located_of_locate {before : AddressTable} (h : locate address before lines = .ok table) :
    Located table address lines ∧ (Line.marks lines).Nodup ∧
      (∀ l ∈ Line.marks lines, before.lookup l = none) ∧
      ∀ l ∉ Line.marks lines, table.lookup l = before.lookup l := by
  induction lines generalizing address before with
  | nil =>
    cases h
    exact ⟨trivial, List.nodup_nil, nofun, fun _ _ ↦ rfl⟩
  | cons x lines ih =>
    cases x with
    | mark k =>
      rw [locate] at h
      split at h
      · cases h
      · rename_i hk
        rw [Option.not_isSome_iff_eq_none] at hk
        obtain ⟨hlocated, hnodup, hfresh, hother⟩ := ih h
        -- The later marks are new to a table that has `k` already.
        have hne : ∀ l ∈ Line.marks lines, l ≠ k := by
          rintro l hl rfl
          have := hfresh l hl
          rw [List.lookup_cons_self] at this
          cases this
        have hcons : ∀ l, l ≠ k → ((k, address) :: before).lookup l = before.lookup l := by
          intro l hl
          rw [List.lookup_cons, beq_false_of_ne hl]
        have hmark : k ∉ Line.marks lines := fun hmem ↦ hne k hmem rfl
        refine ⟨⟨?_, hlocated⟩, List.nodup_cons.2 ⟨hmark, hnodup⟩, ?_, ?_⟩
        · rw [hother k hmark, List.lookup_cons_self]
        · intro l hl
          rcases List.mem_cons.1 hl with rfl | hl
          · exact hk
          · exact hcons l (hne l hl) ▸ hfresh l hl
        · intro l hl
          have hl := not_or.1 (mt List.mem_cons.2 hl)
          rw [hother l hl.2, hcons l hl.1]
    | op i =>
      rw [locate] at h
      split at h
      · cases h
      · exact ih h

/-- A location that is marked in front of some instruction. -/
theorem exists_mark {l : Nat} (h : l ∈ Line.marks lines) :
    ∃ xs ys, lines = xs ++ .mark l :: ys := by
  induction lines with
  | nil => cases h
  | cons x lines ih =>
    cases x with
    | mark k =>
      rcases List.mem_cons.1 h with rfl | h
      · exact ⟨[], lines, rfl⟩
      · obtain ⟨xs, ys, rfl⟩ := ih h
        exact ⟨.mark k :: xs, ys, rfl⟩
    | op i =>
      obtain ⟨xs, ys, rfl⟩ := ih h
      exact ⟨.op i :: xs, ys, rfl⟩

/-! ### Words read back -/

/-- An encoded instruction is a header and its operands, as long as its length says. -/
theorem encodeInstruction_eq_ok {ℓ : Type} {resolve : ℓ → Except EncodeError UInt32}
    {i : Instruction ℓ} (h : encodeInstruction resolve i = .ok words) :
    words.length = i.length ∧
      ∃ operands, words = i.header :: operands ∧ encodeOperands resolve i = .ok operands := by
  obtain ⟨operands, hoperands, h⟩ := bind_eq_ok_iff.1 h
  by_cases hlength : (i.header :: operands).length = i.length
  · obtain rfl := Except.ok.inj ((if_pos hlength).symm.trans h)
    exact ⟨hlength, operands, rfl, hoperands⟩
  · cases (if_neg hlength).symm.trans h

/-- A list is encoded in as many words as its instructions take. -/
theorem length_encodeFrom (h : encodeFrom table address lines = .ok words) :
    words.length = Line.extent lines := by
  induction lines generalizing address words with
  | nil =>
    cases h
    rfl
  | cons x lines ih =>
    cases x with
    | mark l => exact (ih h).trans (Line.extent_mark l lines).symm
    | op i =>
      obtain ⟨own, hown, h⟩ := bind_eq_ok_iff.1 h
      obtain ⟨others, hothers, h⟩ := bind_eq_ok_iff.1 h
      obtain rfl := Except.ok.inj h
      rw [List.length_append, (encodeInstruction_eq_ok hown).1, ih hothers, Line.extent_op]

/-- The first instruction of some words, and what is decoded behind it. -/
theorem decodeFrom_encodeInstruction {ℓ : Type} {resolve : ℓ → Except EncodeError UInt32}
    {place : ℓ → Nat} {i : Instruction ℓ} (h : encodeInstruction resolve i = .ok words)
    (reach : ∀ l ∈ i.targets, Reaches resolve place address l) (range : address < 4294967296)
    (rest : List UInt32) :
    decodeFrom address (words ++ rest) =
      if i.opcode = .exit then .ok [(address, i.map place)]
      else do return (address, i.map place) :: (← decodeFrom (address + i.length) rest) := by
  obtain ⟨hlength, operands, rfl, hoperands⟩ := encodeInstruction_eq_ok h
  have fits := headerFits_of_encodeOperands hoperands
  have hoperand := restores_operands hoperands reach []
  rw [List.append_nil] at hoperand
  have htake : ((i.header :: operands) ++ rest).take i.length = i.header :: operands := by
    rw [← hlength, List.take_left]
  have hdrop : (operands ++ rest).drop (i.length - 1) = rest := by
    rw [← hlength, List.length_cons, Nat.add_sub_cancel, List.drop_left]
  rw [List.cons_append] at htake ⊢
  rw [decodeFrom, Instruction.ofWord?_header fits]
  simp only [Instruction.length_header fits, htake, hdrop]
  rw [if_neg (by omega), decodeInstruction]
  show (WordReader.operands address i.header i.opcode operands >>= _) = _
  rw [hoperand]
  show (if 4294967296 ≤ address then _ else _) = _
  rw [if_neg (by omega)]
  rfl

/-- The address in a buffer of a location, for words that were copied to an offset. -/
def placeAt (table : AddressTable) (offset l : Nat) : Nat := offset + (table.lookup l).getD 0

/-- A distance leads to the address of its location, if the address is within reach. -/
theorem reaches_placeAt {l : Nat} (h : placeAt table offset l < 4294967296) :
    Reaches (distance table address) (placeAt table offset) (offset + address) l := by
  intro d hd
  rw [distance] at hd
  rcases hlook : table.lookup l with - | target
  · rw [hlook] at hd
    cases hd
  · rw [placeAt, hlook] at h ⊢
    rw [hlook] at hd
    by_cases hle : target ≤ address
    · cases (if_pos hle).symm.trans hd
    · obtain rfl := Except.ok.inj ((if_neg hle).symm.trans hd)
      -- The distance that was written fits a word, since the target itself does.
      have hrange : offset + target < 4294967296 := h
      have hdistance : (UInt32.ofNat (target - address)).toNat = target - address :=
        UInt32.toNat_ofNat_of_lt' (by show _ < 4294967296; omega)
      have hsum : offset + address + (UInt32.ofNat (target - address)).toNat = offset + target := by
        omega
      have hne : UInt32.ofNat (target - address) ≠ 0 := by
        intro hzero
        rw [hzero] at hdistance
        have : 0 = target - address := hdistance
        omega
      have hrestores := restores_target hne (hsum ▸ hrange)
      rwa [hsum] at hrestores

/-- The words of a list up to its exit, decoded from where they stand in a buffer. -/
theorem decodeFrom_encodeFrom {before after : List Line}
    (encodes : encodeFrom table address (before ++ .op .exit :: after) = .ok words)
    (exit : .exit ∉ Line.instructions before)
    (range : ∀ i ∈ Line.instructions before, ∀ l ∈ i.targets, placeAt table offset l < 4294967296)
    (fits : offset + address + words.length ≤ 4294967296) (rest : List UInt32) :
    decodeFrom (offset + address) (words ++ rest) =
      .ok (Line.entries (placeAt table offset) (offset + address) (before ++ [.op .exit])) := by
  induction before generalizing address words with
  | nil =>
    obtain ⟨own, hown, h⟩ := bind_eq_ok_iff.1 encodes
    obtain ⟨others, hothers, h⟩ := bind_eq_ok_iff.1 h
    obtain rfl := Except.ok.inj h
    have hlength := (encodeInstruction_eq_ok hown).1
    have hone : (Instruction.exit : Instruction Nat).length = 1 := rfl
    rw [List.length_append] at fits
    have hreach : ∀ l ∈ (Instruction.exit : Instruction Nat).targets,
        Reaches (distance table address) (placeAt table offset) (offset + address) l := nofun
    rw [List.append_assoc, decodeFrom_encodeInstruction hown hreach (by omega)]
    rfl
  | cons x before ih =>
    cases x with
    | mark l => exact ih encodes exit range fits
    | op i =>
      obtain ⟨own, hown, h⟩ := bind_eq_ok_iff.1 encodes
      obtain ⟨others, hothers, h⟩ := bind_eq_ok_iff.1 h
      obtain rfl := Except.ok.inj h
      have hlength := (encodeInstruction_eq_ok hown).1
      have hpos := i.length_pos
      rw [List.length_append] at fits
      rw [Line.instructions_op, List.forall_mem_cons] at range
      rw [Line.instructions_op, List.mem_cons, not_or] at exit
      have hexit : i.opcode ≠ .exit := fun h ↦ exit.1 (Instruction.eq_exit_of_opcode h).symm
      -- The instruction is not the exit, so decoding goes on behind it, where encoding did.
      have hrest := ih hothers exit.2 range.2 (by omega)
      rw [← Nat.add_assoc] at hrest
      rw [List.append_assoc, decodeFrom_encodeInstruction hown
        (fun l hl ↦ reaches_placeAt (range.1 l hl)) (by omega), if_neg hexit, hrest]
      rfl

end Shading
