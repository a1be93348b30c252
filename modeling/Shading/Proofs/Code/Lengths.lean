import Shading.Proofs.Code.Written

/-!
# Lengths of instructions

The length of an instruction is told four times: by the instruction, by the header alone, by the
words that are written for it, and by the words that a reader takes. They agree
(`lengths_agree`), so one who only knows headers finds the start of every instruction of a stream,
and its end (`walkHeaders_encodeFrom`).

Two checks can therefore never fail. What is written has the length that it is compared with
(`LengthSafe`), and a reader that is given the words that a header announces has enough of them: it
takes a number of words that is known in advance, whatever they are (`Consumes`). Other errors of a
reader may well stop it before that.
-/

namespace Shading

variable {α β ℓ : Type}

/-! ### Words written -/

/-- The number of words written is not what fails. -/
def LengthSafe (x : Except EncodeError α) : Prop :=
  ∀ written expected, x ≠ .error (.wrongLength written expected)

namespace LengthSafe

theorem ok (x : α) : LengthSafe (.ok x) :=
  nofun

theorem error {cause : EncodeError}
    (h : ∀ written expected, cause ≠ .wrongLength written expected) :
    LengthSafe (.error cause : Except EncodeError α) :=
  fun written expected heq ↦ h written expected (Except.error.inj heq)

theorem bind {x : Except EncodeError α} {f : α → Except EncodeError β} (hx : LengthSafe x)
    (hf : ∀ a, x = .ok a → LengthSafe (f a)) : LengthSafe (x >>= f) := by
  cases x with
  | error cause =>
    exact fun written expected h ↦ hx written expected (congrArg _ (Except.error.inj h))
  | ok a => exact hf a rfl

variable {resolve : ℓ → Except EncodeError UInt32}

/-- Resolving locations writes one word each, or fails for another reason. -/
theorem resolveAll (h : ∀ l, LengthSafe (resolve l)) (ls : List ℓ) :
    LengthSafe (resolveAll resolve ls) := by
  induction ls with
  | nil => exact .ok []
  | cons l ls ih => exact (h l).bind fun _ _ ↦ ih.bind fun _ _ ↦ .ok _

theorem checkTable (table : StopTable ℓ) : LengthSafe (checkTable table) := by
  rcases checkTable_cases table with ⟨-, h⟩ | ⟨-, h⟩
  · exact h ▸ .ok ()
  · exact h ▸ .error (by simp)

theorem encodeStops (h : ∀ l, LengthSafe (resolve l)) (table : StopTable ℓ) :
    LengthSafe (encodeStops resolve table) :=
  (resolveAll h _).bind fun _ _ ↦ (resolveAll h _).bind fun _ _ ↦ .ok _

/-- Encoding operands never compares lengths. -/
theorem encodeOperands (h : ∀ l, LengthSafe (resolve l)) (i : Instruction ℓ) :
    LengthSafe (encodeOperands resolve i) := by
  cases i with
  | opaqueJump target => exact resolveAll h [target]
  | phong shininess lights =>
    rw [Shading.encodeOperands]
    split
    · exact .error (by simp)
    · exact .ok _
  | linearBlendRatio ramp accuracy branches | radialBlendRatio ramp accuracy branches =>
    exact (resolveAll h _).bind fun _ _ ↦ .ok _
  | linearGradientRatio axis accuracy extend table
  | radialGradientRatio circles accuracy extend table =>
    exact (checkTable table).bind fun _ _ ↦ (encodeStops h table).bind fun _ _ ↦ .ok _
  | _ => exact .ok _

/-- Whatever operands are written have the length that they are checked for. -/
theorem encodeInstruction (h : ∀ l, LengthSafe (resolve l)) (i : Instruction ℓ) :
    LengthSafe (encodeInstruction resolve i) := by
  cases hoperands : Shading.encodeOperands resolve i with
  | ok ws =>
    rw [encodeInstruction_of_operands hoperands]
    exact .ok _
  | error cause =>
    have hsafe := encodeOperands h i
    rw [hoperands] at hsafe
    rw [Shading.encodeInstruction, hoperands]
    exact hsafe

theorem distance (table : AddressTable) (address location : Nat) :
    LengthSafe (distance table address location) := by
  rw [Shading.distance]
  split
  · exact .error (by simp)
  · split
    · exact .error (by simp)
    · exact .ok _

/-- The words of an instruction have the length that they are compared with. -/
theorem encodeFrom (table : AddressTable) (address : Nat) (lines : List Line) :
    LengthSafe (encodeFrom table address lines) := by
  induction lines generalizing address with
  | nil => exact .ok []
  | cons x lines ih =>
    cases x with
    | mark l => exact ih address
    | op i =>
      exact (encodeInstruction (distance table address) i).bind fun _ _ ↦
        (ih (address + i.length)).bind fun _ _ ↦ .ok _

/-- Looking for locations never compares lengths. -/
theorem locate (next : Nat) (table : AddressTable) (lines : List Line) :
    LengthSafe (locate next table lines) := by
  induction lines generalizing next table with
  | nil => exact .ok table
  | cons x lines ih =>
    cases x with
    | mark l =>
      rw [Shading.locate]
      split
      · exact .error (by simp)
      · exact ih next _
    | op i =>
      rw [Shading.locate]
      split
      · exact .error (by simp)
      · exact ih _ table

/-- No list fails to be encoded because the words written for an instruction have a wrong length. -/
theorem encode (lines : List Line) : LengthSafe (encode lines) := by
  rw [Shading.encode]
  split
  · exact (locate 0 [] lines).bind fun table _ ↦ encodeFrom table 0 lines
  · exact .error (by simp)

end LengthSafe

/-! ### Words read -/

/-- Given at least so many words, the reader does not miss one, and takes exactly as many if it
succeeds. -/
def Consumes (n : Nat) (r : WordReader α) : Prop :=
  ∀ words : List UInt32, n ≤ words.length →
    r words ≠ .error .noOperand ∧ ∀ x rest, r words = .ok (x, rest) → rest = words.drop n

namespace Consumes

variable {r : WordReader α} {f : α → WordReader β} {n m : Nat}

theorem pure (x : α) : Consumes 0 (pure x) :=
  fun _ _ ↦ ⟨nofun, fun _ _ h ↦ (Prod.mk.inj (Except.ok.inj h)).2.symm⟩

/-- A reader that fails takes any number of words, as long as it does not miss one. -/
theorem fail {cause : DecodeError} (n : Nat) (h : cause ≠ .noOperand := by simp) :
    Consumes n (.fail cause : WordReader α) :=
  fun _ _ ↦ ⟨fun heq ↦ h (Except.error.inj heq), nofun⟩

theorem bind (h : Consumes n r) (h' : ∀ x, Consumes m (f x)) : Consumes (n + m) (r >>= f) := by
  intro words hle
  obtain ⟨hmiss, htake⟩ := h words (Nat.le_of_add_right_le hle)
  cases hr : r words with
  | error cause =>
    have hbind : (r >>= f) words = .error cause := by
      show r words >>= _ = _
      rw [hr]
      rfl
    rw [hbind]
    exact ⟨fun heq ↦ hmiss (hr.trans (congrArg _ (Except.error.inj heq))), nofun⟩
  | ok found =>
    obtain ⟨x, mid⟩ := found
    have hbind : (r >>= f) words = f x mid := by
      show r words >>= _ = _
      rw [hr]
      rfl
    obtain rfl := htake x mid hr
    have hrest := h' x (words.drop n) (by rw [List.length_drop]; omega)
    rwa [hbind, ← List.drop_drop]

/-- A reader of no words in front of another one. -/
theorem after (h : Consumes 0 r) (h' : ∀ x, Consumes m (f x)) : Consumes m (r >>= f) := by
  have hboth := h.bind h'
  rwa [Nat.zero_add] at hboth

end Consumes

theorem consumes_word : Consumes 1 .word := by
  intro words hle
  cases words with
  | nil => cases hle
  | cons w words =>
    exact ⟨nofun, fun _ _ h ↦ (Prod.mk.inj (Except.ok.inj h)).2.symm⟩

theorem consumes_single : Consumes 1 .single :=
  consumes_word.bind fun _ ↦ .pure _

theorem consumes_get {cause : DecodeError} (a : Option α) (h : cause ≠ .noOperand := by simp) :
    Consumes 0 (.get cause a) := by
  cases a with
  | none => exact .fail 0 h
  | some a => exact .pure a

theorem consumes_items {item : WordReader α} (h : Consumes 1 item) (n : Nat) :
    Consumes n (.items item n) := by
  induction n with
  | zero => exact .pure []
  | succ n ih =>
    have hboth : Consumes (1 + (n + 0)) (.items item (n + 1)) :=
      h.bind fun _ ↦ ih.bind fun _ ↦ .pure _
    rwa [Nat.add_zero, Nat.add_comm 1 n] at hboth

theorem consumes_point : Consumes 2 .point :=
  consumes_single.bind fun _ ↦ consumes_single.bind fun _ ↦ .pure _

theorem consumes_vec4 : Consumes 4 .vec4 :=
  consumes_single.bind fun _ ↦ consumes_single.bind fun _ ↦ consumes_single.bind fun _ ↦
    consumes_single.bind fun _ ↦ .pure _

theorem consumes_affine : Consumes 6 .affine :=
  consumes_single.bind fun _ ↦ consumes_single.bind fun _ ↦ consumes_single.bind fun _ ↦
    consumes_single.bind fun _ ↦ consumes_single.bind fun _ ↦ consumes_single.bind fun _ ↦ .pure _

theorem consumes_linearRamp : Consumes 3 .linearRamp :=
  consumes_point.bind fun _ ↦ consumes_single.bind fun _ ↦ .pure _

theorem consumes_radialRamp : Consumes 8 .radialRamp :=
  consumes_affine.bind fun _ ↦ consumes_single.bind fun _ ↦ consumes_single.bind fun _ ↦ .pure _

theorem consumes_linearAxis : Consumes 10 .linearAxis :=
  consumes_affine.bind fun _ ↦ consumes_point.bind fun _ ↦ consumes_point.bind fun _ ↦ .pure _

theorem consumes_circlePair : Consumes 12 .circlePair :=
  consumes_affine.bind fun _ ↦ consumes_point.bind fun _ ↦ consumes_single.bind fun _ ↦
    consumes_point.bind fun _ ↦ consumes_single.bind fun _ ↦ .pure _

theorem consumes_target (address : Nat) : Consumes 1 (.target address) := by
  refine consumes_word.bind (m := 0) fun d ↦ ?_
  split
  · exact .fail 0
  · split
    · exact .pure _
    · exact .fail 0

theorem consumes_accuracy (code : UInt32) : Consumes 0 (.accuracy code) :=
  consumes_get _

theorem consumes_branches (address : Nat) : Consumes 4 (.branches address) :=
  (consumes_target address).bind fun _ ↦ (consumes_target address).bind fun _ ↦
    (consumes_target address).bind fun _ ↦ (consumes_target address).bind fun _ ↦ .pure _

/-- A table without stops is refused before a word of it is read. -/
theorem consumes_stopTable (address : Nat) (header : UInt32) :
    Consumes (2 + 2 * headerStops header) (.stopTable address header) := by
  rw [WordReader.stopTable]
  split
  · exact .fail _
  · rw [show 2 + 2 * headerStops header = 1 + (1 + (headerStops header + headerStops header)) by
      omega]
    exact (consumes_get _).after fun _ ↦ (consumes_target address).bind fun _ ↦
      (consumes_target address).bind fun _ ↦ (consumes_items consumes_single _).bind fun _ ↦
        (consumes_items (consumes_target address) _).bind fun _ ↦ .pure _

/-- A triangle has three more words if its header announces depths. -/
theorem consumes_triangle (header : UInt32) :
    Consumes (if header &&& perspectiveFlag != 0 then 10 else 7) (.triangle header) := by
  have hcorners : Consumes 6 (.triple .point) :=
    consumes_point.bind fun _ ↦ consumes_point.bind fun _ ↦ consumes_point.bind fun _ ↦ .pure _
  have hdepths : Consumes 3 (.triple .single) :=
    consumes_single.bind fun _ ↦ consumes_single.bind fun _ ↦ consumes_single.bind fun _ ↦ .pure _
  by_cases h : (header &&& perspectiveFlag != 0) = true
  · rw [WordReader.triangle, if_pos h]
    refine consumes_single.bind fun _ ↦ hcorners.bind (m := 3) fun _ ↦ ?_
    rw [if_pos h]
    exact hdepths.bind fun _ ↦ .pure _
  · rw [WordReader.triangle, if_neg h]
    refine consumes_single.bind fun _ ↦ hcorners.bind (m := 0) fun _ ↦ ?_
    rw [if_neg h]
    exact .pure _

/-- The operands of an opcode take the words that its header announces, the header apart. -/
theorem consumes_operands (address : Nat) (header : UInt32) (opcode : Opcode) :
    Consumes (opcode.length header - 1) (.operands address header opcode) := by
  cases opcode with
  | pushColor => exact consumes_vec4.bind fun _ ↦ .pure _
  | opaqueJump => exact (consumes_target address).bind fun _ ↦ .pure _
  | multiplyScalar | phong => exact consumes_single.bind fun _ ↦ .pure _
  | blendCompose =>
    exact (consumes_get _).bind fun _ ↦ (consumes_get _).bind fun _ ↦ .pure _
  | filter =>
    exact consumes_vec4.bind fun _ ↦ consumes_vec4.bind fun _ ↦ consumes_vec4.bind fun _ ↦
      consumes_vec4.bind fun _ ↦ consumes_vec4.bind fun _ ↦ .pure _
  | linearBlendRatio =>
    exact consumes_linearRamp.bind fun _ ↦ (consumes_accuracy _).bind fun _ ↦
      (consumes_branches address).bind fun _ ↦ .pure _
  | radialBlendRatio =>
    exact consumes_radialRamp.bind fun _ ↦ (consumes_accuracy _).bind fun _ ↦
      (consumes_branches address).bind fun _ ↦ .pure _
  | linearGradientRatio =>
    rw [Opcode.length, show 13 + 2 * headerStops header - 1 = 10 + (2 + 2 * headerStops header) by
      omega]
    exact consumes_linearAxis.bind fun _ ↦ (consumes_stopTable address header).bind fun _ ↦
      (consumes_accuracy _).bind fun _ ↦ .pure _
  | radialGradientRatio =>
    rw [Opcode.length, show 15 + 2 * headerStops header - 1 = 12 + (2 + 2 * headerStops header) by
      omega]
    exact consumes_circlePair.bind fun _ ↦ (consumes_stopTable address header).bind fun _ ↦
      (consumes_accuracy _).bind fun _ ↦ .pure _
  | barycentricBlend =>
    rw [Opcode.length, show (if header &&& perspectiveFlag != 0 then 11 else 8) - 1 =
      if header &&& perspectiveFlag != 0 then 10 else 7 by split <;> rfl]
    exact (consumes_triangle header).bind fun _ ↦ (consumes_accuracy _).bind fun _ ↦ .pure _
  | _ => exact .pure _

/-! ### Headers alone -/

/-- A header with a known opcode tells the length. -/
theorem headerLength_of_ofWord? {header : UInt32} {opcode : Opcode}
    (h : Opcode.ofWord? header = some opcode) :
    headerLength header = .ok (opcode.length header) := by
  rw [headerLength, h]

/-- The addresses at which instructions start if each one is as long as its header says, and the
address behind the last one. -/
def walkHeaders (address : Nat) (words : List UInt32) : Except DecodeError (List Nat × Nat) :=
  match words with
  | [] => .ok ([], address)
  | header :: tail =>
    match headerLength header with
    | .error cause => .error cause
    | .ok length => do
      let (later, behind) ← walkHeaders (address + length) (tail.drop (length - 1))
      return (address :: later, behind)
termination_by words.length
decreasing_by simp only [List.length_drop, List.length_cons]; omega

/-- The words of an instruction: as many as it has, and as its header says. -/
theorem headerLength_of_encodeInstruction {resolve : ℓ → Except EncodeError UInt32}
    {i : Instruction ℓ} {own : List UInt32} (h : encodeInstruction resolve i = .ok own) :
    ∃ header operands, own = header :: operands ∧ own.length = i.length ∧
      headerLength header = .ok i.length := by
  obtain ⟨hlength, operands, rfl, hoperands⟩ := encodeInstruction_eq_ok h
  have fits := headerFits_of_encodeOperands hoperands
  refine ⟨i.header, operands, rfl, hlength, ?_⟩
  rw [headerLength_of_ofWord? (Instruction.ofWord?_header fits), Instruction.length_header fits]

variable {lines : List Line} {words : List UInt32} {table : AddressTable} {address : Nat}

/-- The headers of encoded lines lead from each instruction to the next, and to the end. -/
theorem walkHeaders_encodeFrom (h : encodeFrom table address lines = .ok words) :
    walkHeaders address words =
      .ok ((Line.entries id address lines).map (·.1), address + words.length) := by
  induction lines generalizing address words with
  | nil =>
    cases h
    rw [walkHeaders]
    rfl
  | cons x lines ih =>
    cases x with
    | mark l => exact ih h
    | op i =>
      obtain ⟨own, hown, h⟩ := bind_eq_ok_iff.1 h
      obtain ⟨others, hothers, h⟩ := bind_eq_ok_iff.1 h
      obtain rfl := Except.ok.inj h
      obtain ⟨header, operands, rfl, hlength, hheader⟩ := headerLength_of_encodeInstruction hown
      have hdrop : (operands ++ others).drop (i.length - 1) = others := by
        rw [← hlength, List.length_cons, Nat.add_sub_cancel, List.drop_left]
      rw [List.cons_append, walkHeaders, hheader]
      simp only [hdrop, ih hothers]
      rw [← List.cons_append, List.length_append, hlength, ← Nat.add_assoc]
      rfl

/-- Within encoded lines, the words of an instruction stand where the lines before it end. -/
theorem exists_words_of_encodeFrom {before rest : List Line} {i : Instruction Nat}
    (h : encodeFrom table address (before ++ .op i :: rest) = .ok words) :
    ∃ own later, encodeInstruction (distance table (address + Line.extent before)) i = .ok own ∧
      words.drop (Line.extent before) = own ++ later := by
  induction before generalizing address words with
  | nil =>
    obtain ⟨own, hown, h⟩ := bind_eq_ok_iff.1 h
    obtain ⟨later, -, h⟩ := bind_eq_ok_iff.1 h
    obtain rfl := Except.ok.inj h
    exact ⟨own, later, hown, rfl⟩
  | cons x before ih =>
    cases x with
    | mark l =>
      rw [Line.extent_mark]
      exact ih h
    | op j =>
      obtain ⟨first, hfirst, h⟩ := bind_eq_ok_iff.1 h
      obtain ⟨others, hothers, h⟩ := bind_eq_ok_iff.1 h
      obtain rfl := Except.ok.inj h
      obtain ⟨own, later, hown, hdrop⟩ := ih hothers
      have hlength := (encodeInstruction_eq_ok hfirst).1
      rw [Line.extent_op, ← Nat.add_assoc]
      refine ⟨own, later, hown, ?_⟩
      rw [← hlength, ← List.drop_drop, List.drop_left, hdrop]

/-- All lengths agree. In a list that is encoded, each instruction is written in as many words as it
has by itself and by its header, so the headers of the stream lead through the addresses of the
instructions to its end; the length is never what encoding fails for; and a reader that is given
the words that a header announces misses none and leaves none. -/
theorem lengths_agree :
    (∀ lines words, encode lines = .ok words →
      (∃ table, locate 0 [] lines = .ok table ∧
        ∀ before i rest, lines = before ++ .op i :: rest →
          ∃ header operands later,
            encodeInstruction (distance table (Line.extent before)) i = .ok (header :: operands) ∧
            words.drop (Line.extent before) = header :: operands ++ later ∧
            (header :: operands).length = i.length ∧ headerLength header = .ok i.length) ∧
      walkHeaders 0 words = .ok ((Line.entries id 0 lines).map (·.1), words.length)) ∧
    (∀ lines written expected, encode lines ≠ .error (.wrongLength written expected)) ∧
    ∀ address header operands opcode, Opcode.ofWord? header = some opcode →
      headerLength header = .ok (header :: operands).length →
        decodeInstruction address opcode (header :: operands) ≠ .error .noOperand ∧
        ∀ i rest, decodeInstruction address opcode (header :: operands) = .ok (i, rest) →
          rest = [] := by
  refine ⟨fun lines words encodes ↦ ?_, fun lines ↦ LengthSafe.encode lines, ?_⟩
  · obtain ⟨-, table, hlocate, hencode⟩ := encode_eq_ok encodes
    have hwalk := walkHeaders_encodeFrom hencode
    rw [Nat.zero_add] at hwalk
    refine ⟨⟨table, hlocate, ?_⟩, hwalk⟩
    rintro before i rest rfl
    obtain ⟨own, later, hown, hdrop⟩ := exists_words_of_encodeFrom hencode
    rw [Nat.zero_add] at hown
    obtain ⟨header, operands, rfl, hlength, hheader⟩ := headerLength_of_encodeInstruction hown
    exact ⟨header, operands, later, hown, hdrop, hlength, hheader⟩
  · intro address header operands opcode hopcode hheader
    rw [headerLength_of_ofWord? hopcode, Except.ok.injEq, List.length_cons] at hheader
    have hconsumes := consumes_operands address header opcode
    rw [hheader, Nat.add_sub_cancel] at hconsumes
    obtain ⟨hmiss, htake⟩ := hconsumes operands (Nat.le_refl _)
    refine ⟨hmiss, fun i rest h ↦ ?_⟩
    rw [htake i rest h, List.drop_length]

/-- A gradient with two stops, both of which return at once. -/
def twoStopLines : List Line :=
  [.op (.linearGradientRatio ⟨⟨⟨0⟩, ⟨0⟩, ⟨0⟩, ⟨0⟩, ⟨0⟩, ⟨0⟩⟩, ⟨⟨0⟩, ⟨0⟩⟩, ⟨⟨0⟩, ⟨0⟩⟩⟩
      .splitCentroid .pad ⟨[⟨0⟩, ⟨0x3f800000⟩], [0, 1], 2, 3⟩),
    .mark 0, .op .ret, .mark 1, .op .ret, .mark 2, .op .mix, .mark 3, .op .exit]

/-- The header of the gradient counts the stops, and leads behind them. -/
theorem lengths_twoStops :
    ∃ header operands later, encode twoStopLines = .ok (header :: operands ++ later) ∧
      (header :: operands).length = 17 ∧ headerLength header = .ok 17 ∧
      walkHeaders 0 (header :: operands ++ later) = .ok ([0, 17, 18, 19, 20], 21) := by
  obtain ⟨words, hwords, hlength⟩ : ∃ words, encode twoStopLines = .ok words ∧ words.length = 21 :=
    ⟨_, rfl, rfl⟩
  obtain ⟨⟨table, -, hsplit⟩, hwalk⟩ := lengths_agree.1 twoStopLines words hwords
  obtain ⟨header, operands, later, -, hdrop, hown, hheader⟩ := hsplit [] _ _ rfl
  have hall : words = header :: operands ++ later := hdrop
  rw [hlength] at hwalk
  rw [hall] at hwords hwalk
  exact ⟨header, operands, later, hwords, hown, hheader, hwalk⟩

end Shading
