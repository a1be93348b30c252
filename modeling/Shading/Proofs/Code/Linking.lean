import Shading.Compile
import Shading.Proofs.Code.Boundaries

/-!
# Linking and encoding agree

The locations of a list are resolved in two ways. Linking counts instructions, encoding counts
words; each keeps a table of its own, and each refuses a location that is marked twice and a jump
whose target is not behind the instruction. Both ask the same of a list, that its marks are distinct
and that its jumps lead to marks ahead of them: an instruction takes at least one word, so whatever
is counted, the lines up to and including an instruction come to more than those in front of it
(`Line.Measure`, `Line.Tabulated.ahead_iff`).

So encoding never fails for the sake of a location on a list that is linked. What else it may fail
for is listed in `Line.Obstacle`, and `exists_encode_iff` says that there is nothing more to it.
What is decoded has its marks put in by decoding itself, and is always linked
(`exists_ofWords_iff`).
-/

namespace Shading

variable {size : List Line → Nat} {table : List (Nat × Nat)} {lines : List Line}
  {words : List UInt32}

/-! ### Two measures of lines -/

namespace Line

/-- A way of counting lines to which every instruction contributes. -/
structure Measure (size : List Line → Nat) : Prop where
  append : ∀ xs ys, size (xs ++ ys) = size xs + size ys
  op_pos : ∀ i, 0 < size [.op i]

theorem measure_count : Measure count :=
  ⟨count_append, fun _ ↦ Nat.one_pos⟩

theorem measure_extent : Measure extent :=
  ⟨extent_append, fun i ↦ i.length_pos⟩

/-- The table has the size of what stands in front of each mark, and no other locations. -/
structure Tabulated (size : List Line → Nat) (table : List (Nat × Nat)) (lines : List Line) :
    Prop where
  marked : ∀ xs l ys, lines = xs ++ .mark l :: ys → table.lookup l = some (size xs)
  unmarked : ∀ l, l ∉ marks lines → table.lookup l = none

/-- Every jump of the list is ahead of its instruction by the table. -/
def AheadBy (size : List Line → Nat) (table : List (Nat × Nat)) (lines : List Line) : Prop :=
  ∀ before i rest, lines = before ++ .op i :: rest →
    ∀ l ∈ i.targets, size before < (table.lookup l).getD 0

/-- A mark is behind an instruction exactly if it is by the table, in either measure. -/
theorem Tabulated.mem_marks_iff (measure : Measure size) (h : Tabulated size table lines)
    {before rest : List Line} {i : Instruction Nat} (split : lines = before ++ .op i :: rest)
    {l : Nat} : l ∈ marks rest ↔ size before < (table.lookup l).getD 0 := by
  have hop := measure.op_pos i
  constructor
  · intro hl
    obtain ⟨xs, ys, rfl⟩ := exists_mark hl
    have hlook := h.marked (before ++ .op i :: xs) l ys (by rw [split, List.append_assoc]; rfl)
    rw [hlook, List.append_cons, measure.append, measure.append, Option.getD_some]
    omega
  · intro hlt
    by_contra hrest
    by_cases hbefore : l ∈ marks before
    · obtain ⟨xs, ys, rfl⟩ := exists_mark hbefore
      have hlook := h.marked xs l (ys ++ .op i :: rest) (by rw [split, List.append_assoc]; rfl)
      rw [hlook, measure.append, Option.getD_some] at hlt
      omega
    · have hnone : l ∉ marks lines := by
        rw [split, marks_append, List.mem_append]
        exact not_or.2 ⟨hbefore, hrest⟩
      rw [h.unmarked l hnone] at hlt
      cases hlt

/-- All jumps go forward exactly if, wherever a list is cut, the targets are marked behind the cut.
-/
theorem ahead_iff_forall_split : Ahead lines ↔
    ∀ before i rest, lines = before ++ .op i :: rest → ∀ l ∈ i.targets, l ∈ marks rest := by
  induction lines with
  | nil => exact ⟨fun _ before i rest h ↦ by simp at h, fun _ ↦ trivial⟩
  | cons x lines ih =>
    refine ⟨fun h before i rest split ↦ ?_, fun h ↦ ?_⟩
    · cases before with
      | nil =>
        obtain ⟨rfl, rfl⟩ := List.cons.inj split
        exact h.1
      | cons y before =>
        obtain ⟨rfl, hlines⟩ := List.cons.inj split
        cases x with
        | mark k => exact ih.1 h before i rest hlines
        | op j => exact ih.1 h.2 before i rest hlines
    · have hlines := ih.2 fun before i rest split ↦ h (x :: before) i rest (by rw [split]; rfl)
      cases x with
      | mark k => exact hlines
      | op j => exact ⟨h [] j lines rfl, hlines⟩

/-- Whatever is counted, the jumps that lead to marks ahead are those that the table puts ahead. -/
theorem Tabulated.ahead_iff (measure : Measure size) (h : Tabulated size table lines) :
    Ahead lines ↔ AheadBy size table lines := by
  rw [ahead_iff_forall_split]
  exact forall₂_congr fun before i ↦ forall₂_congr fun rest split ↦ forall₂_congr fun l _ ↦
    h.mem_marks_iff measure split

end Line

/-! ### What linking asks of a list -/

/-- A table is only built if marks are distinct, and new to the table before. -/
theorem nodup_of_markedIndices {next : Nat} {before : List (Nat × Nat)}
    (h : markedIndices next before lines = .ok table) :
    (Line.marks lines).Nodup ∧ ∀ l ∈ Line.marks lines, before.lookup l = none := by
  induction lines generalizing next before with
  | nil => exact ⟨List.nodup_nil, List.forall_mem_nil _⟩
  | cons x lines ih =>
    cases x with
    | mark k =>
      rw [markedIndices] at h
      split at h
      · cases h
      next hk =>
        rw [Option.not_isSome_iff_eq_none] at hk
        obtain ⟨hnodup, hfresh⟩ := ih h
        -- The later marks are new to a table that has `k` already.
        have hne : ∀ l ∈ Line.marks lines, l ≠ k ∧ before.lookup l = none := by
          intro l hl
          have hlook := hfresh l hl
          rw [List.lookup_cons] at hlook
          by_cases heq : l = k
          · rw [heq, beq_self_eq_true] at hlook
            cases hlook
          · rw [beq_false_of_ne heq] at hlook
            exact ⟨heq, hlook⟩
        refine ⟨List.nodup_cons.2 ⟨fun hmem ↦ (hne k hmem).1 rfl, hnodup⟩, ?_⟩
        exact List.forall_mem_cons.2 ⟨hk, fun l hl ↦ (hne l hl).2⟩
    | op i => exact ih h

/-- The table of indices holds each mark with the number of instructions before it. -/
theorem tabulated_of_markedIndices (h : markedIndices 0 [] lines = .ok table) :
    Line.Tabulated Line.count table lines := by
  obtain ⟨nodup, fresh⟩ := nodup_of_markedIndices h
  obtain ⟨out, hout, hlook⟩ := lookup_markedIndices 0 [] nodup fresh
  obtain rfl := Except.ok.inj (h.symm.trans hout)
  refine ⟨fun xs l ys split ↦ ?_, fun l hl ↦ ?_⟩
  · subst split
    rw [hlook, positionOf_mark nodup, Nat.zero_add]
    rfl
  · rw [hlook, positionOf_eq_none_iff.2 hl]
    rfl

/-- Linking checks the targets of every instruction. -/
theorem checkForward_of_linkFrom {is js code : List (Instruction Nat)} {i : Instruction Nat}
    {index : Nat} (h : linkFrom table index (is ++ i :: js) = .ok code) :
    checkForward table (index + is.length) i.targets = .ok () := by
  induction is generalizing index code with
  | nil => exact (check_bind_eq_ok_iff.1 h).1
  | cons j is ih =>
    obtain ⟨-, h⟩ := check_bind_eq_ok_iff.1 h
    obtain ⟨later, hlater, -⟩ := bind_eq_ok_iff.1 h
    rw [List.length_cons, Nat.add_comm is.length, ← Nat.add_assoc]
    exact ih hlater

/-- Linking only succeeds if all jumps go forward in the table. -/
theorem aheadBy_of_linkFrom {code : List (Instruction Nat)}
    (h : linkFrom table 0 (Line.instructions lines) = .ok code) :
    Line.AheadBy Line.count table lines := by
  intro before i rest split
  rw [split, Line.instructions_append, Line.instructions_op] at h
  have hcheck := checkForward_of_linkFrom h
  rw [Nat.zero_add] at hcheck
  exact checkForward_eq_ok_iff.1 hcheck

/-- A list is linked exactly if its marks are distinct and its jumps lead ahead. -/
theorem link_eq_ok_iff {linked : Linked} : link lines = .ok linked ↔
    (Line.marks lines).Nodup ∧ Line.Ahead lines ∧
      linked = ⟨((Line.instructions lines).map (·.map (resolveIn lines))).toArray⟩ := by
  constructor
  · intro h
    obtain ⟨table, htable, hcode⟩ := bind_eq_ok_iff.1 h
    obtain ⟨code, hcode, -⟩ := bind_eq_ok_iff.1 hcode
    have hnodup := (nodup_of_markedIndices htable).1
    have hahead := ((tabulated_of_markedIndices htable).ahead_iff Line.measure_count).2
      (aheadBy_of_linkFrom hcode)
    exact ⟨hnodup, hahead, Except.ok.inj (h.symm.trans (link_eq_ok hnodup hahead))⟩
  · rintro ⟨hnodup, hahead, rfl⟩
    exact link_eq_ok hnodup hahead

/-- Lists of the same canonical form are linked to the same code. -/
theorem map_resolveIn_eq_of_canonical_eq {xs ys : List Line} (h : canonical xs = canonical ys) :
    (Line.instructions xs).map (·.map (resolveIn xs)) =
      (Line.instructions ys).map (·.map (resolveIn ys)) := by
  have hcode : ∀ lines : List Line, (canonical lines).map (·.map fun k ↦ k.getD 0) =
      (Line.instructions lines).map (·.map (resolveIn lines)) := by
    intro lines
    rw [canonical, List.map_map]
    exact List.map_congr_left fun i _ ↦ Instruction.map_map ..
  rw [← hcode, h, hcode]

/-! ### What encoding asks of a list -/

/-- The table of addresses holds each mark with the number of words before it. -/
theorem tabulated_of_locate (h : locate 0 [] lines = .ok table) :
    Line.Tabulated Line.extent table lines := by
  obtain ⟨located, -, -, hother⟩ := located_of_locate h
  refine ⟨fun xs l ys split ↦ ?_, fun l hl ↦ hother l hl⟩
  rw [split] at located
  rw [(located_append.1 located).2.1, Nat.zero_add]

/-- Encoding only succeeds if all jumps go forward in the table. -/
theorem aheadBy_of_encodeFrom (h : encodeFrom table 0 lines = .ok words) :
    Line.AheadBy Line.extent table lines := by
  intro before i rest split l hl
  obtain ⟨own, hown⟩ := exists_of_encodeFrom (split ▸ h)
  rw [Nat.zero_add] at hown
  obtain ⟨-, operands, -, hoperands⟩ := encodeInstruction_eq_ok hown
  exact exists_distance_iff.1 (encodeOperands_eq_ok hoperands l hl)

/-! ### What else stands against encoding -/

/-- The stops of a gradient instruction. -/
def Instruction.table? {ℓ : Type} : Instruction ℓ → Option (StopTable ℓ)
  | .linearGradientRatio _ _ _ table | .radialGradientRatio _ _ _ table => some table
  | _ => none

/-- What stands against encoding an instruction, apart from its jumps, and how it is reported. -/
inductive Instruction.Fault {ℓ : Type} : Instruction ℓ → EncodeError → Prop
  | stopCount {i : Instruction ℓ} {table : StopTable ℓ} :
    i.table? = some table → ¬ table.Complete →
      Fault i (.stopCount table.ratios.length table.stops.length)
  | lightCount {shininess : Single} {lights : Nat} :
    2 ^ 24 ≤ lights → Fault (.phong shininess lights) .lightCount

/-- What stands against encoding a list, apart from its jumps, and how it is reported. -/
inductive Line.Obstacle (lines : List Line) : EncodeError → Prop
  | noExit : (instructions lines).getLast? ≠ some .exit → Obstacle lines .noExit
  | tooLong : addressSpace ≤ extent lines → Obstacle lines .tooLong
  | operands {i : Instruction Nat} {cause : EncodeError} :
    i ∈ instructions lines → i.Fault cause → Obstacle lines cause

section

variable {ℓ : Type} {resolve : ℓ → Except EncodeError UInt32} {i : Instruction ℓ}

/-- Locations that can be resolved one by one can be resolved together. -/
theorem exists_resolveAll {ls : List ℓ} (h : ∀ l ∈ ls, ∃ d, resolve l = .ok d) :
    ∃ ds, resolveAll resolve ls = .ok ds := by
  induction ls with
  | nil => exact ⟨[], rfl⟩
  | cons l ls ih =>
    rw [List.forall_mem_cons] at h
    obtain ⟨d, hd⟩ := h.1
    obtain ⟨ds, hds⟩ := ih h.2
    rw [resolveAll, hd, hds]
    exact ⟨d :: ds, rfl⟩

/-- A table of which all locations can be resolved can be encoded. -/
theorem exists_encodeStops {table : StopTable ℓ} (h : ∀ l ∈ table.targets, ∃ d, resolve l = .ok d) :
    ∃ ws, encodeStops resolve table = .ok ws := by
  rw [StopTable.targets, List.forall_mem_append] at h
  obtain ⟨stops, hstops⟩ := exists_resolveAll h.1
  obtain ⟨ends, hends⟩ := exists_resolveAll h.2
  rw [encodeStops, hends, hstops]
  exact ⟨_, rfl⟩

/-- The operands of an instruction whose jumps can be resolved are encoded, unless they are at
fault. -/
theorem encodeOperands_cases (h : ∀ l ∈ i.targets, ∃ d, resolve l = .ok d) :
    (∃ ws, encodeOperands resolve i = .ok ws) ∨
      ∃ cause, i.Fault cause ∧ encodeOperands resolve i = .error cause := by
  have htable {table : StopTable ℓ} (operands : List UInt32) (some : i.table? = some table)
      (targets : i.targets = table.targets) :
      (∃ ws, (do checkTable table; return operands ++ (← encodeStops resolve table)) = .ok ws) ∨
        ∃ cause, i.Fault cause ∧
          (do checkTable table; return operands ++ (← encodeStops resolve table)) =
            .error cause := by
    rcases checkTable_cases table with ⟨-, hcheck⟩ | ⟨hcomplete, hcheck⟩
    · obtain ⟨ws, hws⟩ := exists_encodeStops (targets ▸ h)
      rw [hcheck, hws]
      exact .inl ⟨_, rfl⟩
    · rw [hcheck]
      exact .inr ⟨_, .stopCount some hcomplete, rfl⟩
  cases i with
  | opaqueJump target => exact .inl (exists_resolveAll h)
  | phong shininess lights =>
    rw [encodeOperands]
    split
    next hlights => exact .inr ⟨_, .lightCount hlights, rfl⟩
    · exact .inl ⟨_, rfl⟩
  | linearBlendRatio ramp accuracy branches | radialBlendRatio ramp accuracy branches =>
    obtain ⟨ds, hds⟩ := exists_resolveAll h
    have hds : resolveAll resolve branches.targets = .ok ds := hds
    rw [encodeOperands, hds]
    exact .inl ⟨_, rfl⟩
  | linearGradientRatio axis accuracy extend table
  | radialGradientRatio circles accuracy extend table => exact htable _ rfl rfl
  | _ => exact .inl ⟨_, rfl⟩

/-- What is encoded has none of the faults. -/
theorem not_fault_of_encodeOperands {ws : List UInt32} (h : encodeOperands resolve i = .ok ws)
    (cause : EncodeError) : ¬ i.Fault cause := by
  rintro (@⟨_, table, some, incomplete⟩ | @⟨shininess, lights, hlights⟩)
  · have hcheck : checkTable table = .ok () := by
      cases i with
      | linearGradientRatio | radialGradientRatio =>
        cases some
        exact (check_bind_eq_ok_iff.1 h).1
      | _ => cases some
    exact incomplete (complete_of_checkTable hcheck)
  · rw [encodeOperands, if_pos (by omega)] at h
    cases h

end

/-- Lines whose jumps are ahead of them by the table are encoded, unless some operands are at
fault. -/
theorem encodeFrom_cases {address : Nat}
    (ahead : ∀ before i rest, lines = before ++ .op i :: rest →
      ∀ l ∈ i.targets, address + Line.extent before < (table.lookup l).getD 0) :
    (∃ words, encodeFrom table address lines = .ok words) ∨
      ∃ i ∈ Line.instructions lines, ∃ cause, i.Fault cause ∧
        encodeFrom table address lines = .error cause := by
  induction lines generalizing address with
  | nil => exact .inl ⟨[], rfl⟩
  | cons x lines ih =>
    cases x with
    | mark k =>
      refine ih fun before i rest split l hl ↦ ?_
      have := ahead (.mark k :: before) i rest (by rw [split]; rfl) l hl
      rwa [Line.extent_mark] at this
    | op j =>
      have hrest : ∀ before i rest, lines = before ++ .op i :: rest → ∀ l ∈ i.targets,
          address + j.length + Line.extent before < (table.lookup l).getD 0 := by
        intro before i rest split l hl
        have := ahead (.op j :: before) i rest (by rw [split]; rfl) l hl
        rwa [Line.extent_op, ← Nat.add_assoc] at this
      have hfirst : ∀ l ∈ j.targets, ∃ d, distance table address l = .ok d :=
        fun l hl ↦ exists_distance_iff.2 (ahead [] j lines rfl l hl)
      rw [encodeFrom]
      rcases encodeOperands_cases hfirst with ⟨own, hown⟩ | ⟨cause, hfault, hcause⟩
      · rw [encodeInstruction_of_operands hown]
        rcases ih hrest with ⟨words, hwords⟩ | ⟨i, hi, cause, hfault, hcause⟩
        · rw [hwords]
          exact .inl ⟨_, rfl⟩
        · rw [hcause]
          exact .inr ⟨i, List.mem_cons_of_mem _ hi, cause, hfault, rfl⟩
      · rw [encodeInstruction, hcause]
        exact .inr ⟨j, List.mem_cons_self, cause, hfault, rfl⟩

/-- A list whose marks are distinct and whose jumps lead ahead is encoded, unless something else
stands against it. -/
theorem encode_cases (nodup : (Line.marks lines).Nodup) (ahead : Line.Ahead lines) :
    (∃ words, encode lines = .ok words) ∨
      ∃ cause, Line.Obstacle lines cause ∧ encode lines = .error cause := by
  rw [encode]
  split
  next hlast =>
    have hlocate := locate_of_nodup nodup (fun l _ ↦ List.lookup_nil (a := l))
      (by decide : 0 < addressSpace)
    rw [Nat.zero_add] at hlocate
    split at hlocate
    next hfits =>
      obtain ⟨table, htable⟩ := hlocate
      have hahead := ((tabulated_of_locate htable).ahead_iff Line.measure_extent).1 ahead
      rw [htable]
      rcases encodeFrom_cases fun before i rest split l hl ↦ by
        rw [Nat.zero_add]
        exact hahead before i rest split l hl with hwords | ⟨i, hi, cause, hfault, hcause⟩
      · exact .inl hwords
      · exact .inr ⟨cause, .operands hi hfault, hcause⟩
    next hlong =>
      rw [hlocate]
      exact .inr ⟨.tooLong, .tooLong (Nat.le_of_not_lt hlong), rfl⟩
  next hlast => exact .inr ⟨.noExit, .noExit hlast, rfl⟩

/-- Nothing stands against encoding a list that is encoded. -/
theorem not_obstacle_of_encode (h : encode lines = .ok words) (cause : EncodeError) :
    ¬ Line.Obstacle lines cause := by
  have hlast : (Line.instructions lines).getLast? = some .exit := by
    by_contra hne
    rw [encode, if_neg hne] at h
    cases h
  obtain ⟨-, table, hlocate, hencode⟩ := encode_eq_ok h
  rintro (hne | hlong | @⟨i, _, hi, hfault⟩)
  · exact hne hlast
  · exact Nat.not_lt.2 hlong (extent_lt_of_locate hlocate)
  · obtain ⟨before, rest, hsplit⟩ := List.append_of_mem (Line.mem_instructions.1 hi)
    obtain ⟨own, hown⟩ := exists_of_encodeFrom (hsplit ▸ hencode)
    obtain ⟨-, operands, -, hoperands⟩ := encodeInstruction_eq_ok hown
    exact not_fault_of_encodeOperands hoperands cause hfault

/-- A list is encoded exactly if it is linked and nothing else stands against it. -/
theorem exists_encode_iff : (∃ words, encode lines = .ok words) ↔
    (∃ linked, link lines = .ok linked) ∧ ∀ cause, ¬ Line.Obstacle lines cause := by
  constructor
  · rintro ⟨words, h⟩
    obtain ⟨-, table, hlocate, hencode⟩ := encode_eq_ok h
    have hnodup := (located_of_locate hlocate).2.1
    have hahead := ((tabulated_of_locate hlocate).ahead_iff Line.measure_extent).2
      (aheadBy_of_encodeFrom hencode)
    exact ⟨⟨_, link_eq_ok hnodup hahead⟩, not_obstacle_of_encode h⟩
  · rintro ⟨⟨linked, h⟩, clear⟩
    obtain ⟨hnodup, hahead, -⟩ := link_eq_ok_iff.1 h
    rcases encode_cases hnodup hahead with hwords | ⟨cause, hobstacle, -⟩
    · exact hwords
    · exact absurd hobstacle (clear cause)

/-! ### Linking what is decoded -/

/-- What is decoded can be linked. -/
theorem exists_link_of_decode {offset : Nat} (h : decode words offset = .ok lines) :
    ∃ linked, link lines = .ok linked := by
  obtain ⟨decoded, hdecode, hmark⟩ := bind_eq_ok_iff.1 h
  obtain ⟨stream, rest, cleared, -, -, hwritten⟩ := written_of_decodeFrom hdecode
  obtain ⟨hboundary, rfl⟩ := markTargets_eq_ok_iff.1 hmark
  exact ⟨_, link_eq_ok (nodup_marks_numberedLines hwritten.nodup)
    (ahead_numberedLines hwritten.sorted (forward_markedAddresses hboundary hwritten.ahead))⟩

/-- Words are linked exactly if they are decoded. -/
theorem exists_ofWords_iff {R : Type} {offset : Nat} :
    (∃ linked, (Linked.ofWords words offset : Except (Error R) Linked) = .ok linked) ↔
      ∃ lines, decode words offset = .ok lines := by
  constructor
  · rintro ⟨linked, h⟩
    obtain ⟨lines, hlines, -⟩ := bind_eq_ok_iff.1 h
    cases hdecode : decode words offset with
    | error cause =>
      rw [hdecode] at hlines
      cases hlines
    | ok lines => exact ⟨lines, rfl⟩
  · rintro ⟨lines, h⟩
    obtain ⟨linked, hlinked⟩ := exists_link_of_decode h
    refine ⟨linked, ?_⟩
    rw [Linked.ofWords, h]
    show (link lines).mapError _ = _
    rw [hlinked]
    rfl

/-- Linking and encoding ask the same of the locations of a list. What is encoded is linked; what is
linked is encoded, unless something else stands against it, and that is what is reported; and a
stream of words is linked exactly if it can be decoded. -/
theorem encodes_iff_links (R : Type) :
    (∀ lines, (∃ words, encode lines = .ok words) ↔
      (∃ linked, link lines = .ok linked) ∧ ∀ cause, ¬ Line.Obstacle lines cause) ∧
    (∀ lines linked cause, link lines = .ok linked → encode lines = .error cause →
      Line.Obstacle lines cause) ∧
    ∀ words offset, (∃ linked, (Linked.ofWords words offset : Except (Error R) Linked) =
      .ok linked) ↔ ∃ lines, decode words offset = .ok lines := by
  refine ⟨fun lines ↦ exists_encode_iff, fun lines linked cause hlink hencode ↦ ?_,
    fun words offset ↦ exists_ofWords_iff⟩
  obtain ⟨hnodup, hahead, -⟩ := link_eq_ok_iff.1 hlink
  rcases encode_cases hnodup hahead with ⟨words, hwords⟩ | ⟨cause', hobstacle, hcause⟩
  · rw [hwords] at hencode
    cases hencode
  · rw [hcause] at hencode
    exact Except.error.inj hencode ▸ hobstacle

end Shading
