import Mathlib.Algebra.Ring.Nat
import Shading.Code.Equality
import Shading.Machine.Linked

/-!
# Lines and the code they are linked to

What the marks of a list say about linked code. `markedIndices` reads the marks once and keeps the
latest first, while `positionOf` looks for a single location; both find the same index
(`lookup_markedIndices`), so linked code is the list of instructions with every location replaced by
its position (`link_eq_ok`).

Two conditions on lists make linking succeed, and both are kept by appending: no location is marked
twice, and every jump refers to a mark that comes later in the list (`Ahead`).

`Placed` is the same fact from the side of the code: some lines stand in it from an index on.
Statements about the machine are made about placed lines, since a block of instructions is only ever
run as a part of some code.
-/

namespace Shading

/-- The locations that a list marks, in order. -/
def Line.marks : List Line → List Nat
  | [] => []
  | .mark location :: rest => location :: marks rest
  | .op _ :: rest => marks rest

/-- The number of instructions of a list. -/
def Line.count (lines : List Line) : Nat := (Line.instructions lines).length

/-- Every jump of the list refers to a location that is marked later in the list. -/
def Line.Ahead : List Line → Prop
  | [] => True
  | .mark _ :: rest => Ahead rest
  | .op i :: rest => (∀ t ∈ i.targets, t ∈ marks rest) ∧ Ahead rest

namespace Line

@[simp]
theorem instructions_nil : instructions [] = [] :=
  rfl

@[simp]
theorem instructions_mark (l : Nat) (lines : List Line) :
    instructions (.mark l :: lines) = instructions lines :=
  rfl

@[simp]
theorem instructions_op (i : Instruction Nat) (lines : List Line) :
    instructions (.op i :: lines) = i :: instructions lines :=
  rfl

@[simp]
theorem instructions_append (xs ys : List Line) :
    instructions (xs ++ ys) = instructions xs ++ instructions ys :=
  List.filterMap_append

@[simp]
theorem count_nil : count [] = 0 :=
  rfl

@[simp]
theorem count_mark (l : Nat) (lines : List Line) : count (.mark l :: lines) = count lines :=
  rfl

@[simp]
theorem count_op (i : Instruction Nat) (lines : List Line) :
    count (.op i :: lines) = count lines + 1 :=
  rfl

@[simp]
theorem count_append (xs ys : List Line) : count (xs ++ ys) = count xs + count ys := by
  rw [count, instructions_append, List.length_append]
  rfl

@[simp]
theorem marks_append (xs ys : List Line) : marks (xs ++ ys) = marks xs ++ marks ys := by
  induction xs with
  | nil => rfl
  | cons x xs ih =>
    cases x with
    | mark l => rw [List.cons_append, marks, ih, marks, List.cons_append]
    | op i => rw [List.cons_append, marks, ih, marks]

/-- Jumps that go forward in two lists go forward in both together. -/
theorem Ahead.append {xs ys : List Line} (hx : Ahead xs) (hy : Ahead ys) : Ahead (xs ++ ys) := by
  induction xs with
  | nil => exact hy
  | cons x xs ih =>
    cases x with
    | mark l => exact ih hx
    | op i =>
      refine ⟨fun t ht ↦ ?_, ih hx.2⟩
      show t ∈ marks (xs ++ ys)
      rw [marks_append]
      exact List.mem_append_left _ (hx.1 t ht)

/-- The target of a forward jump is marked. -/
theorem Ahead.mem_marks {lines : List Line} (h : Ahead lines) :
    ∀ i ∈ instructions lines, ∀ t ∈ i.targets, t ∈ marks lines := by
  induction lines with
  | nil => exact nofun
  | cons x lines ih =>
    cases x with
    | mark l => exact fun i hi t ht ↦ List.mem_cons_of_mem _ (ih h i hi t ht)
    | op i => exact List.forall_mem_cons.2 ⟨h.1, ih h.2⟩

end Line

/-! ### Positions of locations -/

/-- A mark in the second of two lists prevails over one in the first. -/
theorem positionOf_append (l : Nat) (xs ys : List Line) (index : Nat) :
    positionOf l index (xs ++ ys) =
      (positionOf l (index + Line.count xs) ys).or (positionOf l index xs) := by
  induction xs generalizing index with
  | nil => simp [positionOf]
  | cons x xs ih =>
    cases x with
    | mark k =>
      rw [List.cons_append, positionOf, ih, Line.count_mark, positionOf]
      cases positionOf l (index + Line.count xs) ys <;> rfl
    | op i =>
      rw [List.cons_append, positionOf, ih, Line.count_op, positionOf, Nat.add_right_comm,
        Nat.add_assoc]

/-- A location has a position exactly if it is marked. -/
theorem isSome_positionOf_iff {l : Nat} (index : Nat) {lines : List Line} :
    (positionOf l index lines).isSome ↔ l ∈ Line.marks lines := by
  induction lines generalizing index with
  | nil => simp [positionOf, Line.marks]
  | cons x lines ih =>
    cases x with
    | mark k =>
      rw [positionOf, Line.marks, List.mem_cons, ← ih index]
      rcases positionOf l index lines with - | j
      · by_cases h : k = l
        · simp [h]
        · simp [h, Ne.symm h]
      · simp
    | op i => exact ih (index + 1)

/-- A location has no position exactly if it is not marked. -/
theorem positionOf_eq_none_iff {l index : Nat} {lines : List Line} :
    positionOf l index lines = none ↔ l ∉ Line.marks lines := by
  rw [← isSome_positionOf_iff index, Option.not_isSome_iff_eq_none]

/-- The position of a mark that is the only one of its location. -/
theorem positionOf_mark {xs ys : List Line} {l : Nat}
    (nodup : (Line.marks (xs ++ .mark l :: ys)).Nodup) (index : Nat) :
    positionOf l index (xs ++ .mark l :: ys) = some (index + Line.count xs) := by
  rw [Line.marks_append, Line.marks] at nodup
  have hnone : positionOf l (index + Line.count xs) ys = none :=
    positionOf_eq_none_iff.2 (List.nodup_cons.1 (List.nodup_append.1 nodup).2.1).1
  rw [positionOf_append, positionOf, hnone]
  simp

/-- No mark comes before where counting starts. -/
theorem le_of_positionOf_eq_some {l index j : Nat} {lines : List Line}
    (h : positionOf l index lines = some j) : index ≤ j := by
  induction lines generalizing index with
  | nil => cases h
  | cons x lines ih =>
    cases x with
    | mark k =>
      rw [positionOf] at h
      rcases hp : positionOf l index lines with - | i
      · rw [hp] at h
        by_cases hk : k = l
        · rw [if_pos hk, Option.some.injEq] at h
          exact h ▸ Nat.le_refl _
        · rw [if_neg hk] at h
          cases h
      · rw [hp] at h
        exact ih (hp.trans h)
    | op i => exact Nat.le_of_succ_le (ih h)

/-- Jumps lead ahead exactly if every target has its position behind the instruction. -/
theorem Line.ahead_iff_lt_positionOf (start : Nat) {lines : List Line} :
    Line.Ahead lines ↔ ∀ n i, (Line.instructions lines)[n]? = some i → ∀ l ∈ i.targets,
      ∃ p, positionOf l start lines = some p ∧ start + n < p := by
  induction lines generalizing start with
  | nil => exact ⟨fun _ n i h ↦ by simp at h, fun _ ↦ trivial⟩
  | cons x lines ih =>
    cases x with
    | mark k =>
      rw [Line.Ahead, ih start]
      refine forall₂_congr fun n i ↦ forall_congr' fun _ ↦ forall₂_congr fun l _ ↦ ?_
      -- A mark at the start itself is behind no instruction.
      rw [positionOf]
      rcases positionOf l start lines with - | p
      · refine ⟨fun ⟨p, hp, _⟩ ↦ absurd hp (by simp), fun ⟨p, hp, hlt⟩ ↦ ?_⟩
        simp only at hp
        split at hp
        · obtain rfl := Option.some.inj hp
          omega
        · cases hp
      · exact Iff.rfl
    | op j =>
      have hfirst : (∀ l ∈ j.targets, l ∈ Line.marks lines) ↔
          ∀ l ∈ j.targets, ∃ p, positionOf l (start + 1) lines = some p ∧ start < p := by
        refine forall₂_congr fun l _ ↦ ?_
        rw [← isSome_positionOf_iff (start + 1), Option.isSome_iff_exists]
        exact exists_congr fun p ↦ ⟨fun h ↦ ⟨h, le_of_positionOf_eq_some h⟩, fun h ↦ h.1⟩
      rw [Line.Ahead, hfirst, ih (start + 1)]
      constructor
      · rintro ⟨hj, hlines⟩ (- | n) i hi
        · obtain rfl := Option.some.inj hi
          exact hj
        · intro l hl
          obtain ⟨p, hp, hlt⟩ := hlines n i hi l hl
          exact ⟨p, hp, by omega⟩
      · refine fun h ↦ ⟨h 0 j rfl, fun n i hi l hl ↦ ?_⟩
        obtain ⟨p, hp, hlt⟩ := h (n + 1) i hi l hl
        exact ⟨p, hp, by omega⟩

/-! ### Linking -/

/-- The table of marks finds every location where `positionOf` does. -/
theorem lookup_markedIndices {lines : List Line} (next : Nat) (table : List (Nat × Nat))
    (nodup : (Line.marks lines).Nodup)
    (fresh : ∀ l ∈ Line.marks lines, table.lookup l = none) :
    ∃ out, markedIndices next table lines = .ok out ∧
      ∀ l, out.lookup l = (positionOf l next lines).or (table.lookup l) := by
  induction lines generalizing next table with
  | nil => exact ⟨table, rfl, fun l ↦ rfl⟩
  | cons x lines ih =>
    cases x with
    | mark k =>
      rw [Line.marks, List.nodup_cons] at nodup
      have hk : table.lookup k = none := fresh k List.mem_cons_self
      have hfresh : ∀ l ∈ Line.marks lines, ((k, next) :: table).lookup l = none := by
        intro l hl
        have hne : (l == k) = false := beq_false_of_ne fun h ↦ nodup.1 (h ▸ hl)
        rw [List.lookup_cons, hne]
        exact fresh l (List.mem_cons_of_mem _ hl)
      obtain ⟨out, hout, hlook⟩ := ih next _ nodup.2 hfresh
      refine ⟨out, by rw [markedIndices, hk]; exact hout, fun l ↦ ?_⟩
      rw [hlook, positionOf, List.lookup_cons]
      rcases positionOf l next lines with - | j
      · by_cases h : k = l
        · simp [h]
        · have hne : (l == k) = false := beq_false_of_ne (Ne.symm h)
          simp [h, hne]
      · rfl
    | op i => exact ih (next + 1) table nodup fresh

/-- The targets of an instruction pass if the table puts all of them behind it. -/
theorem checkForward_eq_ok_iff {table : List (Nat × Nat)} {index : Nat} {locations : List Nat} :
    checkForward table index locations = .ok () ↔
      ∀ l ∈ locations, index < (table.lookup l).getD 0 := by
  induction locations with
  | nil => exact ⟨fun _ ↦ List.forall_mem_nil _, fun _ ↦ rfl⟩
  | cons l rest ih =>
    rw [checkForward, List.forall_mem_cons, ← ih]
    rcases table.lookup l with - | target
    · simp
    · by_cases hle : target ≤ index
      · simp [hle, Nat.not_lt.2 hle]
      · simp [hle, Nat.lt_of_not_le hle]

/-- The index that a location marks, or zero if it marks none. -/
def resolveIn (lines : List Line) (l : Nat) : Nat := (positionOf l 0 lines).getD 0

/-- A list with the instructions before some lines in front of it: their jumps are found ahead. -/
theorem linkFrom_eq_ok {table : List (Nat × Nat)} (before rest : List Line)
    (look : ∀ l, table.lookup l = positionOf l 0 (before ++ rest)) (ahead : Line.Ahead rest) :
    linkFrom table (Line.count before) (Line.instructions rest) =
      .ok ((Line.instructions rest).map (·.map (resolveIn (before ++ rest)))) := by
  induction rest generalizing before with
  | nil => rfl
  | cons x rest ih =>
    have hassoc : before ++ x :: rest = (before ++ [x]) ++ rest := by simp
    rw [hassoc] at look
    cases x with
    | mark k =>
      have h := ih _ look ahead
      rw [Line.count_append, Line.count_mark, Line.count_nil, Nat.add_zero] at h
      rw [Line.instructions_mark, hassoc]
      exact h
    | op i =>
      have h := ih _ look ahead.2
      rw [Line.count_append, Line.count_op, Line.count_nil, Nat.zero_add] at h
      -- Targets are marked in the rest, so their indices lie behind that of the instruction.
      have hcheck : checkForward table (Line.count before) i.targets = .ok () := by
        refine checkForward_eq_ok_iff.2 fun t ht ↦ ?_
        obtain ⟨j, hj⟩ := Option.isSome_iff_exists.1
          ((isSome_positionOf_iff (0 + Line.count (before ++ [.op i]))).2 (ahead.1 t ht))
        have hle := le_of_positionOf_eq_some hj
        rw [Line.count_append, Line.count_op, Line.count_nil] at hle
        rw [look, positionOf_append, hj]
        show Line.count before < j
        omega
      have hmap : i.map (fun l ↦ (table.lookup l).getD 0) =
          i.map (resolveIn (before ++ [.op i] ++ rest)) :=
        congrArg i.map (funext fun l ↦ by rw [look, resolveIn])
      rw [Line.instructions_op, hassoc, linkFrom, hcheck, h, hmap]
      rfl

/-- A list whose marks are distinct and whose jumps lead ahead is linked to its instructions, with
every location replaced by its position. -/
theorem link_eq_ok {lines : List Line} (nodup : (Line.marks lines).Nodup)
    (ahead : Line.Ahead lines) :
    link lines =
      .ok ⟨((Line.instructions lines).map (·.map (resolveIn lines))).toArray⟩ := by
  obtain ⟨table, htable, hlook⟩ :=
    lookup_markedIndices 0 [] nodup fun _ _ ↦ rfl
  have hcode := linkFrom_eq_ok [] lines
    (fun l ↦ by rw [hlook]; simp) ahead
  rw [link, htable]
  show (linkFrom table 0 (Line.instructions lines) >>= fun code ↦
    Except.ok (Linked.mk code.toArray)) = _
  rw [show linkFrom table 0 (Line.instructions lines) = _ from hcode]
  rfl

/-! ### Lines within code -/

/-- The lines stand in the code from an index on: their instructions one after the other, with
references resolved, and every location they mark resolved to the place of its mark. -/
def Placed (code : Array (Instruction Nat)) (resolve : Nat → Nat) (start : Nat) :
    List Line → Prop
  | [] => True
  | .mark l :: rest => resolve l = start ∧ Placed code resolve start rest
  | .op i :: rest => code[start]? = some (i.map resolve) ∧ Placed code resolve (start + 1) rest

/-- Code is placed if both of its parts are, one behind the other. -/
theorem placed_append {code : Array (Instruction Nat)} {resolve : Nat → Nat} {start : Nat}
    {xs ys : List Line} :
    Placed code resolve start (xs ++ ys) ↔
      Placed code resolve start xs ∧ Placed code resolve (start + Line.count xs) ys := by
  induction xs generalizing start with
  | nil => simp [Placed]
  | cons x xs ih =>
    cases x with
    | mark l => rw [List.cons_append, Placed, Placed, ih, Line.count_mark, and_assoc]
    | op i =>
      rw [List.cons_append, Placed, Placed, ih, Line.count_op, and_assoc,
        show start + 1 + Line.count xs = start + (Line.count xs + 1) by omega]

/-- The lines of a list that is linked stand in its code from the start. -/
theorem placed_linked {lines : List Line} (nodup : (Line.marks lines).Nodup) :
    Placed ((Line.instructions lines).map (·.map (resolveIn lines))).toArray (resolveIn lines) 0
      lines := by
  suffices h : ∀ before rest, lines = before ++ rest →
      Placed ((Line.instructions lines).map (·.map (resolveIn lines))).toArray (resolveIn lines)
        (Line.count before) rest from h [] lines rfl
  intro before rest hlines
  induction rest generalizing before with
  | nil => trivial
  | cons x rest ih =>
    have hrest := ih (before ++ [x]) (by rw [hlines, List.append_assoc]; rfl)
    rw [Line.count_append] at hrest
    cases x with
    | mark l =>
      refine ⟨?_, hrest⟩
      rw [hlines] at nodup
      rw [resolveIn, hlines, positionOf_mark nodup, Option.getD_some, Nat.zero_add]
    | op i =>
      refine ⟨?_, hrest⟩
      rw [List.getElem?_toArray, List.getElem?_map]
      have hi : (Line.instructions lines)[Line.count before]? = some i := by
        rw [hlines, Line.instructions_append, Line.count,
          List.getElem?_append_right (Nat.le_refl _), Nat.sub_self]
        rfl
      rw [hi]
      rfl

end Shading
