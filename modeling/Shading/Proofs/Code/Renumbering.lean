import Mathlib.Data.Set.Function
import Shading.Proofs.Code.Comparison
import Shading.Proofs.Code.Linking
import Shading.Proofs.Machine.Resolution

/-!
# Lists that run alike

Two programs with different locations and different tables run alike if the tables lead from the
same instructions to the same indices. Each goes in step with the code in which its locations are
resolved, and so they go in step with each other (`Executable.advance_eq`), through jumps, calls and
returns: a return stack has the indices of either table.

The canonical form of a list says where its locations lead, so lists of the same canonical form that
can be loaded run alike. Which changes of the marks keep the canonical form is a matter of
positions: every location that is jumped to has to be found where it was (`Line.Renumbers`). Whether
jumps lead ahead is a matter of positions too (`Line.ahead_iff_lt_positionOf`), so after such a
change a list can still be loaded, as long as no location is marked twice. Locations may be renamed,
those with the same position may become one (`Line.uniteMarks`), and marks that nothing jumps to may
come and go.
-/

namespace Shading

namespace Line

/-- The second list has the instructions of the first, with locations renamed, and finds each target
where the first one does. -/
structure Renumbers (f : Nat → Nat) (xs ys : List Line) : Prop where
  instructions : instructions ys = (instructions xs).map (·.map f)
  position : ∀ i ∈ Line.instructions xs, ∀ l ∈ i.targets,
    positionOf (f l) 0 ys = positionOf l 0 xs

/-- The lines with their locations renamed. Of the marks that get the same name the first one is
kept, unless that name is among those seen. -/
def uniteMarks (f : Nat → Nat) (seen : List Nat) : List Line → List Line
  | [] => []
  | .mark l :: rest =>
    if f l ∈ seen then uniteMarks f seen rest
    else .mark (f l) :: uniteMarks f (f l :: seen) rest
  | .op i :: rest => .op (i.map f) :: uniteMarks f seen rest

section

variable {f : Nat → Nat} {xs ys : List Line}

/-- A renumbered list is the same list up to its numbering. -/
theorem Renumbers.canonical_eq (h : Renumbers f xs ys) : canonical ys = canonical xs := by
  rw [canonical, h.instructions, List.map_map, canonical]
  refine List.map_congr_left fun i hi ↦ ?_
  exact (Instruction.map_map ..).trans (Instruction.map_congr (h.position i hi))

/-- Renumbering keeps jumps forward. -/
theorem Renumbers.ahead (h : Renumbers f xs ys) (ahead : Ahead xs) : Ahead ys := by
  rw [ahead_iff_lt_positionOf 0] at ahead ⊢
  intro n j hj l hl
  rw [h.instructions, List.getElem?_map, Option.map_eq_some_iff] at hj
  obtain ⟨i, hi, rfl⟩ := hj
  rw [Instruction.targets_map] at hl
  obtain ⟨k, hk, rfl⟩ := List.mem_map.1 hl
  rw [h.position i (List.mem_of_getElem? hi) k hk]
  exact ahead n i hi k hk

/-! ### Renaming locations -/

/-- Uniting marks renames the locations of instructions, and leaves the instructions in place. -/
theorem instructions_uniteMarks (seen : List Nat) :
    instructions (uniteMarks f seen xs) = (instructions xs).map (·.map f) := by
  induction xs generalizing seen with
  | nil => rfl
  | cons x xs ih =>
    cases x with
    | mark l =>
      rw [uniteMarks]
      split
      · exact ih seen
      · exact ih (f l :: seen)
    | op i => exact congrArg (i.map f :: ·) (ih seen)

/-- Only the first mark of each location is kept, and none that was seen before. -/
theorem nodup_marks_uniteMarks (seen : List Nat) :
    (marks (uniteMarks f seen xs)).Nodup ∧ ∀ l ∈ marks (uniteMarks f seen xs), l ∉ seen := by
  induction xs generalizing seen with
  | nil => exact ⟨List.nodup_nil, List.forall_mem_nil _⟩
  | cons x xs ih =>
    cases x with
    | mark l =>
      rw [uniteMarks]
      split
      · exact ih seen
      next hl =>
        obtain ⟨hnodup, hunseen⟩ := ih (f l :: seen)
        refine ⟨List.nodup_cons.2 ⟨fun hmem ↦ hunseen _ hmem List.mem_cons_self, hnodup⟩, ?_⟩
        exact List.forall_mem_cons.2 ⟨hl, fun k hk ↦ mt (List.mem_cons_of_mem _) (hunseen k hk)⟩
    | op i => exact ih seen

/-- If only locations with the same position get the same name, each is found where it was. -/
theorem positionOf_uniteMarks {start : Nat} (seen : List Nat) (nodup : (marks xs).Nodup)
    (alike : ∀ k ∈ marks xs, ∀ l ∈ marks xs, f k = f l →
      positionOf k start xs = positionOf l start xs) :
    ∀ l ∈ marks xs, f l ∉ seen →
      positionOf (f l) start (uniteMarks f seen xs) = positionOf l start xs := by
  induction xs generalizing start seen with
  | nil => exact List.forall_mem_nil _
  | cons x xs ih =>
    cases x with
    | op i => exact fun l hl ↦ ih seen nodup alike l hl
    | mark k =>
      obtain ⟨hk, hnodup⟩ := List.nodup_cons.1 nodup
      have hfirst : positionOf k start (.mark k :: xs) = some start := by
        rw [positionOf, positionOf_eq_none_iff.2 hk]
        exact if_pos rfl
      -- A later location is not found at the first mark.
      have hlater : ∀ l ∈ marks xs, positionOf l start (.mark k :: xs) = positionOf l start xs := by
        intro l hl
        obtain ⟨p, hp⟩ := Option.isSome_iff_exists.1 ((isSome_positionOf_iff start).2 hl)
        rw [positionOf, hp]
      have halike : ∀ l ∈ marks xs, ∀ m ∈ marks xs, f l = f m →
          positionOf l start xs = positionOf m start xs := by
        intro l hl m hm heq
        rw [← hlater l hl, ← hlater m hm]
        exact alike l (List.mem_cons_of_mem _ hl) m (List.mem_cons_of_mem _ hm) heq
      intro l hl hunseen
      rw [uniteMarks]
      split
      next hseen =>
        have hl : l ∈ marks xs := (List.mem_cons.1 hl).resolve_left fun h ↦ hunseen (h ▸ hseen)
        rw [hlater l hl]
        exact ih seen hnodup halike l hl hunseen
      · by_cases heq : f l = f k
        · have hnone : positionOf (f k) start (uniteMarks f (f k :: seen) xs) = none :=
            positionOf_eq_none_iff.2 fun h ↦
              (nodup_marks_uniteMarks (f k :: seen)).2 _ h List.mem_cons_self
          rw [alike l hl k List.mem_cons_self heq, hfirst, heq, positionOf, hnone]
          exact if_pos rfl
        · have hl : l ∈ marks xs := (List.mem_cons.1 hl).resolve_left fun h ↦ heq (h ▸ rfl)
          have hrest := ih (f k :: seen) hnodup halike l hl
            (mt List.mem_cons.1 (not_or.2 ⟨heq, hunseen⟩))
          rw [positionOf, if_neg (Ne.symm heq), hrest, hlater l hl]
          cases positionOf l start xs <;> rfl

/-- Locations that stand for the same place may be united. -/
theorem renumbers_uniteMarks (nodup : (marks xs).Nodup) (ahead : Ahead xs)
    (alike : ∀ k ∈ marks xs, ∀ l ∈ marks xs, f k = f l → positionOf k 0 xs = positionOf l 0 xs) :
    Renumbers f xs (uniteMarks f [] xs) where
  instructions := instructions_uniteMarks []
  position i hi l hl :=
    positionOf_uniteMarks [] nodup alike l (ahead.mem_marks i hi l hl) List.not_mem_nil

/-- Where no two locations get the same name, all marks are kept. -/
theorem uniteMarks_eq_map (seen : List Nat) (nodup : (marks xs).Nodup)
    (inj : Set.InjOn f {l | l ∈ marks xs}) (unseen : ∀ l ∈ marks xs, f l ∉ seen) :
    uniteMarks f seen xs = xs.map (mapLocations f) := by
  induction xs generalizing seen with
  | nil => rfl
  | cons x xs ih =>
    cases x with
    | op i => exact congrArg (.op (i.map f) :: ·) (ih seen nodup inj unseen)
    | mark k =>
      obtain ⟨hk, hnodup⟩ := List.nodup_cons.1 nodup
      obtain ⟨hseen, hunseen⟩ := List.forall_mem_cons.1 unseen
      rw [uniteMarks, if_neg hseen]
      refine congrArg (.mark (f k) :: ·) (ih _ hnodup (inj.mono fun l ↦ List.mem_cons_of_mem k) ?_)
      refine fun l hl ↦ mt List.mem_cons.1 (not_or.2 ⟨fun heq ↦ hk ?_, hunseen l hl⟩)
      exact inj (List.mem_cons_of_mem k hl) List.mem_cons_self heq ▸ hl

/-! ### Marks without jumps -/

/-- A mark of another location moves no position. -/
theorem positionOf_insert_mark {k l : Nat} (h : k ≠ l) :
    positionOf l 0 (xs ++ .mark k :: ys) = positionOf l 0 (xs ++ ys) := by
  rw [positionOf_append, positionOf_append, positionOf, if_neg h]
  cases positionOf l (0 + count xs) ys <;> rfl

/-- A mark that nothing refers to may be added, or left out. -/
theorem renumbers_insert_mark {k : Nat}
    (unused : ∀ i ∈ instructions (xs ++ ys), k ∉ i.targets) :
    Renumbers id (xs ++ ys) (xs ++ .mark k :: ys) ∧
      Renumbers id (xs ++ .mark k :: ys) (xs ++ ys) := by
  have hlines : instructions (xs ++ .mark k :: ys) = instructions (xs ++ ys) := by
    rw [instructions_append, instructions_mark, instructions_append]
  have hid : (instructions (xs ++ ys)).map (·.map id) = instructions (xs ++ ys) :=
    (List.map_congr_left fun i _ ↦ Instruction.map_id i).trans (List.map_id _)
  have hposition : ∀ i ∈ instructions (xs ++ ys), ∀ l ∈ i.targets,
      positionOf l 0 (xs ++ .mark k :: ys) = positionOf l 0 (xs ++ ys) :=
    fun i hi l hl ↦ positionOf_insert_mark fun h ↦ unused i hi (h ▸ hl)
  refine ⟨⟨hlines.trans hid.symm, hposition⟩, ⟨?_, fun i hi l hl ↦ ?_⟩⟩
  · rw [hlines, hid]
  · exact (hposition i (hlines ▸ hi) l hl).symm

end

end Line

/-! ### Running -/

namespace Executable

variable {R : Type} [ColorModel R] [Rounding R Single] {p q : Executable}

/-- Programs whose tables lead to the same indices come to the same state in every step. -/
theorem advance_eq (hp : p.Resolves) (hq : q.Resolves) (same : p.linked = q.linked)
    (limits : Limits) (env : Environment R) (s : Machine.State R) :
    p.advance limits env s = q.advance limits env s := by
  rw [advance_linked hp, advance_linked hq, same]

/-- They stop at the same stacks, or fail alike. -/
theorem run_eq (hp : p.Resolves) (hq : q.Resolves) (same : p.linked = q.linked) (limits : Limits)
    (env : Environment R) (fuel : Nat) (s : Machine.State R) :
    p.run limits env fuel s = q.run limits env fuel s := by
  induction fuel generalizing s with
  | zero => rfl
  | succ fuel ih =>
    rw [run, run, advance_eq hp hq same]
    cases q.advance limits env s with
    | running t => exact ih t
    | halted store => rfl
    | failed cause => rfl

/-- Programs whose linked code is the same execute alike. -/
theorem execute_eq (hp : p.Resolves) (hq : q.Resolves) (same : p.linked = q.linked)
    (limits : Limits) (ctx : Context R) : p.execute limits ctx = q.execute limits ctx := by
  rw [execute, run_eq hp hq same]
  rfl

end Executable

variable {lines : List Line} {p q : Executable}

/-- The tables of lists with the same canonical form lead to the same indices. -/
theorem linked_eq_of_canonical_eq {xs ys : List Line} (hx : load xs = .ok p) (hy : load ys = .ok q)
    (h : canonical xs = canonical ys) : p.linked = q.linked := by
  obtain ⟨-, -, hp⟩ := link_eq_ok_iff.1 (link_of_load hx)
  obtain ⟨-, -, hq⟩ := link_eq_ok_iff.1 (link_of_load hy)
  rw [hp, hq, map_resolveIn_eq_of_canonical_eq h]

/-- What is renumbered can be loaded, unless a location comes to be marked twice, and its table
leads where that of the first list does. -/
theorem Line.Renumbers.exists_load {f : Nat → Nat} {xs ys : List Line} (h : Line.Renumbers f xs ys)
    (nodup : (Line.marks ys).Nodup) (loaded : load xs = .ok p) :
    ∃ q, load ys = .ok q ∧ q.linked = p.linked := by
  obtain ⟨-, ahead, hp⟩ := link_eq_ok_iff.1 (link_of_load loaded)
  refine exists_load_of_link (link_eq_ok_iff.2 ⟨nodup, h.ahead ahead, ?_⟩)
  rw [hp, map_resolveIn_eq_of_canonical_eq h.canonical_eq]

/-- The list can be loaded, and comes to the same as the program, within any limits and in any
context. -/
def Line.RunsLike (R : Type) [ColorModel R] [Rounding R Single] (lines : List Line)
    (p : Executable) : Prop :=
  ∃ q, load lines = .ok q ∧ ∀ (limits : Limits) (ctx : Context R),
    q.execute limits ctx = p.execute limits ctx

/-- Lists that are the same up to the numbering of locations and the places of marks run alike:
where two of them can be loaded, they come to the same. A list that can be loaded still can after it
is renumbered, as long as no location is marked twice; in particular locations may be renamed one to
one, locations of the same position may become one, and marks that nothing jumps to may be taken out
or put in. -/
theorem runs_alike (R : Type) [ColorModel R] [Rounding R Single] (loaded : load lines = .ok p) :
    (∀ other q, load other = .ok q → canonical lines = canonical other →
      ∀ (limits : Limits) (ctx : Context R), q.execute limits ctx = p.execute limits ctx) ∧
    (∀ other q, load other = .ok q → sameInstructions lines other = true →
      (Line.instructions lines).map Instruction.singles =
        (Line.instructions other).map Instruction.singles →
      ∀ (limits : Limits) (ctx : Context R), q.execute limits ctx = p.execute limits ctx) ∧
    (∀ f other, Line.Renumbers f lines other → (Line.marks other).Nodup →
      Line.RunsLike R other p) ∧
    (∀ f, Set.InjOn f {l | l ∈ Line.marks lines} →
      Line.RunsLike R (lines.map (Line.mapLocations f)) p) ∧
    (∀ f, (∀ k ∈ Line.marks lines, ∀ l ∈ Line.marks lines, f k = f l →
      positionOf k 0 lines = positionOf l 0 lines) →
      Line.RunsLike R (Line.uniteMarks f [] lines) p) ∧
    (∀ xs k ys, lines = xs ++ .mark k :: ys → (∀ i ∈ Line.instructions lines, k ∉ i.targets) →
      Line.RunsLike R (xs ++ ys) p) ∧
    ∀ xs k ys, lines = xs ++ ys → k ∉ Line.marks lines →
      Line.RunsLike R (xs ++ .mark k :: ys) p := by
  obtain ⟨nodup, ahead, -⟩ := link_eq_ok_iff.1 (link_of_load loaded)
  have same {other : List Line} {q : Executable} (hq : load other = .ok q)
      (heq : canonical lines = canonical other) (limits : Limits) (ctx : Context R) :
      q.execute limits ctx = p.execute limits ctx :=
    Executable.execute_eq (resolves_of_load hq) (resolves_of_load loaded)
      (linked_eq_of_canonical_eq hq loaded heq.symm) limits ctx
  have runs {f : Nat → Nat} {other : List Line} (h : Line.Renumbers f lines other)
      (hnodup : (Line.marks other).Nodup) : Line.RunsLike R other p := by
    obtain ⟨q, hq, -⟩ := h.exists_load hnodup loaded
    exact ⟨q, hq, same hq h.canonical_eq.symm⟩
  have united {f : Nat → Nat} (alike : ∀ k ∈ Line.marks lines, ∀ l ∈ Line.marks lines, f k = f l →
      positionOf k 0 lines = positionOf l 0 lines) :
      Line.RunsLike R (Line.uniteMarks f [] lines) p :=
    runs (Line.renumbers_uniteMarks nodup ahead alike) (Line.nodup_marks_uniteMarks []).1
  refine ⟨fun other q hq heq ↦ same hq heq, ?bits, fun f other h hnodup ↦ runs h hnodup, ?renamed,
    fun f alike ↦ united alike, ?removed, ?added⟩
  case bits =>
    intro other q hq hsame hbits
    exact same hq (canonical_eq_of_sameInstructions hsame hbits)
  case renamed =>
    intro f inj
    rw [← Line.uniteMarks_eq_map [] nodup inj fun _ _ ↦ List.not_mem_nil]
    exact united fun k hk l hl heq ↦ by rw [inj hk hl heq]
  case removed =>
    rintro xs k ys rfl unused
    rw [Line.instructions_append, Line.instructions_mark, ← Line.instructions_append] at unused
    rw [Line.marks_append, Line.marks, List.nodup_middle, ← Line.marks_append] at nodup
    exact runs (Line.renumbers_insert_mark unused).2 nodup.of_cons
  case added =>
    rintro xs k ys rfl hk
    have unused : ∀ i ∈ Line.instructions (xs ++ ys), k ∉ i.targets :=
      fun i hi h ↦ hk (ahead.mem_marks i hi k h)
    refine runs (Line.renumbers_insert_mark unused).1 ?_
    rw [Line.marks_append, Line.marks, List.nodup_middle, ← Line.marks_append]
    exact List.nodup_cons.2 ⟨hk, nodup⟩

/-- Two jumps to the same place, each with a mark of its own, and a mark that nothing jumps to. -/
def twoJumps : List Line :=
  [.op (.pushColor (.splat ⟨0x3f800000⟩)), .op (.opaqueJump 4), .op .normalize,
    .op (.opaqueJump 5), .op .premultiply, .mark 4, .mark 9, .mark 5, .op .exit]

theorem runs_alike_twoJumps :
    let united : List Line :=
      [.op (.pushColor (.splat ⟨0x3f800000⟩)), .op (.opaqueJump 2), .op .normalize,
        .op (.opaqueJump 2), .op .premultiply, .mark 2, .mark 4, .op .exit]
    let apart : Executable :=
      ⟨#[.pushColor (.splat ⟨0x3f800000⟩), .opaqueJump 4, .normalize, .opaqueJump 5, .premultiply,
        .exit], [(5, 5), (9, 5), (4, 5)]⟩
    let together : Executable :=
      ⟨#[.pushColor (.splat ⟨0x3f800000⟩), .opaqueJump 2, .normalize, .opaqueJump 2, .premultiply,
        .exit], [(4, 5), (2, 5)]⟩
    load twoJumps = .ok apart ∧ load united = .ok together ∧
      Line.uniteMarks (· / 2) [] twoJumps = united ∧ Line.RunsLike Float united apart ∧
      canonical twoJumps = canonical united ∧ ∀ (limits : Limits) (ctx : Context Float),
        together.execute limits ctx = apart.execute limits ctx := by
  intro united apart together
  have loaded : load twoJumps = .ok apart := rfl
  have reloaded : load united = .ok together := rfl
  have same : canonical twoJumps = canonical united := rfl
  have heq : Line.uniteMarks (· / 2) [] twoJumps = united := rfl
  obtain ⟨hsame, -, -, -, hunited, -⟩ := runs_alike Float loaded
  exact ⟨loaded, reloaded, heq, heq ▸ hunited (· / 2) (by decide), same,
    hsame united together reloaded same⟩

end Shading
