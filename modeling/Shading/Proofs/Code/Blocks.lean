import Mathlib.Data.List.Nodup
import Shading.Code.Writer
import Shading.Proofs.Code.Placement
import Shading.Proofs.Machine.Runs

/-!
# Blocks of written instructions

What the writer puts down for a program is a block: it does not depend on the lines in front of it,
only on the next unused location (`Emit.Writes`), and it marks distinct locations that were unused
before, with all of its jumps leading to marks of its own (`Marked`). Both facts pass from blocks to
the shapes that are made of them: blocks in sequence, the layers of a stack (`layers`), and a
dispatching instruction with the blocks it calls (`dispatch`).

A dispatch takes its locations before its blocks take theirs, so its own marks have the least
numbers. `marks_calls` keeps the two groups apart.
-/

namespace Shading

/-- A list of blocks, related to a list of things one by one, each with the interval of locations
that it takes. -/
inductive Chain {α : Type} (P : α → Nat → List Line → Nat → Prop) :
    List α → Nat → List (List Line) → Nat → Prop
  | nil (lo : Nat) : Chain P [] lo [] lo
  | cons {a : α} {as : List α} {lo mid hi : Nat} {b : List Line} {bs : List (List Line)} :
    P a lo b mid → Chain P as mid bs hi → Chain P (a :: as) lo (b :: bs) hi

namespace Chain

variable {α β : Type} {P : α → Nat → List Line → Nat → Prop} {as : List α} {lo hi : Nat}
  {bs : List (List Line)}

/-- There is one block for each thing. -/
theorem length_eq (h : Chain P as lo bs hi) : bs.length = as.length := by
  induction h with
  | nil => rfl
  | cons _ _ ih => rw [List.length_cons, List.length_cons, ih]

/-- Blocks stay in a chain when what they are related to is mapped. -/
theorem map {Q : β → Nat → List Line → Nat → Prop} (f : α → β) (h : Chain P as lo bs hi)
    (hPQ : ∀ a lo b hi, P a lo b hi → Q (f a) lo b hi) : Chain Q (as.map f) lo bs hi := by
  induction h with
  | nil => exact .nil _
  | cons hb _ ih => exact .cons (hPQ _ _ _ _ hb) ih

/-- Blocks that can be had from any location on can be put in a chain. -/
theorem exists_of_forall (h : ∀ a ∈ as, ∀ lo, ∃ b hi, P a lo b hi) (lo : Nat) :
    ∃ bs hi, Chain P as lo bs hi := by
  induction as generalizing lo with
  | nil => exact ⟨[], lo, .nil lo⟩
  | cons a as ih =>
    obtain ⟨b, mid, hb⟩ := h a List.mem_cons_self lo
    obtain ⟨bs, hi, hbs⟩ := ih (fun c hc ↦ h c (List.mem_cons_of_mem _ hc)) mid
    exact ⟨b :: bs, hi, .cons hb hbs⟩

end Chain

/-! ### Shapes -/

/-- The blocks one after the other, each behind its mark and in front of a return. -/
def calls : List Nat → List (List Line) → List Line
  | l :: labels, b :: bs => .mark l :: (b ++ .op .ret :: calls labels bs)
  | _, _ => []

/-- An instruction that calls blocks, the blocks, and the two places behind them. -/
def dispatch (i : Instruction Nat) (lo : Nat) (bs : List (List Line)) : List Line :=
  .op i :: (calls (List.range' lo bs.length) bs ++
    [.mark (lo + bs.length), .op .mix, .mark (lo + bs.length + 1)])

/-- Layers below a value, each with the jump that skips it and all further ones. -/
def layers (done : Nat) : List (List Line) → List Line
  | [] => []
  | b :: bs => .op (.opaqueJump done) :: (b ++ .op .stackBlend :: layers done bs)

/-! ### What is written -/

namespace Emit

variable {R : Type} {w w' : Emit R Unit} {ws : List (Emit R Unit)} {lo mid hi : Nat}
  {xs ys : List Line} {bs : List (List Line)}

/-- From the unused location `lo` on, the writer appends the lines and leaves `hi` as the next
unused location, whatever lines stand in front. -/
def Writes (w : Emit R Unit) (lo : Nat) (block : List Line) (hi : Nat) : Prop :=
  ∀ lines : Array Line, w ⟨lines, lo⟩ = (.ok (), ⟨lines ++ block.toArray, hi⟩)

theorem Writes.nil (lo : Nat) : Writes (pure () : Emit R Unit) lo [] lo := by
  intro lines
  rw [show lines ++ [].toArray = lines from Array.append_empty]
  rfl

/-- What is written by two writers in turn comes one behind the other. -/
theorem Writes.bind (h : Writes w lo xs mid) (h' : Writes w' mid ys hi) :
    Writes (do w; w') lo (xs ++ ys) hi := by
  intro lines
  have happend : lines ++ xs.toArray ++ ys.toArray = lines ++ (xs ++ ys).toArray := by simp
  rw [bind_apply_of_ok (h lines), h', happend]

theorem writes_line (l : Line) (lo : Nat) : Writes (line l : Emit R Unit) lo [l] lo := by
  intro lines
  rw [show lines ++ [l].toArray = lines.push l from Array.push_eq_append.symm]
  rfl

/-- A writer that begins by taking a location. -/
theorem writes_newLocation {k : Nat → Emit R Unit} (h : Writes (k lo) (lo + 1) xs hi) :
    Writes (do k (← newLocation)) lo xs hi := by
  intro lines
  rw [bind_apply_of_ok (x := newLocation) (a := lo) (t := ⟨lines, lo + 1⟩) rfl, h]

/-- Locations are handed out in order, one for each block. -/
theorem newLocations_apply (ws : List (Emit R Unit)) (lines : Array Line) (lo : Nat) :
    newLocations ws ⟨lines, lo⟩ =
      (.ok (List.range' lo ws.length), ⟨lines, lo + ws.length⟩) := by
  induction ws generalizing lo with
  | nil => rfl
  | cons w ws ih =>
    rw [newLocations, bind_apply_of_ok (x := newLocation) (a := lo) (t := ⟨lines, lo + 1⟩) rfl,
      bind_apply_of_ok (ih (lo + 1)), List.length_cons, List.range'_succ,
      show lo + (ws.length + 1) = lo + 1 + ws.length by omega]
    rfl

/-- Blocks are written behind the locations that are taken for them. -/
theorem writes_newLocations {k : List Nat → Emit R Unit}
    (h : Writes (k (List.range' lo ws.length)) (lo + ws.length) xs hi) :
    Writes (do k (← newLocations ws)) lo xs hi := by
  intro lines
  rw [bind_apply_of_ok (newLocations_apply ws lines lo), h]

/-- Writers in sequence write their blocks one behind the other. -/
theorem writes_sequence (h : Chain Writes ws lo bs hi) : Writes (sequence ws) lo bs.flatten hi := by
  induction h with
  | nil => exact .nil _
  | cons hb _ ih => exact hb.bind ih

/-- Called blocks are written with a mark in front of each and a return behind. -/
theorem writes_blocks (h : Chain Writes ws lo bs hi) (start : Nat) :
    Writes (blocks ((List.range' start ws.length).zip ws)) lo
      (calls (List.range' start bs.length) bs) hi := by
  induction h generalizing start with
  | nil => exact .nil _
  | cons hb _ ih =>
    rw [List.length_cons, List.length_cons, List.range'_succ, List.range'_succ, calls]
    exact (writes_line _ _).bind (hb.bind ((writes_line _ _).bind (ih (start + 1))))

/-- A mix stands between two marks. -/
theorem writes_mixAndEnd (blend done lo : Nat) :
    Writes (mixAndEnd blend done : Emit R Unit) lo [.mark blend, .op .mix, .mark done] lo :=
  (writes_line _ _).bind ((writes_line _ _).bind (writes_line _ _))

/-- A blend takes four locations and writes a dispatch over two blocks. -/
theorem writes_blend {instruction : Branches Nat → Instruction Nat}
    (h : Chain Writes [w, w'] (lo + 4) bs hi) :
    Writes (blend instruction w w') lo
      (dispatch (instruction ⟨lo, lo + 1, lo + 2, lo + 3⟩) lo bs) hi := by
  have hlen : bs.length = 2 := h.length_eq
  have hblocks := writes_blocks h lo
  refine writes_newLocation (writes_newLocation (writes_newLocation (writes_newLocation ?_)))
  refine (writes_line _ _).bind (hblocks.bind ?_)
  rw [hlen]
  exact writes_mixAndEnd _ _ _

/-- A gradient takes two locations more than it has stops, and writes a dispatch over all blocks. -/
theorem writes_gradient {instruction : StopTable Nat → Instruction Nat} {ratios : List Single}
    (h : Chain Writes ws (lo + ws.length + 2) bs hi) :
    Writes (gradient instruction ratios ws) lo
      (dispatch (instruction ⟨ratios, List.range' lo bs.length, lo + bs.length,
        lo + bs.length + 1⟩) lo bs) hi := by
  have hlen := h.length_eq
  refine writes_newLocations (writes_newLocation (writes_newLocation ?_))
  rw [dispatch, hlen]
  refine (writes_line _ _).bind ((hlen ▸ writes_blocks h lo).bind ?_)
  exact writes_mixAndEnd _ _ _

/-- Layers are written one over the other, each behind a jump that is taken if all above is opaque.
-/
theorem writes_layersBelow (h : Chain Writes ws lo bs hi) (done : Nat) :
    Writes (layersBelow done ws) lo (layers done bs) hi := by
  induction h with
  | nil => exact .nil _
  | cons hb _ ih =>
    exact (writes_line _ _).bind (hb.bind ((writes_line _ _).bind ih))

end Emit

/-! ### What is marked -/

/-- The block marks distinct locations from the interval, and its jumps lead to marks of its own
that are ahead of them. -/
structure Marked (lo : Nat) (block : List Line) (hi : Nat) : Prop where
  le : lo ≤ hi
  nodup : (Line.marks block).Nodup
  bounds : ∀ l ∈ Line.marks block, lo ≤ l ∧ l < hi
  ahead : Line.Ahead block

namespace Marked

variable {α : Type} {lo mid hi : Nat} {xs ys : List Line} {as : List α} {bs : List (List Line)}

theorem nil (lo : Nat) : Marked lo [] lo :=
  ⟨Nat.le_refl lo, List.nodup_nil, fun _ h ↦ absurd h List.not_mem_nil, trivial⟩

theorem op {i : Instruction Nat} (h : i.targets = []) (lo : Nat) : Marked lo [.op i] lo :=
  ⟨Nat.le_refl lo, List.nodup_nil, fun _ h ↦ absurd h List.not_mem_nil,
    fun _ ht ↦ absurd (h ▸ ht) List.not_mem_nil, trivial⟩

/-- Blocks that are put together mark what either of them marks. -/
theorem append (hx : Marked lo xs mid) (hy : Marked mid ys hi) : Marked lo (xs ++ ys) hi := by
  refine ⟨Nat.le_trans hx.le hy.le, ?_, fun l hl ↦ ?_, hx.ahead.append hy.ahead⟩
  · rw [Line.marks_append]
    refine hx.nodup.append hy.nodup fun l hl hl' ↦ ?_
    have := (hx.bounds l hl).2
    have := (hy.bounds l hl').1
    omega
  · have := hx.le
    have := hy.le
    rcases List.mem_append.1 (Line.marks_append xs ys ▸ hl) with h | h
    · have := hx.bounds l h
      omega
    · have := hy.bounds l h
      omega

/-- The blocks of a chain mark distinct locations, in the interval of the chain. -/
theorem flatten (h : Chain (fun _ : α ↦ Marked) as lo bs hi) : Marked lo bs.flatten hi := by
  induction h with
  | nil => exact .nil _
  | cons hb _ ih => exact hb.append ih

/-- Along a chain, locations go up. -/
theorem chain_le (h : Chain (fun _ : α ↦ Marked) as lo bs hi) : lo ≤ hi :=
  (flatten h).le

/-- The marks in front of the blocks are distinct, precede those of the blocks themselves, and the
blocks keep their jumps to themselves. -/
theorem marks_calls (h : Chain (fun _ : α ↦ Marked) as mid bs hi) (start : Nat)
    (hstart : start + bs.length ≤ mid) :
    (Line.marks (calls (List.range' start bs.length) bs)).Nodup ∧
      (∀ l ∈ Line.marks (calls (List.range' start bs.length) bs),
        (start ≤ l ∧ l < start + bs.length) ∨ (mid ≤ l ∧ l < hi)) ∧
      (∀ l ∈ List.range' start bs.length,
        l ∈ Line.marks (calls (List.range' start bs.length) bs)) ∧
      Line.Ahead (calls (List.range' start bs.length) bs) := by
  induction h generalizing start with
  | nil => exact ⟨List.nodup_nil, List.forall_mem_nil _, List.forall_mem_nil _, trivial⟩
  | @cons a as mid mid' hi b bs hb hbs ih =>
    rw [List.length_cons] at hstart
    have hmid := hb.le
    have hhi := chain_le hbs
    obtain ⟨hnodup, hbounds, hmem, hahead⟩ := ih (start + 1) (by omega)
    have hmarks : Line.marks (calls (List.range' start (b :: bs).length) (b :: bs)) =
        start :: (Line.marks b ++ Line.marks (calls (List.range' (start + 1) bs.length) bs)) := by
      rw [List.length_cons, List.range'_succ, calls, Line.marks, Line.marks_append, Line.marks]
    rw [hmarks]
    -- Marks are told apart by the intervals that they come from.
    refine ⟨List.nodup_cons.2 ⟨fun hl ↦ ?_, hb.nodup.append hnodup fun l hl hl' ↦ ?_⟩,
      fun l hl ↦ ?_, fun l hl ↦ ?_, ?_⟩
    · rcases List.mem_append.1 hl with hl | hl
      · have := hb.bounds _ hl
        omega
      · have := hbounds _ hl
        omega
    · have := hb.bounds _ hl
      have := hbounds _ hl'
      omega
    · rw [List.length_cons]
      rcases List.mem_cons.1 hl with rfl | hl
      · omega
      · rcases List.mem_append.1 hl with hl | hl
        · have := hb.bounds _ hl
          omega
        · have := hbounds _ hl
          omega
    · rw [List.length_cons, List.range'_succ] at hl
      rcases List.mem_cons.1 hl with rfl | hl
      · exact List.mem_cons_self
      · exact List.mem_cons_of_mem _ (List.mem_append_right _ (hmem l hl))
    · rw [List.length_cons, List.range'_succ, calls]
      exact hb.ahead.append ⟨List.forall_mem_nil _, hahead⟩

/-- A dispatch marks the locations of its own and those of its blocks. -/
theorem dispatch {i : Instruction Nat}
    (h : Chain (fun _ : α ↦ Marked) as (lo + bs.length + 2) bs hi)
    (targets : i.targets = List.range' lo (bs.length + 2)) :
    Marked lo (Shading.dispatch i lo bs) hi := by
  have hle := chain_le h
  obtain ⟨hnodup, hbounds, hmem, hahead⟩ := marks_calls h lo (by omega)
  have hmarks : Line.marks (Shading.dispatch i lo bs) =
      Line.marks (calls (List.range' lo bs.length) bs) ++
        [lo + bs.length, lo + bs.length + 1] := by
    rw [Shading.dispatch, Line.marks, Line.marks_append]
    rfl
  refine ⟨by omega, ?_, fun l hl ↦ ?_, fun t ht ↦ ?_,
    hahead.append ⟨List.forall_mem_nil _, trivial⟩⟩
  · rw [hmarks]
    refine hnodup.append (by simp) fun l hl hl' ↦ ?_
    have := hbounds l hl
    simp only [List.mem_cons, List.not_mem_nil, or_false] at hl'
    omega
  · rw [hmarks] at hl
    rcases List.mem_append.1 hl with hl | hl
    · have := hbounds l hl
      omega
    · simp only [List.mem_cons, List.not_mem_nil, or_false] at hl
      omega
  · rw [targets, List.mem_range'_1] at ht
    rw [Line.marks_append]
    by_cases hlt : t < lo + bs.length
    · exact List.mem_append_left _ (hmem t (List.mem_range'_1.2 ⟨ht.1, hlt⟩))
    · refine List.mem_append_right _ ?_
      simp only [Line.marks, List.mem_cons, List.not_mem_nil, or_false]
      omega

/-- The jumps of layers lead to the mark behind them. -/
theorem ahead_layers (h : Chain (fun _ : α ↦ Marked) as lo bs hi) (done : Nat) :
    Line.Ahead (Shading.layers done bs ++ [.mark done]) := by
  induction h with
  | nil => exact trivial
  | cons hb _ ih =>
    refine ⟨fun t ht ↦ ?_, ?_⟩
    · rw [List.mem_singleton.1 ht]
      show done ∈ Line.marks (_ ++ [.mark done])
      rw [Line.marks_append]
      exact List.mem_append_right _ List.mem_cons_self
    · show Line.Ahead ((_ ++ _) ++ [.mark done])
      rw [List.append_assoc]
      exact hb.ahead.append ⟨nofun, ih⟩

/-- The layers of a stack with the mark behind them, to which all of their jumps lead. -/
theorem layers (h : Chain (fun _ : α ↦ Marked) as (mid + 1) bs hi) :
    Marked mid (Shading.layers mid bs ++ [.mark mid]) hi := by
  have hle := chain_le h
  have hmarks : ∀ bs, Line.marks (Shading.layers mid bs) = Line.marks bs.flatten := by
    intro bs
    induction bs with
    | nil => rfl
    | cons b bs ih =>
      rw [Shading.layers, Line.marks, Line.marks_append, Line.marks, ih, List.flatten_cons,
        Line.marks_append]
  have hflat := flatten h
  have hmarked : Line.marks (Shading.layers mid bs ++ [.mark mid]) =
      Line.marks bs.flatten ++ [mid] := by
    rw [Line.marks_append, hmarks]
    rfl
  refine ⟨by omega, ?_, fun l hl ↦ ?_, ?_⟩
  · rw [hmarked]
    refine hflat.nodup.append (List.nodup_singleton mid) fun l hl hl' ↦ ?_
    have := hflat.bounds l hl
    have := List.mem_singleton.1 hl'
    omega
  · rw [hmarked] at hl
    rcases List.mem_append.1 hl with hl | hl
    · have := hflat.bounds l hl
      omega
    · have := List.mem_singleton.1 hl
      omega
  · exact ahead_layers h mid

end Marked

end Shading
