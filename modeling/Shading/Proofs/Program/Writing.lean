import Mathlib.Data.List.Perm.Subperm
import Shading.Proofs.Code.Addresses
import Shading.Proofs.Code.Linking
import Shading.Proofs.Correctness
import Shading.Proofs.Program.Parts

/-!
# Programs that are written

What is known of a program once it has been written without failing: it can be written at all, so no
side of a path is left to choose and its constants are finite, and the lines that were written hold
no exit, complete tables of stops, a mark for each location that was taken, and no more than 23
words for each instruction.

All of this is read off the writers (`Emit.Adds`). Only the instruction of a gradient is longer, by
two words for every stop; but each stop has a block, which ends in a return, so the room that the
returns leave makes up for it. The room is an integer, since a part of a program may exceed its own;
so is the number of marks, since locations are taken by one part of a program and marked by others.
-/

namespace Shading

variable {ι R : Type}

/-- An instruction as programs are written with: its stops are complete, and if it lights a surface,
the number of lights is one of those given. -/
structure Instruction.Regular (lights : Nat → Prop) (i : Instruction Nat) : Prop where
  notExit : i ≠ .exit
  complete : ∀ table, i.table? = some table → table.Complete
  lit : ∀ shininess n, i = .phong shininess n → lights n

/-- Nothing has to be known of the instruction for it to be regular. -/
def Instruction.isPlain : Instruction Nat → Bool
  | .exit | .phong .. | .linearGradientRatio .. | .radialGradientRatio .. => false
  | _ => true

/-- A plain instruction is regular. -/
theorem Instruction.regular_of_isPlain {lights : Nat → Prop} {i : Instruction Nat}
    (h : i.isPlain = true) : i.Regular lights := by
  cases i <;> constructor <;> simp_all [isPlain, table?]

namespace Emit

/-- If the writer succeeds, then something holds, and it has appended lines of regular instructions,
which leave some words to spare when there are 23 for each of them. It has marked some more
locations than it has taken. -/
def Adds (lights : Nat → Prop) (holds : Prop) (spare marked : Int) (w : Emit R Unit) : Prop :=
  ∀ d d' : Draft, w d = (.ok (), d') → holds ∧ ∃ added : List Line,
    d'.lines.toList = d.lines.toList ++ added ∧
      (∀ i ∈ Line.instructions added, i.Regular lights) ∧
      (Line.extent added : Int) + spare ≤ 23 * Line.count added ∧
      d'.next + marked = d.next + (Line.marks added).length

namespace Adds

variable {lights lights' : Nat → Prop} {p q : Prop} {s t m n : Int} {w w' : Emit R Unit}

theorem mono (h : Adds lights p s m w) (hpq : p → q) (le : t ≤ s) (eq : n = m) :
    Adds lights q t n w := by
  intro d d' hw
  obtain ⟨hp, added, hlines, hregular, hspare, hmarked⟩ := h d d' hw
  exact ⟨hpq hp, added, hlines, hregular, by omega, by omega⟩

theorem mono_lights (h : Adds lights p s m w) (sub : ∀ n, lights n → lights' n) :
    Adds lights' p s m w := by
  intro d d' hw
  obtain ⟨hp, added, hlines, hregular, hrest⟩ := h d d' hw
  refine ⟨hp, added, hlines, fun i hi ↦ ?_, hrest⟩
  obtain ⟨hexit, hcomplete, hlit⟩ := hregular i hi
  exact ⟨hexit, hcomplete, fun shininess n heq ↦ sub n (hlit shininess n heq)⟩

theorem nil : Adds lights True 0 0 (pure () : Emit R Unit) := by
  rintro d d' ⟨⟩
  exact ⟨trivial, [], (List.append_nil _).symm, List.forall_mem_nil _, by simp,
    by simp [Line.marks]⟩

/-- What always fails adds nothing. -/
theorem fail (cause : LoweringError R) : Adds lights False 0 0 (Emit.fail cause) := by
  rintro d d' ⟨⟩

theorem mark (l : Nat) : Adds lights True 0 1 (Emit.mark l : Emit R Unit) := by
  rintro d d' ⟨⟩
  exact ⟨trivial, [.mark l], Array.toList_push, List.forall_mem_nil _, by simp,
    by simp [Line.marks]⟩

/-- A regular instruction leaves to spare what it takes less than 23 words. -/
theorem op {i : Instruction Nat} (h : i.Regular lights) :
    Adds lights True (23 - i.length) 0 (Emit.op i : Emit R Unit) := by
  rintro d d' ⟨⟩
  refine ⟨trivial, [.op i], Array.toList_push, List.forall_mem_singleton.2 h, ?_,
    by simp [Line.marks]⟩
  simp only [Line.extent_op, Line.extent_nil, Line.count_op, Line.count_nil]
  omega

theorem plain {i : Instruction Nat} (h : i.isPlain = true) :
    Adds lights True (23 - i.length) 0 (Emit.op i : Emit R Unit) :=
  op (Instruction.regular_of_isPlain h)

/-- What two writers add comes together, and so do the words that they leave to spare. -/
theorem bind (h : Adds lights p s m w) (h' : Adds lights q t n w') :
    Adds lights (p ∧ q) (s + t) (m + n) (do w; w') := by
  intro d d' hw
  obtain ⟨⟨⟩, u, hu, hw⟩ := bind_apply_eq_ok_iff.1 hw
  obtain ⟨hp, added, hlines, hregular, hspare, hmarked⟩ := h d u hu
  obtain ⟨hq, added', hlines', hregular', hspare', hmarked'⟩ := h' u d' hw
  refine ⟨⟨hp, hq⟩, added ++ added', ?_, ?_, ?_, ?_⟩
  · rw [hlines', hlines, List.append_assoc]
  · rw [Line.instructions_append, List.forall_mem_append]
    exact ⟨hregular, hregular'⟩
  · rw [Line.extent_append, Line.count_append]
    omega
  · rw [Line.marks_append, List.length_append]
    omega

/-- A location is accounted for by one mark. -/
theorem newLocation {k : Nat → Emit R Unit} (h : ∀ l, Adds lights p s m (k l)) :
    Adds lights p s (m - 1) (do k (← Emit.newLocation)) := by
  intro d d' hw
  obtain ⟨l, u, hu, hw⟩ := bind_apply_eq_ok_iff.1 hw
  cases hu
  obtain ⟨hp, added, hlines, hregular, hspare, hmarked⟩ := h _ _ d' hw
  exact ⟨hp, added, hlines, hregular, hspare, by dsimp only at hmarked; omega⟩

/-- Locations are accounted for by as many marks. -/
theorem newLocations {ws : List (Emit R Unit)} {k : List Nat → Emit R Unit}
    (h : ∀ ls : List Nat, ls.length = ws.length → Adds lights p s m (k ls)) :
    Adds lights p s (m - ws.length) (do k (← Emit.newLocations ws)) := by
  intro d d' hw
  rw [bind_apply_of_ok (newLocations_apply ws d.lines d.next)] at hw
  obtain ⟨hp, added, hlines, hregular, hspare, hmarked⟩ := h _ List.length_range' _ d' hw
  exact ⟨hp, added, hlines, hregular, hspare, by dsimp only at hmarked; omega⟩

/-! ### Several writers -/

variable {α : Type} {f : α → Emit R Unit} {good : α → Prop} {cs : List α}

/-- Writers in sequence add what each of them adds. -/
theorem sequence (each : ∀ c ∈ cs, Adds lights (good c) 0 0 (f c)) :
    Adds lights (∀ c ∈ cs, good c) 0 0 (Emit.sequence (cs.map f)) := by
  induction cs with
  | nil => exact nil.mono (fun _ ↦ List.forall_mem_nil _) (Int.le_refl 0) rfl
  | cons c cs ih =>
    rw [List.forall_mem_cons] at each
    exact (each.1.bind (ih each.2)).mono List.forall_mem_cons.2 (by omega) (by omega)

/-- The returns of blocks leave room. -/
theorem blocks {labels : List Nat} (length : labels.length = cs.length)
    (each : ∀ c ∈ cs, Adds lights (good c) 0 0 (f c)) :
    Adds lights (∀ c ∈ cs, good c) (22 * cs.length) cs.length
      (Emit.blocks (labels.zip (cs.map f))) := by
  induction cs generalizing labels with
  | nil =>
    rw [List.map_nil, List.zip_nil_right]
    exact nil.mono (fun _ ↦ List.forall_mem_nil _) (by simp) rfl
  | cons c cs ih =>
    obtain ⟨l, labels, rfl⟩ := List.exists_cons_of_length_eq_add_one length
    rw [List.forall_mem_cons] at each
    have hrest := ih (Nat.succ.inj length) each.2
    refine ((mark l).bind (each.1.bind ((plain (i := .ret) rfl).bind hrest))).mono
      (fun h ↦ List.forall_mem_cons.2 ⟨h.2.1, h.2.2.2⟩) ?_ ?_
    · simp only [Instruction.length, List.length_cons]
      omega
    · rw [List.length_cons]
      omega

/-- A mix adds two marks. -/
theorem mixAndEnd (blend done : Nat) :
    Adds lights True 22 2 (Emit.mixAndEnd blend done : Emit R Unit) :=
  ((mark blend).bind ((plain (i := .mix) rfl).bind (mark done))).mono
    (fun _ ↦ trivial) (by decide) rfl

/-- A blend marks the four locations that it takes. -/
theorem blend {instruction : Branches Nat → Instruction Nat} {a b : α}
    (each : ∀ c ∈ [a, b], Adds lights (good c) 0 0 (f c))
    (regular : ∀ places, (instruction places).Regular lights)
    (length : ∀ places, (instruction places).length ≤ 23) :
    Adds lights (∀ c ∈ [a, b], good c) 0 0 (Emit.blend instruction (f a) (f b)) := by
  have hblocks (l l' : Nat) : Adds lights (∀ c ∈ [a, b], good c) 44 2
      (Emit.blocks ([l, l'].zip ([a, b].map f))) := blocks rfl each
  have hbody (l l' blend done : Nat) := (op (regular ⟨l, l', blend, done⟩)).bind
    ((hblocks l l').bind (mixAndEnd blend done))
  refine mono (newLocation fun l ↦ newLocation fun l' ↦ newLocation fun blend ↦
    newLocation fun done ↦ (hbody l l' blend done).mono (fun h ↦ h.2.1) ?_ rfl) id
      (Int.le_refl 0) rfl
  have hlength := length ⟨l, l', blend, done⟩
  omega

/-- A gradient marks the locations that it takes. -/
theorem gradient {instruction : StopTable Nat → Instruction Nat} {ratios : List Single}
    (each : ∀ c ∈ cs, Adds lights (good c) 0 0 (f c)) (count : cs.length = ratios.length)
    (stops : 1 ≤ ratios.length ∧ ratios.length ≤ 65535)
    (regular : ∀ table : StopTable Nat, table.Complete → (instruction table).Regular lights)
    (length : ∀ table, (instruction table).length ≤ 15 + 2 * table.ratios.length) :
    Adds lights (∀ c ∈ cs, good c) 0 0 (Emit.gradient instruction ratios (cs.map f)) := by
  have hbody (places : List Nat) (hplaces : places.length = (cs.map f).length) (blend done : Nat) :
      Adds lights (∀ c ∈ cs, good c) 0 (cs.length + 2)
        (do Emit.op (instruction ⟨ratios, places, blend, done⟩)
            Emit.blocks (places.zip (cs.map f))
            Emit.mixAndEnd blend done) := by
    rw [List.length_map] at hplaces
    have hcomplete : (StopTable.mk ratios places blend done).Complete :=
      ⟨stops.1, stops.2, hplaces.trans count⟩
    have hlength := length ⟨ratios, places, blend, done⟩
    dsimp only at hlength
    exact ((op (regular _ hcomplete)).bind ((blocks hplaces each).bind (mixAndEnd blend done))).mono
      (fun h ↦ h.2.1) (by omega) (by omega)
  refine mono (newLocations fun places hplaces ↦ newLocation fun blend ↦ newLocation fun done ↦
    hbody places hplaces blend done) id (Int.le_refl 0) ?_
  rw [List.length_map]
  omega

/-- Layers add what each of them adds. -/
theorem layersBelow (done : Nat) (each : ∀ c ∈ cs, Adds lights (good c) 0 0 (f c)) :
    Adds lights (∀ c ∈ cs, good c) 0 0 (Emit.layersBelow done (cs.map f)) := by
  induction cs with
  | nil => exact nil.mono (fun _ ↦ List.forall_mem_nil _) (Int.le_refl 0) rfl
  | cons c cs ih =>
    rw [List.forall_mem_cons] at each
    refine ((plain (i := .opaqueJump done) rfl).bind (each.1.bind
      ((plain (i := .stackBlend) rfl).bind (ih each.2)))).mono
      (fun h ↦ List.forall_mem_cons.2 ⟨h.2.1, h.2.2.2⟩) ?_ rfl
    simp only [Instruction.length]
    omega

variable [Scalar R] [Rounding R Single]

theorem stack (each : ∀ c ∈ cs, Adds lights (good c) 0 0 (f c)) :
    Adds lights (∀ c ∈ cs, good c) 0 0 (Emit.stack (cs.map f)) := by
  match cs, each with
  | [], _ =>
    exact (plain (i := .pushColor _) rfl).mono (fun _ ↦ List.forall_mem_nil _)
      (by simp only [Instruction.length]; omega) rfl
  | [top], each =>
    exact (each top List.mem_cons_self).mono List.forall_mem_singleton.2 (Int.le_refl 0) rfl
  | top :: next :: below, each =>
    rw [List.forall_mem_cons] at each
    have hbelow (done : Nat) := (layersBelow done each.2).bind (mark done)
    exact (each.1.bind (newLocation hbelow)).mono
      (fun h ↦ List.forall_mem_cons.2 ⟨h.1, h.2.1⟩) (by omega) rfl

end Adds

end Emit

variable [ColorModel R] [Rounding R Single]

open Emit

/-- A node that is written can be, and so are its children. -/
theorem Kind.adds_write {α : Type} {f : α → Emit R Unit} {good : α → Prop} {cs : List α}
    {k : Kind R} {lights : Nat → Prop} (accepts : k.Accepts cs.length)
    (lit : ∀ shininess, k = .phong shininess → lights ((cs.length - 5) / 2))
    (each : ∀ c ∈ cs, Adds lights (good c) 0 0 (f c)) :
    Adds lights (k.Writable ∧ ∀ c ∈ cs, good c) 0 0 (k.write (cs.map f)) := by
  have hunary {c : α} (hc : Adds lights (good c) 0 0 (f c)) {i : Instruction Nat}
      (regular : i.Regular lights) (length : i.length ≤ 23) :
      Adds lights (True ∧ ∀ d ∈ [c], good d) 0 0 (Kind.write.unary (f c) i) :=
    (hc.bind (Adds.op regular)).mono (fun h ↦ ⟨trivial, List.forall_mem_singleton.2 h.1⟩)
      (by omega) rfl
  have hsequence {i : Instruction Nat} (regular : i.Regular lights) (length : i.length ≤ 23) :
      Adds lights (True ∧ ∀ c ∈ cs, good c) 0 0 (do Emit.sequence (cs.map f); Emit.op i) :=
    ((Adds.sequence each).bind (Adds.op regular)).mono (fun h ↦ ⟨trivial, h.1⟩) (by omega) rfl
  have hone : cs.length = 1 → ∃ c, cs = [c] ∧ Adds lights (good c) 0 0 (f c) := by
    intro hlength
    obtain ⟨c, rfl⟩ := List.length_eq_one_iff.1 hlength
    exact ⟨c, rfl, each c List.mem_cons_self⟩
  cases k with
  | color value =>
    obtain rfl := List.eq_nil_of_length_eq_zero accepts
    show Adds _ _ 0 0 (if value.isFinite then Emit.op _ else Emit.fail _)
    split
    next hfinite =>
      exact (Adds.plain (i := .pushColor _) rfl).mono
        (fun _ ↦ ⟨hfinite, List.forall_mem_nil _⟩) (by simp only [Instruction.length]; omega) rfl
    · exact (Adds.fail _).mono False.elim (Int.le_refl 0) rfl
  | premultiply | unpremultiply | convert | alpha | normalize | filter =>
    obtain ⟨c, rfl, hc⟩ := hone accepts
    exact hunary hc (Instruction.regular_of_isPlain rfl) (by simp [Instruction.length])
  | phong shininess =>
    refine hsequence ⟨by simp, by simp [Instruction.table?], fun _ n heq ↦ ?_⟩
      (by simp [Instruction.length])
    obtain ⟨-, rfl⟩ := Instruction.phong.inj heq
    rw [List.length_map]
    exact lit shininess rfl
  | blendCompose compose blend =>
    obtain ⟨a, b, rfl⟩ := List.length_eq_two.1 accepts
    exact hsequence (Instruction.regular_of_isPlain rfl) (by simp [Instruction.length])
  | barycentricBlend corners depths accuracy =>
    exact hsequence (Instruction.regular_of_isPlain rfl)
      (by rw [Instruction.length]; split <;> omega)
  | stack =>
    rw [write, ← List.map_reverse]
    exact (Adds.stack fun c hc ↦ each c (List.mem_reverse.1 hc)).mono
      (fun h ↦ ⟨trivial, fun c hc ↦ h c (List.mem_reverse.2 hc)⟩) (Int.le_refl 0) rfl
  | linearBlend | radialBlend =>
    obtain ⟨a, b, rfl⟩ := List.length_eq_two.1 accepts
    show Adds _ _ 0 0 (Emit.blend _ (f a) (f b))
    refine Adds.mono (Adds.blend each (fun _ ↦ Instruction.regular_of_isPlain rfl) fun _ ↦ ?_)
      (fun h ↦ ⟨trivial, h⟩) (Int.le_refl 0) rfl
    simp [Instruction.length]
  | linearGradient | radialGradient =>
    obtain ⟨hlength, hstops⟩ := accepts
    have hcount := hlength.trans (List.length_map (narrow : R → Single)).symm
    show Adds _ _ 0 0 (Emit.gradient _ _ (cs.map f))
    refine Adds.mono (Adds.gradient each hcount (hcount ▸ hstops) (fun table complete ↦ ?_)
      fun _ ↦ ?_) (fun h ↦ ⟨trivial, h⟩) (Int.le_refl 0) rfl
    · exact ⟨by simp, fun _ heq ↦ Option.some.inj heq ▸ complete, by simp⟩
    · simp [Instruction.length]
  | pathBoolean path => exact (Adds.fail _).mono False.elim (Int.le_refl 0) rfl

namespace Program

/-- Some surface in the program has this many lights. -/
def Lights (p : Program ι R) (n : Nat) : Prop :=
  ∃ (q : Program ι R) (shininess : R),
    q.Part p ∧ q.kind = .phong shininess ∧ n = (q.children.length - 5) / 2

/-- A program that is written can be. -/
theorem adds_write {p : Program ι R} (formed : p.Formed) :
    Adds p.Lights (p.Everywhere Kind.Writable) 0 0 p.write := by
  induction formed with
  | @node n k cs accepts _ ih =>
    rw [write_node]
    have hown : ∀ shininess, k = .phong shininess → (node n k cs).Lights ((cs.length - 5) / 2) :=
      fun shininess heq ↦ ⟨_, shininess, .refl _, heq, rfl⟩
    have heach : ∀ c ∈ cs, Adds (node n k cs).Lights (c.Everywhere Kind.Writable) 0 0 c.write :=
      fun c hc ↦ (ih c hc).mono_lights fun _ ⟨q, shininess, part, h⟩ ↦
        ⟨q, shininess, .child hc part, h⟩
    exact (Kind.adds_write accepts hown heach).mono (fun h ↦ .node h.1 h.2) (Int.le_refl 0) rfl

/-- What is known of a program, and of its instructions, once it is written. -/
structure Written (p : Program ι R) (lines : List Line) : Prop where
  /-- The lines are a block that delivers the color of the program, and the exit. -/
  lowered : ∃ block hi, p.Lowered 0 block hi ∧ lines = block ++ [.op .exit] ∧
    .exit ∉ Line.instructions block
  /-- Words are bounded by instructions. -/
  extent_le : Line.extent lines ≤ 23 * Line.count lines
  writable : p.Everywhere Kind.Writable
  regular : ∀ i ∈ Line.instructions lines, i ≠ .exit → i.Regular p.Lights
  /-- All locations that were taken are marked. -/
  marks : ∃ n, (Line.marks lines).Perm (List.range n)

/-- What is written of a formed program is complete. -/
theorem written_of_instructions {p : Program ι R} {lines : List Line} (formed : p.Formed)
    (h : p.instructions = .ok lines) : p.Written lines := by
  rw [instructions] at h
  split at h
  next draft hwritten =>
    obtain ⟨⟨⟩, d, hp, hexit⟩ := bind_apply_eq_ok_iff.1 hwritten
    cases hexit
    obtain ⟨writable, added, hadded, hregular, hspare, hmarked⟩ := adds_write formed {} d hp
    obtain ⟨block, hi, hlowered⟩ := exists_lowered_of_writable formed writable 0
    -- What was written is the block that the program is lowered to.
    have hd := hlowered.writes #[]
    rw [show (⟨#[], 0⟩ : Draft) = {} from rfl, hp] at hd
    cases hd
    obtain rfl : block = added := by simpa using hadded
    obtain rfl : lines = block ++ [.op .exit] := by simpa using (Except.ok.inj h).symm
    refine ⟨⟨block, _, hlowered, rfl, fun hmem ↦ (hregular _ hmem).notExit rfl⟩, ?_, writable,
      fun i hi hne ↦ ?_, ⟨hi, ?_⟩⟩
    · simp only [Line.extent_append, Line.extent_op, Line.extent_nil, Line.count_append,
        Line.count_op, Line.count_nil, Instruction.length]
      omega
    · rw [Line.instructions_append, List.mem_append] at hi
      exact hi.elim (hregular i) fun hi ↦ absurd (List.mem_singleton.1 hi) hne
    · rw [Line.marks_append, Line.marks, Line.marks, List.append_nil]
      refine (List.subperm_of_subset hlowered.marked.nodup fun l hl ↦ ?_).perm_of_length_le ?_
      · exact List.mem_range.2 (hlowered.marked.bounds l hl).2
      · rw [List.length_range]
        dsimp only at hmarked
        omega
  · cases h

end Program

end Shading
