import Shading.Proofs.Code.Blocks
import Shading.Proofs.Program.Demand
import Shading.Proofs.Program.Precision

/-!
# What blocks do

A block delivers an answer if, wherever it stands in some code, the machine runs through it,
executes none of its instructions twice, and leaves the value of the answer on top of what the
stacks held before (`Delivers`). How much room it takes on the stacks is given by `Resources`.

The lemmas follow the shapes of blocks: an operation behind one block or behind several, and layers.
Blocks that are called have a module of their own, `Proofs.Machine.Calls`.
-/

namespace Shading

namespace Machine

variable {R : Type}

/-- Above stacks of these heights there is room for what is needed. -/
def Fits (limits : Limits) (need : Resources) (vs : List (Vec4 R)) (rs : List Nat) : Prop :=
  vs.length + need.stackDepth ≤ limits.stackDepth ∧
    rs.length + need.returnDepth ≤ limits.returnDepth

/-- What fits also fits if less is needed. -/
theorem Fits.mono {limits : Limits} {need need' : Resources} {vs : List (Vec4 R)} {rs : List Nat}
    (h : Fits limits need vs rs) (hle : need'.Le need) : Fits limits need' vs rs :=
  ⟨Nat.le_trans (Nat.add_le_add_left hle.1 _) h.1, Nat.le_trans (Nat.add_le_add_left hle.2 _) h.2⟩

/-- Room above values and return addresses that come first. -/
theorem Fits.above {limits : Limits} {need : Resources} {vs vs' : List (Vec4 R)}
    {rs rs' : List Nat} {m n : Nat} (h : Fits limits (need.above m n) vs rs)
    (hvs : vs'.length ≤ vs.length + m) (hrs : rs'.length ≤ rs.length + n) :
    Fits limits need vs' rs' := by
  obtain ⟨hv, hr⟩ := h
  simp only [Resources.above] at hv hr
  exact ⟨by omega, by omega⟩

variable [ColorModel R] [Rounding R Single]

/-- The answers of a program on a machine. -/
abbrev Outlook (R : Type) := Environment R → Except EvaluationError (Vec4 R)

/-- Wherever the block stands in some code, the machine runs through it, executes nothing twice, and
leaves the value of the answer. -/
def Delivers (block : List Line) (need : Resources) (answer : Outlook R) : Prop :=
  ∀ (env : Environment R) ⦃limits : Limits⦄ ⦃code : Array (Instruction Nat)⦄
    ⦃resolve : Nat → Nat⦄ ⦃a : Nat⦄ ⦃vs : List (Vec4 R)⦄ ⦃rs : List Nat⦄,
    Placed code resolve a block → Fits limits need vs rs →
      ∃ v visited, answer env = .ok v ∧ vs.length < limits.stackDepth ∧
        Runs limits env ⟨code⟩ ⟨a, ⟨vs, rs⟩⟩ visited ⟨a + Line.count block, ⟨v :: vs, rs⟩⟩ ∧
        Within a (a + Line.count block) visited

variable {limits : Limits} {env : Environment R} {code : Array (Instruction Nat)}
  {resolve : Nat → Nat} {a : Nat} {vs : List (Vec4 R)} {rs : List Nat} {block : List Line}
  {need : Resources} {answer : Outlook R}

/-! ### Operations -/

/-- A constant pushes its value. -/
theorem delivers_pushColor (color : Vec4 Single) :
    Delivers [.op (.pushColor color)] .value
      (fun env : Environment R ↦ .ok (env.keep (color.map widen))) := by
  intro env limits code resolve a vs rs placed fits
  have room : vs.length < limits.stackDepth := fits.1
  exact ⟨_, _, rfl, room,
    .step (advance_of_next placed.1 (step_pushColor room color)) (.refl _),
    .singleton (Nat.le_refl a) (Nat.lt_succ_self a)⟩

/-- An operation on the value of a block. -/
theorem Delivers.unary (h : Delivers block need answer) {i : Instruction Nat}
    {f : Vec4 R → Vec4 R} (hmap : ∀ resolve, i.map resolve = i)
    (hstep : ∀ limits env, step limits env i = Machine.unary limits env f) :
    Delivers (block ++ [.op i]) need (fun env ↦ do return env.keep (f (← answer env))) := by
  intro env limits code resolve a vs rs placed fits
  obtain ⟨hblock, hop⟩ := placed_append.1 placed
  obtain ⟨v, visited, hv, room, hruns, hwithin⟩ := h env hblock fits
  have hadvance : advance limits env ⟨code⟩ ⟨a + Line.count block, ⟨v :: vs, rs⟩⟩ =
      .running ⟨a + Line.count block + 1, ⟨env.keep (f v) :: vs, rs⟩⟩ :=
    advance_of_next (hmap resolve ▸ hop.1) (by rw [hstep]; exact unary_apply room f v)
  refine ⟨env.keep (f v), visited ++ [a + Line.count block], ?_, room, ?_, ?_⟩
  · simp only [hv]
    rfl
  · rw [Line.count_append]
    exact hruns.snoc hadvance
  · rw [Line.count_append]
    exact hwithin.append (.singleton (Nat.le_refl _) (Nat.lt_succ_self _)) (by omega) (by omega)

/-- Blocks and what they deliver. -/
abbrev DeliverEach (bs : List (List Line)) (ds : List (Resources × Outlook R)) : Prop :=
  List.Forall₂ (fun b d ↦ Delivers b d.1 d.2) bs ds

/-- Blocks in sequence leave all of their values, the last one on top. -/
theorem runs_flatten (env : Environment R) (vs : List (Vec4 R)) {bs : List (List Line)}
    {ds : List (Resources × Outlook R)} (h : DeliverEach bs ds)
    (placed : Placed code resolve a bs.flatten)
    (fits : ∀ (i : Nat) d, ds[i]? = some d → Fits limits (d.1.above i 0) vs rs) :
    ∃ values visited, allAnswers (ds.map fun d _ ↦ d.2 env) = .ok values ∧
      values.length = bs.length ∧ (bs ≠ [] → vs.length < limits.stackDepth) ∧
      Runs limits env ⟨code⟩ ⟨a, ⟨vs, rs⟩⟩ visited
        ⟨a + Line.count bs.flatten, ⟨values.reverse ++ vs, rs⟩⟩ ∧
      Within a (a + Line.count bs.flatten) visited := by
  induction h generalizing a vs with
  | nil => exact ⟨[], [], rfl, rfl, absurd rfl, .refl _, .nil _ _⟩
  | @cons b d bs ds hb _ ih =>
    obtain ⟨hblock, hrest⟩ := placed_append.1 placed
    have hfits : Fits limits d.1 vs rs := fits 0 d rfl
    obtain ⟨v, visited, hv, room, hruns, hwithin⟩ := hb env hblock hfits
    obtain ⟨values, visited', hvalues, hlength, -, hruns', hwithin'⟩ :=
      ih (v :: vs) hrest fun i d' hd' ↦ by
        have hf := fits (i + 1) d' hd'
        exact ⟨by have := hf.1; simp only [Resources.above, List.length_cons] at this ⊢; omega,
          hf.2⟩
    refine ⟨v :: values, visited ++ visited', ?_, ?_, fun _ ↦ room, ?_, ?_⟩
    · rw [List.map_cons, allAnswers, hv, hvalues]
      rfl
    · rw [List.length_cons, List.length_cons, hlength]
    · rw [List.flatten_cons, Line.count_append, List.reverse_cons, List.append_assoc,
        ← Nat.add_assoc]
      exact hruns.trans hruns'
    · rw [List.flatten_cons, Line.count_append, ← Nat.add_assoc]
      exact hwithin.append hwithin' (by omega) (by omega)

/-- An operation on the values of some blocks in sequence. -/
theorem delivers_sequence {bs : List (List Line)} {ds : List (Resources × Outlook R)}
    (h : DeliverEach bs ds) (nonempty : bs ≠ []) {i : Instruction Nat}
    (hmap : ∀ resolve, i.map resolve = i) {answer : Outlook R}
    (hstep : ∀ ⦃limits⦄ ⦃env : Environment R⦄ ⦃values⦄ ⦃vs : List (Vec4 R)⦄ (rs),
      allAnswers (ds.map fun d _ ↦ d.2 env) = .ok values → values.length = bs.length →
        vs.length < limits.stackDepth → ∃ v, answer env = .ok v ∧
          step limits env i ⟨values.reverse ++ vs, rs⟩ = (.ok .next, ⟨v :: vs, rs⟩)) :
    Delivers (bs.flatten ++ [.op i]) (.sequential (ds.map (·.1))) answer := by
  intro env limits code resolve a vs rs placed fits
  obtain ⟨hflat, hop⟩ := placed_append.1 placed
  obtain ⟨values, visited, hvalues, hlength, hroom, hruns, hwithin⟩ :=
    runs_flatten env vs h hflat fun i d hd ↦
      fits.mono (Resources.le_sequential (by rw [List.getElem?_map, hd]; rfl))
  obtain ⟨v, hv, hs⟩ := hstep rs hvalues hlength (hroom nonempty)
  have hadvance : advance limits env ⟨code⟩
        ⟨a + Line.count bs.flatten, ⟨values.reverse ++ vs, rs⟩⟩ =
      .running ⟨a + Line.count bs.flatten + 1, ⟨v :: vs, rs⟩⟩ :=
    advance_of_next (hmap resolve ▸ hop.1) hs
  refine ⟨v, visited ++ [a + Line.count bs.flatten], hv, hroom nonempty, ?_, ?_⟩
  · rw [Line.count_append]
    exact hruns.snoc hadvance
  · rw [Line.count_append]
    exact hwithin.append (.singleton (Nat.le_refl _) (Nat.lt_succ_self _)) (by omega) (by omega)

/-! ### Layers -/

/-- Layers below a value: the jump to the end is taken as soon as the value is opaque. -/
theorem runs_layers (env : Environment R) (store : R → R) {bs : List (List Line)}
    {ds : List (Resources × Outlook R)}
    (h : DeliverEach bs ds) {done : Nat} (placed : Placed code resolve a (layers done bs))
    (hdone : resolve done = a + Line.count (layers done bs))
    (fits : ∀ d ∈ ds, Fits limits (d.1.above 1 0) vs rs) (room : vs.length < limits.stackDepth)
    (top : Vec4 R) :
    ∃ v visited, coverLayersIn ⟨store, env.keep⟩ top (ds.map fun d _ ↦ d.2 env) = .ok v ∧
      Runs limits env ⟨code⟩ ⟨a, ⟨top :: vs, rs⟩⟩ visited
        ⟨a + Line.count (layers done bs), ⟨v :: vs, rs⟩⟩ ∧
      Within a (a + Line.count (layers done bs)) visited := by
  induction h generalizing a top with
  | nil => exact ⟨top, [], rfl, .refl _, .nil _ _⟩
  | @cons b d bs ds hb _ ih =>
    obtain ⟨hjump, hrest⟩ := placed
    obtain ⟨hblock, hblend, hbelow⟩ := placed_append.1 hrest
    have hcount : Line.count (layers done (b :: bs)) =
        1 + Line.count b + 1 + Line.count (layers done bs) := by
      rw [layers, Line.count_op, Line.count_append, Line.count_op]
      omega
    rw [hcount] at hdone ⊢
    -- Either the jump skips the rest, or the layer is run, blended in, and the rest goes on below.
    by_cases hopaque : isOpaqueAlpha top.w = true
    · have hadvance : advance limits env ⟨code⟩ ⟨a, ⟨top :: vs, rs⟩⟩ =
          .running ⟨resolve done, ⟨top :: vs, rs⟩⟩ :=
        advance_of_jump hjump (by
          rw [Instruction.map, step_opaqueJump, if_pos hopaque])
      refine ⟨top, [a], ?_, ?_, .singleton (Nat.le_refl a) (by omega)⟩
      · rw [List.map_cons, coverLayersIn, if_pos hopaque]
      · exact hdone ▸ .step hadvance (.refl _)
    · have hadvance : advance limits env ⟨code⟩ ⟨a, ⟨top :: vs, rs⟩⟩ =
          .running ⟨a + 1, ⟨top :: vs, rs⟩⟩ :=
        advance_of_next hjump (by
          rw [Instruction.map, step_opaqueJump, if_neg hopaque])
      have hfits : Fits limits d.1 (top :: vs) rs :=
        (fits d List.mem_cons_self).above (Nat.le_refl _) (Nat.le_refl _)
      obtain ⟨layer, visited, hlayer, -, hruns, hwithin⟩ := hb env hblock hfits
      have hover : advance limits env ⟨code⟩
            ⟨a + 1 + Line.count b, ⟨layer :: top :: vs, rs⟩⟩ =
          .running ⟨a + 1 + Line.count b + 1, ⟨env.keep (stackBlend top layer) :: vs, rs⟩⟩ :=
        advance_of_next hblend (step_stackBlend room top layer)
      obtain ⟨v, visited', hv, hruns', hwithin'⟩ :=
        ih hbelow (by rw [hdone]; omega) (fun d hd ↦ fits d (List.mem_cons_of_mem _ hd))
          (env.keep (stackBlend top layer))
      refine ⟨v, a :: (visited ++ [a + 1 + Line.count b]) ++ visited', ?_, ?_, ?_⟩
      · rw [List.map_cons, coverLayersIn, if_neg hopaque]
        simp only [hlayer]
        exact hv
      · have hend : a + (1 + Line.count b + 1 + Line.count (layers done bs)) =
            a + 1 + Line.count b + 1 + Line.count (layers done bs) := by omega
        rw [hend]
        exact (Runs.step hadvance (hruns.snoc hover)).trans hruns'
      · have hfirst : Within a (a + 1) [a] := .singleton (Nat.le_refl a) (Nat.lt_succ_self a)
        have hlast : Within (a + 1 + Line.count b) (a + 1 + Line.count b + 1)
            [a + 1 + Line.count b] := .singleton (Nat.le_refl _) (Nat.lt_succ_self _)
        have hlayered := hfirst.append (hwithin.append hlast (by omega) (by omega)) (by omega)
          (by omega)
        exact (hlayered.append hwithin' (by omega) (by omega)).mono (Nat.le_refl a) (by omega)

/-- A block with layers below it. -/
theorem Delivers.stack (store : R → R) (h : Delivers block need answer) {bs : List (List Line)}
    {ds : List (Resources × Outlook R)} (hs : DeliverEach bs ds) (done : Nat) {need' : Resources}
    (hle : need.Le need') (hles : ∀ d ∈ ds, (d.1.above 1 0).Le need') :
    Delivers (block ++ (layers done bs ++ [.mark done])) need' (fun env ↦ do
      coverLayersIn ⟨store, env.keep⟩ (← answer env) (ds.map fun d _ ↦ d.2 env)) := by
  intro env limits code resolve a vs rs placed fits
  obtain ⟨hblock, hrest⟩ := placed_append.1 placed
  obtain ⟨hlayers, hdone, -⟩ := placed_append.1 hrest
  obtain ⟨top, visited, htop, room, hruns, hwithin⟩ := h env hblock (fits.mono hle)
  obtain ⟨v, visited', hv, hruns', hwithin'⟩ :=
    runs_layers env store hs hlayers hdone (fun d hd ↦ fits.mono (hles d hd)) room top
  have hcount : Line.count (block ++ (layers done bs ++ [.mark done])) =
      Line.count block + Line.count (layers done bs) := by simp
  rw [hcount, ← Nat.add_assoc]
  refine ⟨v, visited ++ visited', ?_, room, hruns.trans hruns',
    hwithin.append hwithin' (by omega) (by omega)⟩
  simp only [htop]
  exact hv

end Machine

end Shading
