import Shading.Proofs.Gradient
import Shading.Proofs.Machine.Delivery

/-!
# Calling blocks

A dispatching instruction computes a selection among the blocks behind it, puts down where to go on,
and jumps to one of them. `chosenIn` is the answer to a selection and `entered` the state in which
the machine goes on, so what a dispatch delivers is one statement about selections
(`delivers_dispatch`); blends and gradients only differ in how the selection comes about.

Each called block occupies an interval of its own (`callOffset`). When two are called, the first one
returns to the second and the second to the mixing behind all of them, so nothing is executed twice.
-/

namespace Shading

/-- The answer to a selection; without one the value is zero. -/
def chosenIn {R : Type} [Scalar R] (keep : Vec4 R → Vec4 R) (kind : Kind R)
    (answers : List (Answer R)) : Option (Selection R) → Except EvaluationError (Vec4 R)
  | none => .ok (keep .zero)
  | some (.single i) => answerAt kind answers i ()
  | some (.between i ratio) => do
    return keep ((← answerAt kind answers i ()).lerp (← answerAt kind answers (i + 1) ())
      (keep (.splat ratio)).x)

theorem answerAt_of_getElem? {R : Type} {kind : Kind R} {answers : List (Answer R)} {i : Nat}
    {x : Answer R} (h : answers[i]? = some x) : answerAt kind answers i () = x () := by
  rw [answerAt, h]

/-! ### Where the blocks are -/

/-- The number of instructions in front of a called block. -/
def callOffset (bs : List (List Line)) (k : Nat) : Nat :=
  ((bs.take k).map fun b ↦ Line.count b + 1).sum

/-- A block takes the lines of its instructions and a return. -/
theorem callOffset_succ {bs : List (List Line)} {k : Nat} {b : List Line} (h : bs[k]? = some b) :
    callOffset bs (k + 1) = callOffset bs k + (Line.count b + 1) := by
  simp [callOffset, List.take_add_one, h]

/-- Blocks stand in their order. -/
theorem callOffset_mono (bs : List (List Line)) {j k : Nat} (h : j ≤ k) :
    callOffset bs j ≤ callOffset bs k := by
  obtain ⟨m, rfl⟩ := Nat.exists_eq_add_of_le h
  rw [callOffset, callOffset, List.take_add, List.map_append, List.sum_append]
  exact Nat.le_add_right _ _

/-- Called blocks have as many instructions as the offset behind the last of them. -/
theorem count_calls (lo : Nat) (bs : List (List Line)) :
    Line.count (calls (List.range' lo bs.length) bs) = callOffset bs bs.length := by
  induction bs generalizing lo with
  | nil => rfl
  | cons b bs ih =>
    rw [List.length_cons, List.range'_succ, calls, Line.count_mark, Line.count_append,
      Line.count_op, ih, callOffset, callOffset, List.take_succ_cons, List.map_cons, List.sum_cons]
    omega

/-- A block that can be called: a location leads to it, and a return follows it. -/
structure Callable (code : Array (Instruction Nat)) (resolve : Nat → Nat) (a label : Nat)
    (b : List Line) : Prop where
  start : resolve label = a
  block : Placed code resolve a b
  ret : code[a + Line.count b]? = some .ret

/-- Each of the called blocks may be called where it stands. -/
theorem callable_of_placed {code : Array (Instruction Nat)} {resolve : Nat → Nat} {a lo k : Nat}
    {bs : List (List Line)} {b : List Line}
    (placed : Placed code resolve a (calls (List.range' lo bs.length) bs)) (h : bs[k]? = some b) :
    Callable code resolve (a + callOffset bs k) (lo + k) b := by
  induction bs generalizing a lo k with
  | nil => cases h
  | cons c bs ih =>
    rw [List.length_cons, List.range'_succ, calls] at placed
    obtain ⟨hstart, hrest⟩ := placed
    obtain ⟨hblock, hret, hcalls⟩ := placed_append.1 hrest
    cases k with
    | zero =>
      cases h
      exact ⟨hstart, hblock, hret⟩
    | succ k =>
      have hcallable := ih hcalls h
      have hoffset : a + Line.count c + 1 + callOffset bs k = a + callOffset (c :: bs) (k + 1) := by
        rw [callOffset, callOffset, List.take_succ_cons, List.map_cons, List.sum_cons]
        omega
      rw [hoffset, show lo + 1 + k = lo + (k + 1) by omega] at hcallable
      exact hcallable

namespace Machine

variable {R : Type} [ColorModel R] [Rounding R Single]

variable {limits : Limits} {env : Environment R} {code : Array (Instruction Nat)}
  {resolve : Nat → Nat} {a : Nat} {vs : List (Vec4 R)} {rs : List Nat}

/-- A called block leaves its value and goes on where it was told to. -/
theorem Delivers.call {b : List Line} {need : Resources} {answer : Outlook R}
    (h : Delivers b need answer) (env : Environment R) {label address : Nat}
    (callable : Callable code resolve a label b)
    (fits : Fits limits need vs (address :: rs)) :
    ∃ v visited, answer env = .ok v ∧ vs.length < limits.stackDepth ∧
      Runs limits env ⟨code⟩ ⟨resolve label, ⟨vs, address :: rs⟩⟩ visited
        ⟨address, ⟨v :: vs, rs⟩⟩ ∧
      Within a (a + (Line.count b + 1)) visited := by
  obtain ⟨v, visited, hv, room, hruns, hwithin⟩ := h env callable.block fits
  have hret : advance limits env ⟨code⟩ ⟨a + Line.count b, ⟨v :: vs, address :: rs⟩⟩ =
      .running ⟨address, ⟨v :: vs, rs⟩⟩ :=
    advance_of_jump callable.ret (step_ret address)
  rw [callable.start]
  exact ⟨v, visited ++ [a + Line.count b], hv, room, hruns.snoc hret,
    hwithin.append (.singleton (Nat.le_refl _) (Nat.lt_succ_self _)) (by omega) (by omega)⟩

/-- Two called blocks, the second behind the first, and the mixing of their values behind both. -/
theorem Delivers.callBoth {b b' : List Line} {need need' : Resources} {answer answer' : Outlook R}
    (h : Delivers b need answer) (h' : Delivers b' need' answer') (env : Environment R)
    {label label' m : Nat} (callable : Callable code resolve a label b)
    (callable' : Callable code resolve (a + (Line.count b + 1)) label' b')
    (hmix : code[m]? = some .mix) (hm : a + (Line.count b + 1) + (Line.count b' + 1) ≤ m)
    (room : vs.length < limits.stackDepth) (ratio : Vec4 R)
    (fits : Fits limits (need.above 1 2) vs rs) (fits' : Fits limits (need'.above 2 1) vs rs) :
    ∃ v v' visited, answer env = .ok v ∧ answer' env = .ok v' ∧
      Runs limits env ⟨code⟩ ⟨resolve label, ⟨ratio :: vs, resolve label' :: m :: rs⟩⟩ visited
        ⟨m + 1, ⟨env.keep (v.lerp v' ratio.x) :: vs, rs⟩⟩ ∧
      Within a (m + 1) visited := by
  have hfits : Fits limits need (ratio :: vs) (resolve label' :: m :: rs) :=
    fits.above (Nat.le_refl _) (Nat.le_refl _)
  obtain ⟨v, visited, hv, -, hruns, hwithin⟩ := h.call env callable hfits
  have hfits' : Fits limits need' (v :: ratio :: vs) (m :: rs) :=
    fits'.above (Nat.le_refl _) (Nat.le_refl _)
  obtain ⟨v', visited', hv', -, hruns', hwithin'⟩ := h'.call env callable' hfits'
  have hlast : advance limits env ⟨code⟩ ⟨m, ⟨v' :: v :: ratio :: vs, rs⟩⟩ =
      .running ⟨m + 1, ⟨env.keep (v.lerp v' ratio.x) :: vs, rs⟩⟩ :=
    advance_of_next hmix (step_mix room ratio v v')
  have hmixed : Within m (m + 1) [m] := .singleton (Nat.le_refl m) (Nat.lt_succ_self m)
  have hbelow := (hwithin.append hwithin' (by omega) (by omega)).mono (Nat.le_refl a) hm
  refine ⟨v, v', visited ++ visited' ++ [m], hv, hv', (hruns.trans hruns').snoc hlast, ?_⟩
  exact hbelow.append hmixed (by omega) (by omega)

/-! ### Stops of a selection -/

variable {bs : List (List Line)} {ds : List (Resources × Outlook R)} {lo k : Nat}

/-- The block at a stop, what it delivers, and that this is the answer of the stop. -/
theorem exists_callee (h : DeliverEach bs ds) (kind : Kind R) (env : Environment R)
    (hk : k < bs.length) :
    ∃ b d, bs[k]? = some b ∧ ds[k]? = some d ∧ Delivers b d.1 d.2 ∧
      answerAt kind (ds.map fun d _ ↦ d.2 env) k () = d.2 env := by
  have hk' : k < ds.length := h.length_eq ▸ hk
  refine ⟨bs[k], ds[k], List.getElem?_eq_getElem hk, List.getElem?_eq_getElem hk',
    (List.forall₂_iff_get.1 h).2 k hk hk', answerAt_of_getElem? (x := fun _ ↦ ds[k].2 env) ?_⟩
  rw [List.getElem?_map, List.getElem?_eq_getElem hk']
  rfl

/-- The block at one stop is run, back to where the selection ends. -/
theorem runs_single (h : DeliverEach bs ds) (kind : Kind R) (env : Environment R)
    (placed : Placed code resolve a (calls (List.range' lo bs.length) bs)) (hk : k < bs.length)
    {done : Nat} (fits : ∀ d, ds[k]? = some d → Fits limits d.1 vs (done :: rs)) :
    ∃ v visited, chosenIn env.keep kind (ds.map fun d _ ↦ d.2 env) (some (.single k)) = .ok v ∧
      Runs limits env ⟨code⟩ ⟨resolve (lo + k), ⟨vs, done :: rs⟩⟩ visited ⟨done, ⟨v :: vs, rs⟩⟩ ∧
      Within a (a + callOffset bs bs.length) visited := by
  obtain ⟨b, d, hb, hd, hdelivers, hanswer⟩ := exists_callee h kind env hk
  have hoffset := callOffset_mono bs (hk : k + 1 ≤ bs.length)
  rw [callOffset_succ hb] at hoffset
  obtain ⟨v, visited, hv, -, hruns, hwithin⟩ :=
    hdelivers.call env (callable_of_placed placed hb) (fits d hd)
  refine ⟨v, visited, ?_, hruns, hwithin.mono (by omega) (by omega)⟩
  rw [chosenIn, hanswer, hv]

/-- The blocks at two neighbouring stops are run one after the other, and then mixed. -/
theorem runs_between (h : DeliverEach bs ds) (kind : Kind R) (env : Environment R)
    (placed : Placed code resolve a (calls (List.range' lo bs.length) bs))
    (hmix : code[a + callOffset bs bs.length]? = some .mix) (hk : k + 1 < bs.length)
    (room : vs.length < limits.stackDepth) (ratio : R)
    (fits : ∀ d, ds[k]? = some d → Fits limits (d.1.above 1 2) vs rs)
    (fits' : ∀ d, ds[k + 1]? = some d → Fits limits (d.1.above 2 1) vs rs) :
    ∃ v visited,
      chosenIn env.keep kind (ds.map fun d _ ↦ d.2 env) (some (.between k ratio)) = .ok v ∧
      Runs limits env ⟨code⟩
        ⟨resolve (lo + k), ⟨env.keep (.splat ratio) :: vs,
          resolve (lo + (k + 1)) :: (a + callOffset bs bs.length) :: rs⟩⟩ visited
        ⟨a + callOffset bs bs.length + 1, ⟨v :: vs, rs⟩⟩ ∧
      Within a (a + callOffset bs bs.length + 1) visited := by
  obtain ⟨b, d, hb, hd, hdelivers, hanswer⟩ := exists_callee h kind env (by omega : k < bs.length)
  obtain ⟨b', d', hb', hd', hdelivers', hanswer'⟩ := exists_callee h kind env hk
  have hoffset := callOffset_mono bs (hk : k + 1 + 1 ≤ bs.length)
  rw [callOffset_succ hb', callOffset_succ hb] at hoffset
  have hcallable' := callable_of_placed placed hb'
  rw [callOffset_succ hb, ← Nat.add_assoc] at hcallable'
  obtain ⟨v, v', visited, hv, hv', hruns, hwithin⟩ :=
    hdelivers.callBoth hdelivers' env (callable_of_placed placed hb) hcallable' hmix (by omega)
      room (env.keep (.splat ratio)) (fits d hd) (fits' d' hd')
  refine ⟨_, visited, ?_, hruns, hwithin.mono (by omega) (by omega)⟩
  rw [chosenIn, hanswer, hanswer', hv, hv']
  rfl

/-! ### Dispatch -/

/-- Where the machine goes on from a dispatch of `n` blocks whose locations start at `lo`. -/
def entered (env : Environment R) (resolve : Nat → Nat) (lo n : Nat) (vs : List (Vec4 R))
    (rs : List Nat) : Option (Selection R) → State R
  | none => ⟨resolve (lo + n + 1), ⟨env.keep .zero :: vs, rs⟩⟩
  | some (.single i) => ⟨resolve (lo + i), ⟨vs, resolve (lo + n + 1) :: rs⟩⟩
  | some (.between i ratio) =>
    ⟨resolve (lo + i), ⟨env.keep (.splat ratio) :: vs,
      resolve (lo + (i + 1)) :: resolve (lo + n) :: rs⟩⟩

/-- There is room for any selection among the blocks: one alone, the earlier one of two above the
ratio, and the later one above the ratio and a value. -/
structure Suffices {R : Type} (need : Resources) (ds : List (Resources × Outlook R)) : Prop where
  own : (Resources.mk 1 2).Le need
  alone : ∀ (k : Nat) d, ds[k]? = some d → (d.1.above 0 1).Le need
  earlier : ∀ (k : Nat) d, ds[k]? = some d → k + 1 < ds.length → (d.1.above 1 2).Le need
  later : ∀ (k : Nat) d, ds[k + 1]? = some d → (d.1.above 2 1).Le need

/-- A dispatch delivers the answer to whatever is selected. -/
theorem delivers_dispatch (h : DeliverEach bs ds) (kind : Kind R) {i : Instruction Nat}
    {need : Resources} {choice : Environment R → Option (Selection R)}
    (inside : ∀ env s, choice env = some s → s.Inside bs.length) (hroom : Suffices need ds)
    (hstep : ∀ ⦃limits⦄ (env : Environment R) ⦃resolve⦄ ⦃vs : List (Vec4 R)⦄ ⦃rs⦄,
      vs.length < limits.stackDepth → rs.length + 1 < limits.returnDepth →
        step limits env (i.map resolve) ⟨vs, rs⟩ =
          (.ok (.jump (entered env resolve lo bs.length vs rs (choice env)).index),
            (entered env resolve lo bs.length vs rs (choice env)).store)) :
    Delivers (dispatch i lo bs) need fun env ↦
      chosenIn env.keep kind (ds.map fun d _ ↦ d.2 env) (choice env) := by
  intro env limits code resolve a vs rs placed fits
  obtain ⟨hcode, hrest⟩ := placed
  obtain ⟨hcalls, hblend, hmix, hdone, -⟩ := placed_append.1 hrest
  rw [count_calls] at hblend hmix hdone
  have hcount : Line.count (dispatch i lo bs) = callOffset bs bs.length + 2 := by
    rw [dispatch, Line.count_op, Line.count_append, count_calls]
    rfl
  have hown : 1 ≤ need.stackDepth ∧ 2 ≤ need.returnDepth := hroom.own
  have room : vs.length < limits.stackDepth := by have := fits.1; omega
  have room' : rs.length + 1 < limits.returnDepth := by have := fits.2; omega
  have hfirst : advance limits env ⟨code⟩ ⟨a, ⟨vs, rs⟩⟩ =
      .running (entered env resolve lo bs.length vs rs (choice env)) :=
    advance_of_jump hcode (hstep env room room')
  have hbefore : Within a (a + 1) [a] := .singleton (Nat.le_refl a) (Nat.lt_succ_self a)
  have hend : resolve (lo + bs.length + 1) = a + (callOffset bs bs.length + 2) := by
    rw [hdone]
    omega
  have hinside := inside env
  show ∃ v visited, chosenIn _ _ _ (choice env) = _ ∧ _
  rw [hcount]
  -- Without a selection the machine is at the end; else it gets there through one or two blocks.
  generalize choice env = selection at hfirst hinside ⊢
  rcases selection with - | ⟨k⟩ | ⟨k, ratio⟩
  · exact ⟨env.keep .zero, [a], rfl, room, hend ▸ .step hfirst (.refl _),
      .singleton (Nat.le_refl a) (by omega)⟩
  · obtain ⟨v, visited, hv, hruns, hwithin⟩ :=
      runs_single h kind env hcalls (hinside _ rfl) fun d hd ↦
        (fits.mono (hroom.alone k d hd)).above (Nat.le_refl _) (Nat.le_refl _)
    have hin : Within (a + 1) (a + (callOffset bs bs.length + 2)) visited :=
      hwithin.mono (Nat.le_refl _) (by omega)
    exact ⟨v, a :: visited, hv, room, hend ▸ .step hfirst hruns,
      hbefore.append hin (by omega) (by omega)⟩
  · have hk : k + 1 < bs.length := hinside _ rfl
    obtain ⟨v, visited, hv, hruns, hwithin⟩ :=
      runs_between h kind env hcalls hmix hk room ratio
        (fun d hd ↦ fits.mono (hroom.earlier k d hd (h.length_eq ▸ hk)))
        fun d hd ↦ fits.mono (hroom.later k d hd)
    have hlast : a + 1 + callOffset bs bs.length + 1 = a + (callOffset bs bs.length + 2) := by
      omega
    rw [entered, hblend] at hfirst
    exact ⟨v, a :: visited, hv, room, hlast ▸ .step hfirst hruns,
      hbefore.append (hlast ▸ hwithin) (by omega) (by omega)⟩

end Machine

end Shading
