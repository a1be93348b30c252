import Shading.Machine.Executable
import Shading.Proofs.Code.Placement
import Shading.Proofs.Failure

/-!
# Locations resolved in advance

A program with a table of locations runs like the linked code in which the indices of the table
stand for the locations. The two go in step: in either machine the return stack holds indices, and a
jump to a location is one to the index that it marks, so that from the same state both come to the
same state (`Executable.advance_linked`), and by induction on the number of instructions they end
alike (`Executable.run_linked`).

No location is missing from the table when a jump looks it up, because `load` has found all of them
there (`resolves_of_load`). Apart from that, linking is loading followed by putting in the indices;
both refuse a list for the same reason (`link_eq_load`).
-/

namespace Shading

namespace Executable

/-- The index that a location marks, or zero if it marks none. -/
def resolve (program : Executable) (location : Nat) : Nat :=
  (program.addresses.lookup location).getD 0

/-- The code with indices in place of locations. -/
def linked (program : Executable) : Linked :=
  ⟨program.code.map (·.map program.resolve)⟩

/-- The table has every location that an instruction refers to. -/
def Resolves (program : Executable) : Prop :=
  ∀ i ∈ program.code, ∀ l ∈ i.targets, (program.addresses.lookup l).isSome

/-! ### One instruction -/

section

variable {R : Type} {limits : Limits} {env : Environment R} {program : Executable} {l : Nat}

/-- A location of the table is looked up without failing. -/
theorem address_eq (h : (program.addresses.lookup l).isSome) :
    (program.address l : StackM R Nat) = pure (program.resolve l) := by
  obtain ⟨index, hindex⟩ := Option.isSome_iff_exists.1 h
  rw [address, resolve, hindex]
  rfl

/-- A location that is in the table is jumped to at its index. -/
theorem jump_eq (h : (program.addresses.lookup l).isSome) :
    (program.jump l : StackM R Flow) = pure (.jump (program.resolve l)) := by
  rw [jump, address_eq h, pure_bind]

/-- A location that is in the table is put down as its index. -/
theorem callThen_eq (h : (program.addresses.lookup l).isSome) :
    (program.callThen limits l : StackM R Unit) =
      Stacks.pushReturn limits (program.resolve l) := by
  rw [callThen, address_eq h, pure_bind]

/-- To look up a stop by its location is to find its index in a resolved table. -/
theorem stopAt_map {α : Type} {table : StopTable Nat} {f : Nat → Nat}
    {next next' : Nat → StackM R α} (h : ∀ l ∈ table.stops, next l = next' (f l)) (i : Nat) :
    (Machine.stopAt table i >>= next) = (Machine.stopAt (table.map f) i >>= next') := by
  have hstops : (table.map f).stops[i]? = table.stops[i]?.map f := List.getElem?_map ..
  rw [Machine.stopAt, Machine.stopAt, hstops]
  rcases hstop : table.stops[i]? with - | l
  · rfl
  · show (pure l >>= next) = (pure (f l) >>= next')
    rw [pure_bind, pure_bind, h l (List.mem_of_getElem? hstop)]

variable [ColorModel R]

/-- A blend calls the blocks that its locations mark. -/
theorem dispatchBlend_eq {branches : Branches Nat}
    (h : ∀ l ∈ branches.targets, (program.addresses.lookup l).isSome) (t : R) :
    program.dispatchBlend limits env t branches =
      Machine.dispatchBlend limits env t (branches.map program.resolve) := by
  simp only [Branches.targets, List.forall_mem_cons] at h
  obtain ⟨hzero, hone, hblend, hdone, -⟩ := h
  simp only [dispatchBlend, callThen_eq hdone, callThen_eq hblend, callThen_eq hone, jump_eq hzero,
    jump_eq hone]
  rfl

variable [Rounding R Single]

/-- A gradient calls the blocks of the stops that its locations mark. -/
theorem dispatchGradient_eq {table : StopTable Nat}
    (h : ∀ l ∈ table.targets, (program.addresses.lookup l).isSome) (t : Option R)
    (extend : Extend) :
    program.dispatchGradient limits env t extend table =
      Machine.dispatchGradient limits env t extend (table.map program.resolve) := by
  rw [StopTable.targets, List.forall_mem_append] at h
  obtain ⟨hstops, hends⟩ := h
  have hblend := hends _ List.mem_cons_self
  have hdone := hends _ (List.mem_cons_of_mem _ List.mem_cons_self)
  have hjump (i : Nat) :
      (Machine.stopAt table i >>= program.jump : StackM R Flow) =
        Machine.stopAt (table.map program.resolve) i >>= fun index ↦ pure (.jump index) :=
    stopAt_map (fun l hl ↦ jump_eq (hstops l hl)) i
  have hcall (i : Nat) :
      (Machine.stopAt table i >>= program.callThen limits : StackM R Unit) =
        Machine.stopAt (table.map program.resolve) i >>= Stacks.pushReturn limits :=
    stopAt_map (fun l hl ↦ callThen_eq (hstops l hl)) i
  rcases t with - | t
  · simp only [dispatchGradient, jump_eq hdone]
    rfl
  · have hratios : (table.map program.resolve).ratios = table.ratios := rfl
    simp only [dispatchGradient, Machine.dispatchGradient, hratios]
    rcases Selection.select (table.ratios.map widen) (extend.apply t) with i | ⟨i, ratio⟩
    · simp only [callThen_eq hdone, hjump]
      rfl
    · simp only [callThen_eq hblend, hjump]
      show (do
        Machine.push limits env (Vec4.splat ratio)
        Stacks.pushReturn limits (program.resolve table.blend)
        Machine.stopAt table (i + 1) >>= fun l ↦ do
          program.callThen limits l
          _) = _
      simp only [← bind_assoc, hcall]
      rfl

/-- An instruction whose locations are in the table has the effect of the resolved one. -/
theorem step_eq {i : Instruction Nat}
    (h : ∀ l ∈ i.targets, (program.addresses.lookup l).isSome) :
    program.step limits env i = Machine.step limits env (i.map program.resolve) := by
  cases i with
  | opaqueJump target =>
    show (do
      let top ← Stacks.peek
      if isOpaqueAlpha top.w then program.jump target else return .next) = _
    rw [jump_eq (h target List.mem_cons_self)]
    refine congrArg (Stacks.peek >>= ·) (funext fun top ↦ ?_)
    by_cases hopaque : isOpaqueAlpha top.w = true
    · rw [if_pos hopaque, if_pos hopaque]
    · rw [if_neg hopaque, if_neg hopaque]
  | linearBlendRatio | radialBlendRatio => exact dispatchBlend_eq h _
  | linearGradientRatio | radialGradientRatio =>
    rw [step, dispatchGradient_eq h]
    rfl
  | _ => rfl

/-! ### Runs -/

/-- From the same state, both machines come to the same. -/
theorem advance_linked (resolves : program.Resolves) (s : Machine.State R) :
    program.advance limits env s = Machine.advance limits env program.linked s := by
  have hcode : program.linked.code[s.index]? =
      program.code[s.index]?.map (·.map program.resolve) := Array.getElem?_map ..
  rw [advance, Machine.advance, hcode]
  rcases hi : program.code[s.index]? with - | i
  · rfl
  · have hstep : program.step limits env i = Machine.step limits env (i.map program.resolve) :=
      step_eq (resolves i (Array.mem_of_getElem? hi))
    dsimp only [Option.map_some]
    generalize program.step limits env i = effect at hstep ⊢
    subst hstep
    rfl

/-- Both machines go in step as long as they run. -/
theorem run_linked (resolves : program.Resolves) (fuel : Nat) (s : Machine.State R) :
    program.run limits env fuel s = Machine.run limits env program.linked fuel s := by
  induction fuel generalizing s with
  | zero => rfl
  | succ fuel ih =>
    rw [run, Machine.run, advance_linked resolves]
    cases Machine.advance limits env program.linked s with
    | running t => exact ih t
    | halted store => rfl
    | failed cause => rfl

/-- The program has the color of the linked code, or fails like it. -/
theorem execute_linked (resolves : program.Resolves) (ctx : Context R) :
    program.execute limits ctx = Machine.execute limits program.linked ctx := by
  rw [execute, run_linked resolves]
  rfl

end

end Executable

/-! ### Loading and linking -/

variable {table : List (Nat × Nat)} {lines : List Line} {program : Executable}

/-- A target behind an instruction has been found in the table. -/
theorem isSome_lookup_of_checkForward {index : Nat} {locations : List Nat}
    (h : checkForward table index locations = .ok ()) :
    ∀ l ∈ locations, (table.lookup l).isSome := by
  intro l hl
  have hlt := checkForward_eq_ok_iff.1 h l hl
  rcases hlook : table.lookup l with - | target
  · rw [hlook] at hlt
    exact absurd hlt (Nat.not_lt_zero _)
  · rfl

/-- All targets have been found in the table. -/
theorem isSome_lookup_of_checkJumps {index : Nat} {is : List (Instruction Nat)}
    (h : checkJumps table index is = .ok ()) :
    ∀ i ∈ is, ∀ l ∈ i.targets, (table.lookup l).isSome := by
  induction is generalizing index with
  | nil => exact List.forall_mem_nil _
  | cons i is ih =>
    obtain ⟨hi, his⟩ := check_bind_eq_ok_iff.1 h
    exact List.forall_mem_cons.2 ⟨isSome_lookup_of_checkForward hi, ih his⟩

/-- No jump of a loaded program looks up a location in vain. -/
theorem resolves_of_load (h : load lines = .ok program) : program.Resolves := by
  obtain ⟨table, -, h⟩ := bind_eq_ok_iff.1 h
  obtain ⟨hcheck, h⟩ := check_bind_eq_ok_iff.1 h
  obtain rfl := Except.ok.inj h
  exact fun i hi ↦ isSome_lookup_of_checkJumps hcheck i (by simpa using hi)

/-- To check the jumps on the way and to check them before is the same. -/
theorem linkFrom_eq_checkJumps (table : List (Nat × Nat)) (index : Nat)
    (is : List (Instruction Nat)) :
    linkFrom table index is =
      (checkJumps table index is).map fun _ ↦ is.map (·.map fun l ↦ (table.lookup l).getD 0) := by
  induction is generalizing index with
  | nil => rfl
  | cons i is ih =>
    rw [linkFrom, checkJumps, ih]
    rcases checkForward table index i.targets with - | ⟨⟩
    · rfl
    · show (Except.map _ (checkJumps table (index + 1) is) >>= _) = Except.map _ (checkJumps _ _ _)
      rcases checkJumps table (index + 1) is with - | ⟨⟩ <;> rfl

/-- Linking is loading, and putting in the indices afterwards. -/
theorem link_eq_load (lines : List Line) : link lines = (load lines).map Executable.linked := by
  rw [link, load]
  rcases markedIndices 0 [] lines with - | table
  · rfl
  · show (linkFrom table 0 _ >>= _) = Except.map _ (checkJumps table 0 _ >>= _)
    rw [linkFrom_eq_checkJumps]
    rcases checkJumps table 0 (Line.instructions lines) with - | ⟨⟩
    · rfl
    · refine congrArg (Except.ok ∘ Linked.mk) ?_
      exact (List.map_toArray ..).symm

/-- A list that is loaded is linked to the code with all locations resolved. -/
theorem link_of_load (h : load lines = .ok program) : link lines = .ok program.linked := by
  rw [link_eq_load, h]
  rfl

/-- What is linked is loaded as a program with this code. -/
theorem exists_load_of_link {code : Linked} (h : link lines = .ok code) :
    ∃ program, load lines = .ok program ∧ program.linked = code := by
  rw [link_eq_load] at h
  rcases hload : load lines with cause | program
  · rw [hload] at h
    cases h
  · rw [hload] at h
    exact ⟨program, rfl, Except.ok.inj h⟩

end Shading
