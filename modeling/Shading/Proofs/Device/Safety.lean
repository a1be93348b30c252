import Mathlib.Logic.Relation
import Shading.Proofs.Code.Clearing
import Shading.Proofs.Device.Guards
import Shading.Proofs.Device.Refinement

/-!
# Safety of the device

The guards of a guarded invocation stay closed, whatever the words are: any opcode, any number of
stops or lights, jumps to anywhere, also into the middle of an instruction.

One comparison keeps all the sums of addresses small, the one with `deviceAddressLimit` before the
header is read. Every slot of an instruction lies in the room behind the limit, even in the table of
a gradient with as many stops as a header can name (`headerStops_lt`). So under that comparison each
guarded read is the one that `Invocation` makes, and what is left are the stacks, which have been
dealt with one operation at a time. Nothing is asked about how an address was come by, or about the
values and addresses on the stacks, so the step is safe wherever the pointers are within the arrays
(`safe_step`), and a run is safe because its steps are.
-/

namespace Shading

/-- A header announces fewer than 65536 stops. -/
theorem headerStops_lt (header : UInt32) : headerStops header < 65536 := by
  have hheader := header.toNat_lt
  rw [toNat_headerStops]
  omega

/-- No instruction is longer than the room that is kept for it. -/
theorem Opcode.length_lt (header : UInt32) (opcode : Opcode) : opcode.length header < 262144 := by
  have hstops := headerStops_lt header
  cases opcode with
  | barycentricBlend => rw [length]; split <;> decide
  | _ => simp only [length]; omega

/-- Behind an address that is not refused there is room for an instruction. -/
theorem room_of_lt {address : Nat} (h : address < deviceAddressLimit) :
    address + 262144 < addressSpace := by
  rw [deviceAddressLimit] at h
  rw [addressSpace]
  omega

namespace Guarded

open Arrays

variable {R : Type} [ColorModel R] [Rounding R Single] {α : Type}
variable {word : Nat → UInt32} {ctx : DeviceContext Single} {edges : Array Single} {address : Nat}

/-! ### Operations -/

/-- The device goes to an address that fits a word, if it does not just go on. -/
def Lands : Invocation.Flow → Prop := KnownFlow (· < addressSpace)

/-- A target is in the address space, since addresses wrap. -/
theorem target_lt (word : Nat → UInt32) (address slot : Nat) :
    Invocation.target word address slot < addressSpace := Nat.mod_lt _ (by decide)

theorem safe_next : Safe (pure Invocation.Flow.next) (pure Invocation.Flow.next) Lands :=
  .pure trivial

theorem safe_jump {place : Nat} (fits : place < addressSpace) :
    Safe (pure (Invocation.Flow.jump place)) (pure (Invocation.Flow.jump place)) Lands :=
  .pure fits

theorem safe_get? (a : Option α) : Safe (get? a) (Invocation.get? a) fun _ ↦ True := by
  intro s hs
  cases a with
  | none => exact agrees_fault
  | some a => exact agrees_some hs trivial

omit [ColorModel R] in
theorem safe_pop : Safe (pop (R := R)) Invocation.pop fun _ ↦ True :=
  safe_popSingle.bind fun _ _ ↦ .pure trivial

omit [ColorModel R] in
theorem safe_push_next (value : Vec4 R) :
    Safe (do push value; return .next) (do Invocation.push value; return .next) Lands :=
  (safe_pushSingle _).bind fun _ _ ↦ safe_next

omit [ColorModel R] in
theorem safe_unary (f : Vec4 R → Vec4 R) : Safe (unary f) (Invocation.unary f) Lands :=
  safe_pop.bind fun v _ ↦ safe_push_next (f v)

omit [ColorModel R] in
/-- Sampling is no violation if the edges lie within the address space. -/
theorem safe_sample (hedges : ctx.edgeOffset + ctx.edgeCount < addressSpace) (code : UInt32) :
    Safe (sample (R := R) ctx edges code) (Invocation.sample ctx edges code) fun _ ↦ True := by
  rw [sample_eq hedges]
  exact (safe_get? _).bind fun _ _ ↦ (safe_get? _).bind fun _ _ ↦ .pure trivial

/-! ### Dispatch -/

/-- A blend dispatches without a violation to targets within the address space. -/
theorem safe_dispatchBlend (t : R) {places : Branches Nat}
    (fits : ∀ place ∈ places.targets, place < addressSpace) :
    Safe (dispatchBlend t places) (Invocation.dispatchBlend t places) Lands := by
  simp only [Branches.targets, List.forall_mem_cons] at fits
  obtain ⟨hzero, hone, hblend, hdone, -⟩ := fits
  rw [dispatchBlend, Invocation.dispatchBlend]
  by_cases h : t ≤ 0
  · rw [if_pos h, if_pos h]
    exact (safe_pushReturn hdone).bind fun _ _ ↦ safe_jump hzero
  · rw [if_neg h, if_neg h]
    by_cases h' : 1 ≤ t
    · rw [if_pos h', if_pos h']
      exact (safe_pushReturn hdone).bind fun _ _ ↦ safe_jump hone
    · rw [if_neg h', if_neg h']
      exact (safe_pushSingle _).bind fun _ _ ↦ (safe_pushReturn hblend).bind fun _ _ ↦
        (safe_pushReturn hone).bind fun _ _ ↦ safe_jump hzero

/-- All targets of a blend are within the address space. -/
theorem branches_lt (word : Nat → UInt32) (address slot : Nat) :
    ∀ place ∈ (Invocation.branches word address slot).targets, place < addressSpace := by
  simp only [Invocation.branches, Branches.targets, List.forall_mem_cons]
  exact ⟨target_lt .., target_lt .., target_lt .., target_lt .., List.forall_mem_nil _⟩

/-- A stop that is inside its table is read without a violation. -/
theorem stop_eq_pure {slot stops i : Nat} (inside : stops = 0 ∨ i < stops)
    (room : address + slot + stops + i < addressSpace) :
    stop word address slot stops i =
      pure (Invocation.target word address (slot + stops + i)) := by
  rw [stop, if_neg (by omega), sum_eq_pure (by omega), pure_bind, sum_eq_pure (by omega), pure_bind,
    sum_eq_pure room, pure_bind, Invocation.target, Nat.add_assoc, Nat.add_assoc,
    ← Nat.add_assoc slot]
  rfl

/-- What is selected from a gradient are stops that it has, unless it has none. -/
theorem safe_dispatchGradient {slot stops : Nat} (hslot : slot ≤ 15) (hstops : stops < 65536)
    (haddress : address < deviceAddressLimit) (extend : Extend) (t : Option R) :
    Safe (dispatchGradient word address slot stops extend t)
      (Invocation.dispatchGradient word address slot stops extend t) Lands := by
  have room := room_of_lt haddress
  simp (disch := omega) only [dispatchGradient, target_eq_pure, pure_bind]
  cases t with
  | none => exact (safe_pushSingle _).bind fun _ _ ↦ safe_jump (target_lt ..)
  | some t =>
    have hstop {i : Nat} (inside : i < stops ∨ stops = 0 ∧ i = 0) :
        stop word address slot stops i =
          pure (Invocation.target word address (slot + stops + i)) :=
      stop_eq_pure (by omega) (by omega)
    have room' : address + slot + stops < addressSpace := by omega
    simp only [operands_eq_pure room', pure_bind, Invocation.dispatchGradient]
    generalize hlist : ((List.range stops).map fun i ↦
      (Invocation.operand word (address + slot + i) : R)) = ratios
    have hlength : ratios.length = stops := by rw [← hlist, List.length_map, List.length_range]
    by_cases hne : ratios = []
    · have hnone : stops = 0 := by rw [← hlength, hne, List.length_nil]
      simp only [hne, Selection.select, hstop (.inr ⟨hnone, rfl⟩), pure_bind]
      exact (safe_pushReturn (target_lt ..)).bind fun _ _ ↦ safe_jump (target_lt ..)
    · have hinside := Selection.select_inside (extend.apply t) hne
      rw [hlength] at hinside
      rcases hselect : Selection.select ratios (extend.apply t) with i | ⟨i, ratio⟩
      · rw [hselect] at hinside
        simp only [hstop (.inl hinside), pure_bind]
        exact (safe_pushReturn (target_lt ..)).bind fun _ _ ↦ safe_jump (target_lt ..)
      · rw [hselect] at hinside
        simp only [hstop (.inl hinside), hstop (.inl (Nat.lt_of_succ_lt hinside)), pure_bind]
        exact (safe_pushSingle _).bind fun _ _ ↦ (safe_pushReturn (target_lt ..)).bind fun _ _ ↦
          (safe_pushReturn (target_lt ..)).bind fun _ _ ↦ safe_jump (target_lt ..)

/-! ### Instructions -/

/-- From every state, whatever the header says, an instruction is executed without a violation. -/
theorem safe_step (hedges : ctx.edgeOffset + ctx.edgeCount < addressSpace)
    (haddress : address < deviceAddressLimit) (header : UInt32) (opcode : Opcode) :
    Safe (step (R := R) word ctx edges address header opcode)
      (Invocation.step (R := R) word ctx edges address header opcode) Lands := by
  have room := room_of_lt haddress
  cases opcode with
  | exit => exact fun _ _ ↦ agrees_fault
  | ret => exact safe_popReturn.bind fun _ fits ↦ safe_jump fits
  | pushColor =>
    simp (disch := omega) only [step, sum_eq_pure, pure_bind]
    exact (safe_pushSingle _).bind fun _ _ ↦ safe_next
  | opaqueJump =>
    simp (disch := omega) only [step, target_eq_pure, pure_bind]
    refine safe_peekSingle.bind fun top _ ↦ ?_
    split
    · exact safe_jump (target_lt ..)
    · exact safe_next
  | stackBlend => exact safe_pop.bind fun _ _ ↦ safe_pop.bind fun _ _ ↦ safe_push_next _
  | mix =>
    exact safe_pop.bind fun _ _ ↦ safe_pop.bind fun _ _ ↦ safe_pop.bind fun _ _ ↦
      safe_push_next _
  | blendCompose =>
    exact (safe_get? _).bind fun _ _ ↦ (safe_get? _).bind fun _ _ ↦ safe_pop.bind fun _ _ ↦
      safe_pop.bind fun _ _ ↦ safe_push_next _
  | premultiply => exact safe_unary _
  | unpremultiply => exact safe_unary _
  | convert conversion => exact safe_unary _
  | multiplyScalar =>
    simp (disch := omega) only [step, operand_eq_pure, pure_bind]
    exact safe_unary _
  | normalize => exact safe_unary _
  | filter =>
    simp (disch := omega) only [step, sum_eq_pure, filterOperand_eq_pure, pure_bind]
    exact safe_unary _
  | phong =>
    simp (disch := omega) only [step, operand_eq_pure, pure_bind]
    refine (safe_popMany _).bind fun inputs hcount ↦ ?_
    obtain ⟨value, hvalue⟩ := exists_phong (Invocation.operand word (address + 1) : R)
      (show 5 ≤ inputs.length by omega)
    rw [hvalue]
    exact safe_push_next value
  | linearBlendRatio =>
    simp (disch := omega) only [step, sum_eq_pure, pointOperand_eq_pure, operand_eq_pure,
      branches_eq_pure, pure_bind]
    exact (safe_sample hedges _).bind fun _ _ ↦ safe_dispatchBlend _ (branches_lt word address 4)
  | radialBlendRatio =>
    simp (disch := omega) only [step, sum_eq_pure, affineOperand_eq_pure, operand_eq_pure,
      branches_eq_pure, pure_bind]
    exact (safe_sample hedges _).bind fun _ _ ↦ safe_dispatchBlend _ (branches_lt word address 9)
  | linearGradientRatio =>
    simp (disch := omega) only [step, sum_eq_pure, affineOperand_eq_pure, pointOperand_eq_pure,
      pure_bind]
    exact (safe_sample hedges _).bind fun _ _ ↦ (safe_get? _).bind fun _ _ ↦
      safe_dispatchGradient (by decide) (headerStops_lt header) haddress _ _
  | radialGradientRatio =>
    simp (disch := omega) only [step, sum_eq_pure, affineOperand_eq_pure, pointOperand_eq_pure,
      operand_eq_pure, pure_bind]
    exact (safe_sample hedges _).bind fun _ _ ↦ (safe_get? _).bind fun _ _ ↦
      safe_dispatchGradient (by decide) (headerStops_lt header) haddress _ _
  | barycentricBlend =>
    simp (disch := omega) only [step, sum_eq_pure, pointOperand_eq_pure, operand_eq_pure,
      tripleOperand_eq_pure, pure_bind]
    refine safe_pop.bind fun _ _ ↦ safe_pop.bind fun _ _ ↦ safe_pop.bind fun _ _ ↦
      (safe_sample hedges _).bind fun _ _ ↦ ?_
    split
    · simp only [map_pure, pure_bind]
      exact safe_push_next _
    · exact safe_push_next _

/-- Behind the limit, an instruction may reach past the last address. -/
example : (step (R := Float) word ctx edges 4294967294 0x02 .pushColor .initial).run =
    .error (.address 4294967296) := rfl

/-- The address that an instruction leads to, on the device without guards. -/
def nextAddress (address : Nat) (header : UInt32) (opcode : Opcode) : Invocation.Flow → Nat
  | .next => address + opcode.length header
  | .jump place => place

variable (word edges) in
/-- Following an instruction below the limit of addresses leads to an address that fits. -/
theorem safe_follow (hedges : ctx.edgeOffset + ctx.edgeCount < addressSpace)
    (haddress : address < deviceAddressLimit) (header : UInt32) (opcode : Opcode) :
    Safe (follow (R := R) word ctx edges address header opcode)
      (do
        let flow ← Invocation.step (R := R) word ctx edges address header opcode
        return nextAddress address header opcode flow) (· < addressSpace) := by
  have room := room_of_lt haddress
  have hlength := opcode.length_lt header
  refine (safe_step hedges haddress header opcode).bind fun flow hlands ↦ ?_
  cases flow with
  | next =>
    have fits : address + opcode.length header < addressSpace := by omega
    show Safe (sum address _) _ _
    rw [sum_eq_pure fits]
    exact .pure fits
  | jump place => exact .pure hlands

/-! ### Runs -/

/-- The address fits a word, and the stacks are within their arrays. -/
structure State.Proper (s : State) : Prop where
  address : s.address < addressSpace
  arrays : s.arrays.Proper

/-- The state as the device without guards has it. -/
def State.view (s : State) : Invocation.State := ⟨s.address, s.arrays.registers⟩

def Outcome.Proper : Outcome → Prop
  | .running s => s.Proper
  | .halted a => a.Proper
  | .faulted => True

def Outcome.view : Outcome → Invocation.Outcome
  | .running s => .running s.view
  | .halted a => .halted a.registers
  | .faulted => .faulted

/-- An instruction other than the exit, executed under guards. -/
theorem advance_of_opcode {s : State} {opcode : Opcode} (hlimit : s.address < deviceAddressLimit)
    (hopcode : Opcode.ofWord? (word s.address) = some opcode) (hne : opcode ≠ .exit) :
    advance (R := R) word ctx edges s =
      match (follow (R := R) word ctx edges s.address (word s.address) opcode s.arrays).run with
      | .error cause => .error cause
      | .ok none => .ok .faulted
      | .ok (some (address, arrays)) => .ok (.running ⟨address, arrays⟩) := by
  rw [advance, if_neg (Nat.not_le_of_lt hlimit)]
  dsimp only
  rw [hopcode]
  cases opcode <;> first | exact absurd rfl hne | rfl

variable (word edges) in
/-- An instruction that is not the exit advances a proper state without a violation. -/
theorem exists_advance_of_opcode (hedges : ctx.edgeOffset + ctx.edgeCount < addressSpace)
    {s : State} (hs : s.Proper) {opcode : Opcode} (hlimit : s.address < deviceAddressLimit)
    (hopcode : Opcode.ofWord? (word s.address) = some opcode) (hne : opcode ≠ .exit) :
    ∃ outcome, advance (R := R) word ctx edges s = .ok outcome ∧ outcome.Proper ∧
      Invocation.advance (R := R) word ctx edges s.view = outcome.view := by
  obtain ⟨out, hout, hstep, hproper⟩ := safe_follow (R := R) word edges hedges hlimit
    (word s.address) opcode s.arrays hs.arrays
  rw [advance_of_opcode hlimit hopcode hne, State.view,
    Shading.advance_of_opcode hlimit hopcode hne, hout]
  cases hflow : Invocation.step (R := R) word ctx edges s.address (word s.address) opcode
    s.arrays.registers with
  | none =>
    rw [bind_apply_of_none hflow] at hstep
    cases out with
    | none => exact ⟨.faulted, rfl, trivial, rfl⟩
    | some p => cases hstep
  | some left =>
    obtain ⟨flow, r⟩ := left
    rw [bind_apply_of_some hflow] at hstep
    cases out with
    | none => cases hstep
    | some p =>
      obtain ⟨harrays, haddress⟩ := hproper p rfl
      obtain ⟨hplace, hleft⟩ := Prod.mk.inj (Option.some.inj hstep)
      refine ⟨.running ⟨p.1, p.2⟩, rfl, ⟨haddress, harrays⟩, ?_⟩
      rw [Outcome.view, State.view, ← hplace, ← hleft]
      cases flow with
      | next => rfl
      | jump place => rfl

variable (word edges) in
/-- An instruction goes where it goes without guards, and its state stays proper. -/
theorem exists_advance (hedges : ctx.edgeOffset + ctx.edgeCount < addressSpace) {s : State}
    (hs : s.Proper) : ∃ outcome, advance (R := R) word ctx edges s = .ok outcome ∧
      outcome.Proper ∧ Invocation.advance (R := R) word ctx edges s.view = outcome.view := by
  by_cases hlimit : s.address < deviceAddressLimit
  · by_cases hstep : ∃ opcode, Opcode.ofWord? (word s.address) = some opcode ∧ opcode ≠ .exit
    · obtain ⟨opcode, hopcode, hne⟩ := hstep
      exact exists_advance_of_opcode word edges hedges hs hlimit hopcode hne
    · rw [advance, Invocation.advance, State.view, if_neg (Nat.not_le_of_lt hlimit),
        if_neg (Nat.not_le_of_lt hlimit)]
      dsimp only
      cases hopcode : Opcode.ofWord? (word s.address) with
      | none => exact ⟨.faulted, rfl, trivial, rfl⟩
      | some opcode =>
        obtain rfl : opcode = .exit := not_not.1 fun hne ↦ hstep ⟨opcode, hopcode, hne⟩
        exact ⟨.halted s.arrays, rfl, hs.arrays, rfl⟩
  · rw [advance, Invocation.advance, State.view, if_pos (Nat.le_of_not_lt hlimit),
      if_pos (Nat.le_of_not_lt hlimit)]
    exact ⟨.faulted, rfl, trivial, rfl⟩

/-- Anything but a single value fails to be an answer. -/
theorem finish_eq_none {r : Registers} (h : r.values.length ≠ 1 ∨ r.returns.length ≠ 0) :
    Invocation.finish (R := R) ctx r = none := by
  match r with
  | ⟨[value], []⟩ => simp at h
  | ⟨[], returns⟩ => rfl
  | ⟨[value], place :: returns⟩ => rfl
  | ⟨value :: value' :: values, returns⟩ => rfl

/-- The answer at the exit is read from the first slot. -/
theorem exists_finish {a : Arrays} (ha : a.Proper) : ∃ out, (finish (R := R) ctx a).run = .ok out ∧
    out.map Prod.fst = Invocation.finish (R := R) ctx a.registers := by
  have hvalues := FixedStack.length_contents ha.values
  have hreturns := FixedStack.length_contents ha.returns
  by_cases h : a.values.pointer ≠ 1 ∨ a.returns.pointer ≠ 0
  · refine ⟨none, by rw [finish, if_pos h]; rfl, (finish_eq_none ?_).symm⟩
    rw [registers, hvalues, hreturns]
    exact h
  · have hread : Arrays.onValues (FixedStack.read 0) a = pure (a.values.slots[0], a) := by
      rw [Arrays.onValues, FixedStack.read_apply (by decide)]
      rfl
    obtain ⟨hone, hnone⟩ := not_or.1 h
    have hregisters : a.registers = ⟨[a.values.slots[0]], []⟩ := by
      rw [registers, FixedStack.contents_eq_nil (not_not.1 hnone),
        FixedStack.contents_succ (not_not.1 hone) (by decide), FixedStack.contents_eq_nil rfl]
    rw [finish, if_neg h, hregisters, bind_apply hread]
    exact ⟨_, rfl, rfl⟩

variable (word edges) in
/-- A run meets no violation, does not begin more instructions than it may, and has the same answer
as without guards. -/
theorem exists_run (hedges : ctx.edgeOffset + ctx.edgeCount < addressSpace) (fuel : Nat) {s : State}
    (hs : s.Proper) : ∃ count ≤ fuel, run (R := R) word ctx edges fuel s =
      .ok (count, Invocation.run (R := R) word ctx edges fuel s.view) := by
  induction fuel generalizing s with
  | zero => exact ⟨0, Nat.le_refl 0, rfl⟩
  | succ fuel ih =>
    obtain ⟨outcome, hadvance, hproper, hview⟩ :=
      exists_advance (R := R) word edges hedges hs
    rw [run, Invocation.run, hadvance, hview]
    cases outcome with
    | running s' =>
      obtain ⟨count, hcount, hrun⟩ := ih hproper
      refine ⟨count + 1, Nat.succ_le_succ hcount, ?_⟩
      show (run _ _ _ _ s' >>= _) = _
      rw [hrun]
      rfl
    | halted a =>
      obtain ⟨out, hout, hfinish⟩ := exists_finish (R := R) hproper
      refine ⟨1, Nat.succ_le_succ (Nat.zero_le _), ?_⟩
      show ((finish ctx a).run >>= _) = _
      rw [hout]
      exact congrArg (fun answer ↦ Except.ok (1, answer)) hfinish
    | faulted => exact ⟨1, Nat.succ_le_succ (Nat.zero_le _), rfl⟩

variable (R word ctx edges) in
/-- The instruction in one state leads to the other one. -/
def Leads (s s' : State) : Prop := advance (R := R) word ctx edges s = .ok (.running s')

/-- Every state that is reached is proper. -/
theorem proper_of_leads (hedges : ctx.edgeOffset + ctx.edgeCount < addressSpace) {s s' : State}
    (hs : s.Proper) (h : Relation.ReflTransGen (Leads R word ctx edges) s s') : s'.Proper := by
  induction h with
  | refl => exact hs
  | tail _ hlast ih =>
    obtain ⟨outcome, hadvance, hproper, -⟩ := exists_advance (R := R) word edges hedges ih
    cases hadvance.symm.trans hlast
    exact hproper

/-- Whatever the words are, in every state that an invocation comes to the address fits a word, the
pointers are within the arrays, and the next instruction meets no violation and does what it does
without guards. The invocation ends after at most `deviceIterations` instructions, with the color
that it has without guards. -/
theorem execute_safe (words : List UInt32) {offset : Nat} (ctx : DeviceContext Single)
    (edges : Array Single) (hoffset : offset < addressSpace)
    (hedges : ctx.edgeOffset + ctx.edgeCount < addressSpace) :
    (∀ s, Relation.ReflTransGen (Leads R (Invocation.wordAt words.toArray) ctx edges)
        ⟨offset, .initial⟩ s →
      s.address < addressSpace ∧ s.arrays.values.pointer ≤ 16 ∧ s.arrays.returns.pointer ≤ 16 ∧
        ∃ outcome, advance (R := R) (Invocation.wordAt words.toArray) ctx edges s = .ok outcome ∧
          Invocation.advance (R := R) (Invocation.wordAt words.toArray) ctx edges s.view =
            outcome.view) ∧
      ∃ count ≤ deviceIterations, execute (R := R) words offset ctx edges =
        .ok (count, Invocation.execute (R := R) words offset ctx edges) := by
  have hstart : State.Proper ⟨offset, .initial⟩ := ⟨hoffset, proper_initial⟩
  refine ⟨fun s hleads ↦ ?_, ?_⟩
  · have hs := proper_of_leads hedges hstart hleads
    obtain ⟨outcome, hadvance, -, hview⟩ := exists_advance (R := R) _ edges hedges hs
    exact ⟨hs.address, hs.arrays.values, hs.arrays.returns, outcome, hadvance, hview⟩
  · obtain ⟨count, hcount, hrun⟩ := exists_run (R := R) (Invocation.wordAt words.toArray) edges
      hedges deviceIterations hstart
    refine ⟨count, hcount, ?_⟩
    rw [execute, hrun]
    rfl

/-- Words that push one value more than there are slots. -/
def overflowingWords : List UInt32 := (List.replicate 17 [0x02, 0, 0, 0, 0]).flatten

/-- The last edges of the buffer. -/
def lastEdges : DeviceContext Single where
  bounds := ⟨⟨0⟩, ⟨0⟩, ⟨0⟩, ⟨0⟩⟩
  centroid := ⟨⟨0⟩, ⟨0⟩⟩
  area := ⟨0⟩
  hasCentroid := false
  minX := 0
  minY := 0
  maxX := 0
  maxY := 0
  edgeOffset := 4294967290
  edgeCount := 5
  premultiplied := true
  programOffset := 0

/-- An overflow is a fault, which has its color. -/
theorem execute_overflowingWords :
    0 < addressSpace ∧ lastEdges.edgeOffset + lastEdges.edgeCount < addressSpace ∧
      ∃ count ≤ deviceIterations,
        execute (R := Float) overflowingWords 0 lastEdges #[] = .ok (count, errorColor) := by
  have hoffset : 0 < addressSpace := by decide
  have hedges : lastEdges.edgeOffset + lastEdges.edgeCount < addressSpace := by decide
  have hcolor : Invocation.execute (R := Float) overflowingWords 0 lastEdges #[] = errorColor := rfl
  obtain ⟨-, count, hcount, hexecute⟩ :=
    execute_safe (R := Float) overflowingWords lastEdges #[] hoffset hedges
  rw [hcolor] at hexecute
  exact ⟨hoffset, hedges, count, hcount, hexecute⟩

end Guarded

end Shading
