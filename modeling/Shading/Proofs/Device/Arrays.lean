import Shading.Code.Encode
import Shading.Device.Invocation

/-!
# Stacks in arrays

The stacks of an invocation as the device holds them: arrays of a fixed size, in which a pointer
tells how many slots are in use. What was popped stays in its slot until something is pushed over
it.

Every use of an array is guarded here. One that goes wrong is not a fault of the invocation, which
has its color, but a violation, which has no meaning on the device at all (`Violation`); and a
pointer that leaves the array is one at once, even if nothing is read there. An operation refines
one on lists if it never ends in a violation and does the same to the slots in use (`Refines`). This
passes through sequences, and so the guards can be placed where the device computes an index or an
address, and be seen to stay closed one operation at a time.
-/

namespace Shading

/-- What a device must not do. -/
inductive Violation where
  /-- A sum of addresses does not fit a word. -/
  | address (sum : Nat)
  /-- A pointer leaves the array of its stack. -/
  | pointer (pointer : Nat)
  /-- A slot that an array does not have. -/
  | slot (index : Nat)
  /-- A part of an array that ends before it starts, or past the array. -/
  | slice (start stop : Nat)
  /-- An input of the lighting that was not given. -/
  | input
  /-- A stop that a gradient does not have. -/
  | stop (index count : Nat)
deriving DecidableEq, Repr

/-- What a guarded computation ends with: a violation, a fault, or a value. -/
abbrev Verdict := OptionT (Except Violation)

/-- A guarded operation on a state. -/
abbrev Guarded (σ : Type) := StateT σ Verdict

variable {σ ρ τ α β : Type}

namespace Guarded

def violate (cause : Violation) : Guarded σ α := fun _ ↦ .mk (.error cause)

def fault : Guarded σ α := fun _ ↦ .mk (.ok none)

/-- The value, or a fault if there is none. -/
def get? (a : Option α) : Guarded σ α := fun s ↦ .mk (.ok (a.map fun a ↦ (a, s)))

/-- After an operation with a value, the rest goes on from the state that it leaves. -/
theorem bind_apply {m : Guarded σ α} {f : α → Guarded σ β} {s t : σ} {a : α}
    (h : m s = pure (a, t)) : (m >>= f) s = f a t := by
  show (m s >>= fun p ↦ f p.1 p.2) = _
  rw [h, pure_bind]

end Guarded

/-! ### Refinement -/

section Refinement

variable (proper : σ → Prop) (view : σ → ρ) (post : α → Prop)

/-- There is no violation, and the same answer, of the expected kind. A state that is left is
proper, and seen as the other one. -/
def Agrees (x : Verdict (α × σ)) (y : Option (α × ρ)) : Prop :=
  ∃ out, x = .mk (.ok out) ∧ y = out.map (fun p ↦ (p.1, view p.2)) ∧
    ∀ p ∈ out, proper p.2 ∧ post p.1

/-- The guarded operation does to proper states what another one does to what is seen of them. -/
def Refines (m : Guarded σ α) (d : StateT ρ Option α) : Prop :=
  ∀ s, proper s → Agrees proper view post (m s) (d (view s))

end Refinement

section Agrees

variable {proper : σ → Prop} {view : σ → ρ} {post : α → Prop} {a : α} {s : σ}

theorem agrees_fault : Agrees proper view post (.mk (.ok none)) none := ⟨none, rfl, rfl, nofun⟩

theorem agrees_some (hs : proper s) (ha : post a) :
    Agrees proper view post (.mk (.ok (some (a, s)))) (some (a, view s)) :=
  ⟨some (a, s), rfl, rfl, fun _ hp ↦ by cases hp; exact ⟨hs, ha⟩⟩

namespace Refines

theorem pure (ha : post a) : Refines proper view post (pure a) (pure a) :=
  fun _ hs ↦ agrees_some hs ha

/-- Refining a computation is refining all that are equal to it. -/
theorem of_eq {m : Guarded σ α} {d d' : StateT ρ Option α} (h : Refines proper view post m d)
    (heq : ∀ r, d r = d' r) : Refines proper view post m d' := fun s hs ↦ heq (view s) ▸ h s hs

theorem bind {m : Guarded σ α} {d : StateT ρ Option α} {f : α → Guarded σ β}
    {e : α → StateT ρ Option β} {last : β → Prop} (hm : Refines proper view post m d)
    (hf : ∀ a, post a → Refines proper view last (f a) (e a)) :
    Refines proper view last (m >>= f) (d >>= e) := by
  intro s hs
  obtain ⟨out, hout, hd, hproper⟩ := hm s hs
  show Agrees proper view last (m s >>= fun p ↦ f p.1 p.2) (d (view s) >>= fun p ↦ e p.1 p.2)
  rw [hout, hd]
  cases out with
  | none => exact agrees_fault
  | some p =>
    obtain ⟨hleft, hp⟩ := hproper p rfl
    exact hf p.1 hp p.2 hleft

end Refines

end Agrees

/-! ### One stack -/

/-- A stack in an array. -/
structure FixedStack (α : Type) where
  slots : Vector α deviceStackSize
  /-- The number of slots in use, and the first one that is not. -/
  pointer : Nat

namespace FixedStack

/-- The values in use, the top in front. -/
def contents (s : FixedStack α) : List α := (s.slots.toList.take s.pointer).reverse

/-- The pointer has not left the array. -/
def Within (s : FixedStack α) : Prop := s.pointer ≤ deviceStackSize

/-- A stack within its bounds shows as many values as its pointer says. -/
theorem length_contents {s : FixedStack α} (within : s.Within) : s.contents.length = s.pointer := by
  rw [contents, List.length_reverse, List.length_take, Vector.length_toList]
  exact Nat.min_eq_left within

def moveTo (pointer : Nat) : Guarded (FixedStack α) Unit := fun s ↦
  if pointer ≤ deviceStackSize then pure ((), { s with pointer })
  else Guarded.violate (.pointer pointer) s

def read (i : Nat) : Guarded (FixedStack α) α := fun s ↦
  match s.slots[i]? with
  | some value => pure (value, s)
  | none => Guarded.violate (.slot i) s

/-- The values in the slots from one on and before another. -/
def slice (start stop : Nat) : Guarded (FixedStack α) (List α) := fun s ↦
  if start ≤ stop ∧ stop ≤ deviceStackSize then
    pure ((s.slots.toList.take stop).drop start, s)
  else Guarded.violate (.slice start stop) s

def push (value : α) : Guarded (FixedStack α) Unit := fun s ↦
  if h : s.pointer < deviceStackSize then
    moveTo (s.pointer + 1) { s with slots := s.slots.set s.pointer value }
  else Guarded.fault s

def pop : Guarded (FixedStack α) α := fun s ↦
  if s.pointer = 0 then Guarded.fault s
  else (do moveTo (s.pointer - 1); read (s.pointer - 1)) s

/-- The topmost value, which stays. -/
def peek : Guarded (FixedStack α) α := fun s ↦
  if s.pointer = 0 then Guarded.fault s else read (s.pointer - 1) s

/-- The topmost values, as many as asked for, the deepest first. -/
def popMany (count : Nat) : Guarded (FixedStack α) (List α) := fun s ↦
  if s.pointer < count then Guarded.fault s
  else
    (do
      let values ← slice (s.pointer - count) s.pointer
      moveTo (s.pointer - count)
      return values) s

/-! ### What the operations do to the values in use -/

theorem moveTo_apply {pointer : Nat} (h : pointer ≤ deviceStackSize) (s : FixedStack α) :
    moveTo pointer s = pure ((), { s with pointer }) := if_pos h

theorem read_apply {s : FixedStack α} {i : Nat} (h : i < deviceStackSize) :
    read i s = pure (s.slots[i], s) := by
  rw [read, Vector.getElem?_eq_getElem h]

theorem slice_apply {s : FixedStack α} {start stop : Nat}
    (h : start ≤ stop ∧ stop ≤ deviceStackSize) :
    slice start stop s = pure ((s.slots.toList.take stop).drop start, s) := if_pos h

/-- Above an empty stack, the contents are the topmost slot and what is below. -/
theorem contents_succ {s : FixedStack α} {n : Nat} (hpointer : s.pointer = n + 1)
    (h : n < deviceStackSize) : s.contents = s.slots[n] :: ({ s with pointer := n }).contents := by
  rw [contents, hpointer, List.take_add_one, List.getElem?_eq_getElem (by simpa using h)]
  simp [contents]

/-- A value is stored above the contents. -/
theorem contents_push {s : FixedStack α} (value : α) (h : s.pointer < deviceStackSize) :
    (FixedStack.mk (s.slots.set s.pointer value) (s.pointer + 1)).contents =
      value :: s.contents := by
  rw [contents_succ rfl h, contents, contents, Vector.getElem_set_self, Vector.toList_set,
    List.take_set_of_le (Nat.le_refl _)]

/-- Pushing onto slots is pushing onto a list of bounded length. -/
theorem refines_push (value : α) :
    Refines Within contents (fun _ ↦ True) (push value) fun l ↦
      if l.length < deviceStackSize then some ((), value :: l) else none := by
  intro s hs
  rw [push]
  simp only [length_contents hs]
  by_cases h : s.pointer < deviceStackSize
  · rw [dif_pos h, if_pos h, moveTo_apply h, ← contents_push value h]
    exact agrees_some h trivial
  · rw [dif_neg h, if_neg h]
    exact agrees_fault

/-- Without a pointer there are no contents. -/
theorem contents_eq_nil {s : FixedStack α} (h : s.pointer = 0) : s.contents = [] := by
  rw [contents, h]
  rfl

/-- Popping from slots is popping from the list of their contents. -/
theorem refines_pop :
    Refines Within contents (fun _ ↦ True) (pop (α := α)) fun
      | [] => none
      | value :: rest => some (value, rest) := by
  intro s hs
  rw [pop]
  rcases hpointer : s.pointer with - | n
  · rw [if_pos rfl, contents_eq_nil hpointer]
    exact agrees_fault
  · have hn : n < deviceStackSize := by rwa [Within, hpointer] at hs
    rw [if_neg (Nat.succ_ne_zero n), contents_succ hpointer hn, Nat.add_sub_cancel,
      Guarded.bind_apply (moveTo_apply (Nat.le_of_lt hn) s), read_apply hn]
    exact agrees_some (Nat.le_of_lt hn) trivial

/-- Peeking at slots is peeking at the list of their contents. -/
theorem refines_peek :
    Refines Within contents (fun _ ↦ True) (peek (α := α)) fun l ↦
      l.head?.map fun value ↦ (value, l) := by
  intro s hs
  rw [peek]
  rcases hpointer : s.pointer with - | n
  · rw [if_pos rfl, contents_eq_nil hpointer]
    exact agrees_fault
  · have hn : n < deviceStackSize := by rwa [Within, hpointer] at hs
    rw [if_neg (Nat.succ_ne_zero n), Nat.add_sub_cancel, read_apply hn]
    have hhead : s.contents.head? = some s.slots[n] := by rw [contents_succ hpointer hn]; rfl
    simp only [hhead]
    exact agrees_some hs trivial

/-- Popping several values from slots is taking them from the list, all or none. -/
theorem refines_popMany (count : Nat) :
    Refines Within contents (fun values ↦ values.length = count) (popMany (α := α) count) fun l ↦
      if l.length < count then none else some ((l.take count).reverse, l.drop count) := by
  intro s hs
  rw [popMany]
  simp only [length_contents hs]
  by_cases h : s.pointer < count
  · rw [if_pos h, if_pos h]
    exact agrees_fault
  · have hle : s.pointer - count ≤ deviceStackSize := Nat.le_trans (Nat.sub_le ..) hs
    rw [if_neg h, if_neg h, Guarded.bind_apply (slice_apply ⟨Nat.sub_le .., hs⟩),
      Guarded.bind_apply (moveTo_apply hle s)]
    have hlength : (s.slots.toList.take s.pointer).length = s.pointer := by
      rw [← List.length_reverse, ← contents, length_contents hs]
    have htaken : (s.contents.take count).reverse =
        (s.slots.toList.take s.pointer).drop (s.pointer - count) := by
      rw [contents, List.take_reverse, List.reverse_reverse, hlength]
    have hleft : s.contents.drop count =
        ({ s with pointer := s.pointer - count } : FixedStack α).contents := by
      rw [contents, List.drop_reverse, hlength, List.take_take,
        Nat.min_eq_left (Nat.sub_le ..), contents]
    have hcount : ((s.slots.toList.take s.pointer).drop (s.pointer - count)).length = count := by
      rw [List.length_drop, hlength]
      omega
    rw [htaken, hleft]
    exact agrees_some hle hcount

end FixedStack

/-! ### Both stacks -/

/-- The stacks of an invocation. -/
structure Arrays where
  values : FixedStack (Vec4 Single)
  returns : FixedStack Nat

namespace Arrays

/-- Zeros in all slots, and none of them in use. -/
def initial : Arrays :=
  ⟨⟨.replicate deviceStackSize (.splat ⟨0⟩), 0⟩, ⟨.replicate deviceStackSize 0, 0⟩⟩

/-- Neither pointer has left its array, and the addresses in use fit a word. -/
structure Proper (a : Arrays) : Prop where
  values : a.values.Within
  returns : a.returns.Within
  addresses : ∀ address ∈ a.returns.contents, address < addressSpace

/-- The machine starts within its bounds. -/
theorem proper_initial : initial.Proper := ⟨Nat.zero_le _, Nat.zero_le _, nofun⟩

/-- The values and the addresses in use. -/
def registers (a : Arrays) : Registers := ⟨a.values.contents, a.returns.contents⟩

/-- The operation is safe, does to the arrays what another one does to registers, and gives what is
expected. -/
abbrev Safe (m : Guarded Arrays α) (d : DeviceM α) (post : α → Prop) : Prop :=
  Refines Proper registers post m d

def onValues (m : Guarded (FixedStack (Vec4 Single)) α) : Guarded Arrays α := fun a ↦
  m a.values >>= fun p ↦ pure (p.1, { a with values := p.2 })

def onReturns (m : Guarded (FixedStack Nat) α) : Guarded Arrays α := fun a ↦
  m a.returns >>= fun p ↦ pure (p.1, { a with returns := p.2 })

/-- What is refined on the stack of values is safe on both stacks. -/
theorem safe_onValues {m : Guarded (FixedStack (Vec4 Single)) α}
    {d : List (Vec4 Single) → Option (α × List (Vec4 Single))} {post : α → Prop}
    (h : Refines FixedStack.Within FixedStack.contents post m d) :
    Safe (onValues m) (fun r ↦ (d r.values).map fun p ↦ (p.1, { r with values := p.2 })) post := by
  intro a ha
  obtain ⟨out, hout, hd, hwithin⟩ := h a.values ha.values
  show Agrees _ _ _ (m a.values >>= _) ((d a.values.contents).map _)
  rw [hout, hd]
  cases out with
  | none => exact agrees_fault
  | some p =>
    obtain ⟨hvalues, hp⟩ := hwithin p rfl
    have left : ({ a with values := p.2 } : Arrays).Proper := ⟨hvalues, ha.returns, ha.addresses⟩
    exact agrees_some left hp

/-- An operation on the addresses in use must not bring in others that do not fit a word. -/
theorem safe_onReturns {m : Guarded (FixedStack Nat) α} {d : List Nat → Option (α × List Nat)}
    {post : α → Prop} (h : Refines FixedStack.Within FixedStack.contents (fun _ ↦ True) m d)
    (keeps : ∀ l x l', (∀ address ∈ l, address < addressSpace) → d l = some (x, l') →
      post x ∧ ∀ address ∈ l', address < addressSpace) :
    Safe (onReturns m) (fun r ↦ (d r.returns).map fun p ↦ (p.1, { r with returns := p.2 }))
      post := by
  intro a ha
  obtain ⟨out, hout, hd, hwithin⟩ := h a.returns ha.returns
  have hkept := keeps a.returns.contents
  show Agrees _ _ _ (m a.returns >>= _) ((d a.returns.contents).map _)
  rw [hd] at hkept
  rw [hout, hd]
  cases out with
  | none => exact agrees_fault
  | some p =>
    obtain ⟨hp, haddresses⟩ := hkept p.1 p.2.contents ha.addresses rfl
    have left : ({ a with returns := p.2 } : Arrays).Proper :=
      ⟨ha.values, (hwithin p rfl).1, haddresses⟩
    exact agrees_some left hp

theorem safe_pushSingle (value : Vec4 Single) :
    Safe (onValues (FixedStack.push value)) (Invocation.pushSingle value) fun _ ↦ True :=
  (safe_onValues (FixedStack.refines_push value)).of_eq fun r ↦ by
    rw [Invocation.pushSingle]
    split <;> rfl

theorem safe_popSingle : Safe (onValues FixedStack.pop) Invocation.popSingle fun _ ↦ True :=
  (safe_onValues FixedStack.refines_pop).of_eq fun r ↦ by
    rw [Invocation.popSingle]
    cases r.values <;> rfl

theorem safe_peekSingle : Safe (onValues FixedStack.peek) Invocation.peekSingle fun _ ↦ True :=
  (safe_onValues FixedStack.refines_peek).of_eq fun r ↦ by
    rw [Invocation.peekSingle, Option.map_map]
    rfl

theorem safe_popMany {R : Type} [Rounding R Single] (count : Nat) :
    Safe (do return (← onValues (FixedStack.popMany count)).map (Vec4.map widen))
      (Invocation.popMany (R := R) count) fun inputs ↦ inputs.length = count := by
  refine Refines.of_eq (Refines.bind (safe_onValues (FixedStack.refines_popMany count))
    fun values hcount ↦ Refines.pure ((List.length_map _).trans hcount)) fun r ↦ ?_
  rw [Invocation.popMany]
  show (Option.map _ (if r.values.length < count then none else _)).bind _ = _
  split <;> rfl

/-- An address is pushed without a violation, and it fits. -/
theorem safe_pushReturn {address : Nat} (fits : address < addressSpace) :
    Safe (onReturns (FixedStack.push address)) (Invocation.pushReturn address) fun _ ↦ True := by
  refine (safe_onReturns (FixedStack.refines_push address) fun l _ l' hl h ↦ ?_).of_eq fun r ↦ ?_
  · split at h
    · cases h
      exact ⟨trivial, List.forall_mem_cons.2 ⟨fits, hl⟩⟩
    · cases h
  · rw [Invocation.pushReturn]
    split <;> rfl

/-- An address that is popped fits, since it was pushed. -/
theorem safe_popReturn :
    Safe (onReturns FixedStack.pop) Invocation.popReturn fun address ↦ address < addressSpace := by
  refine (safe_onReturns FixedStack.refines_pop fun l x l' hl h ↦ ?_).of_eq fun r ↦ ?_
  · cases l with
    | nil => cases h
    | cons address rest =>
      cases h
      exact List.forall_mem_cons.1 hl
  · rw [Invocation.popReturn]
    cases r.returns <;> rfl

end Arrays

end Shading
