/-!
# Computations that may fail

How a computation that is made of others succeeds: when all of them do, each going on from what the
one before it leaves.
-/

namespace Shading

variable {ε σ α β : Type}

/-- After a computation that succeeds, the rest goes on from the state that it leaves. -/
theorem bind_apply_of_ok {x : ExceptT ε (StateM σ) α} {f : α → ExceptT ε (StateM σ) β} {s t : σ}
    {a : α} (h : x s = (.ok a, t)) : (x >>= f) s = f a t := by
  show (match x s with
    | (r, t) => (ExceptT.bindCont f r : StateM σ _) t) = _
  rw [h]
  rfl

/-- A computation that fails in its first part leaves what that leaves. -/
theorem bind_apply_of_failed {x : ExceptT ε (StateM σ) α} {f : α → ExceptT ε (StateM σ) β}
    {s t : σ} {e : ε} (h : x s = (.error e, t)) : (x >>= f) s = (.error e, t) := by
  show (match x s with
    | (r, t) => (ExceptT.bindCont f r : StateM σ _) t) = _
  rw [h]
  rfl

/-- A computation that fails in its first part fails. -/
theorem bind_apply_of_error {x : ExceptT ε (StateM σ) α} {f : α → ExceptT ε (StateM σ) β} {s : σ}
    {e : ε} (h : (x s).1 = .error e) : ((x >>= f) s).1 = .error e := by
  rw [bind_apply_of_failed (Prod.ext h (Eq.refl (x s).2))]

/-- How a computation made of two ends, if it succeeds. -/
theorem bind_apply_eq_ok_iff {x : ExceptT ε (StateM σ) α} {f : α → ExceptT ε (StateM σ) β} {s u : σ}
    {b : β} : (x >>= f) s = (.ok b, u) ↔ ∃ a t, x s = (.ok a, t) ∧ f a t = (.ok b, u) := by
  show (match x s with
    | (r, t) => (ExceptT.bindCont f r : StateM σ _) t) = _ ↔ _
  rcases x s with ⟨cause | a, t⟩
  · exact ⟨nofun, nofun⟩
  · exact ⟨fun h ↦ ⟨a, t, rfl, h⟩, fun ⟨_, _, heq, h⟩ ↦ by cases heq; exact h⟩

/-- What holds of the state after the first of two computations, if that fails, and after the second
holds after both. -/
theorem bind_apply_snd {x : ExceptT ε (StateM σ) α} {f : α → ExceptT ε (StateM σ) β} {s : σ}
    {P : σ → Prop} (hx : P (x s).2) (hf : ∀ a, P (f a (x s).2).2) : P ((x >>= f) s).2 := by
  show P (match x s with
    | (r, t) => (ExceptT.bindCont f r : StateM σ _) t).2
  rcases hr : x s with ⟨cause | a, t⟩
  · rw [hr] at hx
    exact hx
  · rw [hr] at hf
    exact hf a

/-- A computation in two steps succeeds exactly if both steps do. -/
theorem bind_eq_ok_iff {x : Except ε α} {f : α → Except ε β} {b : β} :
    (x >>= f) = .ok b ↔ ∃ a, x = .ok a ∧ f a = .ok b := by
  rcases x with cause | a
  · exact ⟨nofun, nofun⟩
  · refine ⟨fun h ↦ ⟨a, rfl, h⟩, fun ⟨a', ha, h⟩ ↦ ?_⟩
    cases ha
    exact h

/-- Of two checks, the second is made if the first passes. -/
theorem check_bind_eq_ok_iff {x : Except ε Unit} {f : Unit → Except ε α} {a : α} :
    (x >>= f) = .ok a ↔ x = .ok () ∧ f () = .ok a := by
  rcases x with - | ⟨⟩
  · exact ⟨nofun, nofun⟩
  · exact ⟨fun h ↦ ⟨rfl, h⟩, fun h ↦ h.2⟩

end Shading
