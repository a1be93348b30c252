import Shading.Program.Basic
import Shading.Proofs.Exact.Scalars

/-!
# Programs that are alike

Numeric equality of exact numbers is equality, so kinds that are numerically equal are the same
(`Kind.eq_of_eq`). Programs are compared by name or by structure. If names tell nodes apart,
programs that are found equal differ in names only, and no analysis distinguishes them
(`fold_eq_of_eq`).
-/

namespace Shading

/-! ### Kinds -/

/-- Over the reals, points that are equal are the same. -/
theorem Point.eq_of_eq {p q : Point ℝ} (h : p.eq q = true) : p = q := by
  cases p
  cases q
  simpa [eq] using h

theorem Affine.eq_of_eq {m n : Affine ℝ} (h : m.eq n = true) : m = n := by
  cases m
  cases n
  simpa [eq, and_assoc] using h

theorem ColorFilter.eq_of_eq {m n : ColorFilter ℝ} (h : m.eq n = true) : m = n := by
  cases m
  cases n
  simpa [eq, Vec4.eq_iff, and_assoc] using h

namespace Kind

theorem eq_of_listEq {xs ys : List ℝ} (h : listEq xs ys = true) : xs = ys := by
  induction xs generalizing ys with
  | nil =>
    cases ys with
    | nil => rfl
    | cons y ys => cases h
  | cons x xs ih =>
    cases ys with
    | nil => cases h
    | cons y ys =>
      obtain ⟨hx, hxs⟩ := Bool.and_eq_true_iff.1 h
      rw [(scalar_beq x y).1 hx, ih hxs]

/-- Triples that are equal are the same, if their entries are. -/
theorem eq_of_tripleEq {A : Type} {eq : A → A → Bool} (lawful : ∀ a b, eq a b = true → a = b)
    {s t : Triple A} (h : tripleEq eq s t = true) : s = t := by
  cases s
  cases t
  simp only [tripleEq, Bool.and_eq_true] at h
  rw [lawful _ _ h.1.1, lawful _ _ h.1.2, lawful _ _ h.2]

/-- Depths that are equal are the same, present or absent. -/
theorem eq_of_depthsEq {s t : Option (Triple ℝ)} (h : Kind.eq.depthsEq s t = true) : s = t := by
  rcases s with - | s <;> rcases t with - | t
  · rfl
  · cases h
  · cases h
  · rw [eq_of_tripleEq (fun a b ↦ (scalar_beq a b).1) h]

/-- Kinds that are numerically equal are the same. -/
theorem eq_of_eq {k k' : Kind ℝ} (h : k.eq k' = true) : k = k' := by
  unfold eq at h
  -- Kinds with the same name, in the order of `Kind`, and then all other pairs.
  split at h
  · rw [(Vec4.eq_iff _ _).1 h]
  · rfl
  · rfl
  · rw [eq_of_beq h]
  · rw [(scalar_beq _ _).1 h]
  · rfl
  · rename_i ramp accuracy ramp' accuracy'
    obtain ⟨normal, offset⟩ := ramp
    obtain ⟨normal', offset'⟩ := ramp'
    simp only [Bool.and_eq_true, beq_iff_eq] at h
    obtain ⟨⟨hnormal, rfl⟩, rfl⟩ := h
    rw [Point.eq_of_eq hnormal]
  · simp only [Bool.and_eq_true, beq_iff_eq] at h
    obtain ⟨⟨⟨htransform, rfl⟩, rfl⟩, rfl⟩ := h
    rw [Affine.eq_of_eq htransform]
  · simp only [Bool.and_eq_true, beq_iff_eq] at h
    obtain ⟨⟨hcorners, hdepths⟩, rfl⟩ := h
    rw [eq_of_tripleEq (fun _ _ ↦ Point.eq_of_eq) hcorners, eq_of_depthsEq hdepths]
  · simp only [Bool.and_eq_true, beq_iff_eq] at h
    obtain ⟨⟨⟨⟨⟨htransform, hstart⟩, hstop⟩, hratios⟩, rfl⟩, rfl⟩ := h
    rw [Affine.eq_of_eq htransform, Point.eq_of_eq hstart, Point.eq_of_eq hstop,
      eq_of_listEq hratios]
  · simp only [Bool.and_eq_true, beq_iff_eq] at h
    obtain ⟨⟨⟨⟨⟨⟨⟨htransform, hstart⟩, rfl⟩, hstop⟩, rfl⟩, hratios⟩, rfl⟩, rfl⟩ := h
    rw [Affine.eq_of_eq htransform, Point.eq_of_eq hstart, Point.eq_of_eq hstop,
      eq_of_listEq hratios]
  · rw [ColorFilter.eq_of_eq h]
  · rw [(scalar_beq _ _).1 h]
  · simp only [Bool.and_eq_true, beq_iff_eq] at h
    rw [h.1, h.2]
  · rfl
  · rw [eq_of_beq h]
  · cases h

end Kind

/-! ### Programs -/

namespace Program

variable {ι α : Type} {sameName : ι → ι → Bool} {f : Kind ℝ → List α → α} {P : Program ι ℝ → Prop}

/-- What is computed of children that are equal is the same. -/
theorem map_fold_eq_of_eqEach {cs cs' : List (Program ι ℝ)}
    (each : ∀ c ∈ cs, ∀ q, P q → Program.eq sameName c q = true → c.fold f = q.fold f)
    (hq : ∀ c ∈ cs', P c) (h : eqEach sameName cs cs' = true) :
    cs.map (fold f) = cs'.map (fold f) := by
  induction cs generalizing cs' with
  | nil =>
    cases cs' with
    | nil => rfl
    | cons => cases h
  | cons c cs ih =>
    cases cs' with
    | nil => cases h
    | cons c' cs' =>
      obtain ⟨hc, hcs⟩ := Bool.and_eq_true_iff.1 h
      rw [List.forall_mem_cons] at each hq
      rw [List.map_cons, List.map_cons, each.1 c' hq.1 hc, ih each.2 hq.2 hcs]

/-- Programs that are found equal have the same answers, if equal names are only found on programs
that do. -/
theorem fold_eq_of_eq (within : ∀ n k cs, P (node n k cs) → ∀ c ∈ cs, P c)
    (names : ∀ p q, P p → P q → sameName p.name q.name = true → p.fold f = q.fold f)
    {p q : Program ι ℝ} (hp : P p) (hq : P q) (h : Program.eq sameName p q = true) :
    p.fold f = q.fold f := by
  induction p using Program.induct generalizing q with
  | node n k cs ih =>
    obtain ⟨n', k', cs'⟩ := q
    rw [Program.eq] at h
    rcases Bool.or_eq_true_iff.1 h with hname | h
    · exact names _ _ hp hq hname
    · obtain ⟨hkind, hchildren⟩ := Bool.and_eq_true_iff.1 h
      have heach := map_fold_eq_of_eqEach (f := f) (P := P)
        (fun c hc q hq ↦ ih c hc (within _ _ _ hp c hc) hq) (within _ _ _ hq) hchildren
      rw [fold_node, fold_node, Kind.eq_of_eq hkind, heach]

end Program

end Shading
