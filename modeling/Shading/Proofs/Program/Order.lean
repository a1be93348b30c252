import Shading.Proofs.Numbers
import Shading.Proofs.Program.Coverage

/-!
# The order of coverages

Coverages are ordered by what they tell (`Coverage.Le`), and that of a node can only tell more if
those of its children do (`Kind.coverage_mono`). On formed programs they exclude each other: none is
flagged as transparent and as opaque (`Program.exclusive_of_formed`). Here the numbers of children
matter, since a mixture of no colors at all would be both.
-/

namespace Shading

namespace Coverage

/-- What is known to be transparent is not known to be opaque. -/
def Exclusive (c : Coverage) : Prop := c.transparent = true → c.covers = false

/-- Whatever the first coverage tells, the second one tells as well. -/
structure Le (c d : Coverage) : Prop where
  transparent : c.transparent = true → d.transparent = true
  covers : c.covers = true → d.covers = true

variable {c : Coverage}

theorem Le.refl (c : Coverage) : c.Le c := ⟨id, id⟩

theorem and_mono {a a' b b' : Bool} (ha : a = true → a' = true) (hb : b = true → b' = true) :
    (a && b) = true → (a' && b') = true :=
  fun h ↦ Bool.and_eq_true_iff.2 ((Bool.and_eq_true_iff.1 h).imp ha hb)

theorem or_mono {a a' b b' : Bool} (ha : a = true → a' = true) (hb : b = true → b' = true) :
    (a || b) = true → (a' || b') = true :=
  fun h ↦ Bool.or_eq_true_iff.2 ((Bool.or_eq_true_iff.1 h).imp ha hb)

/-- No node is flagged as both. -/
theorem exclusive_iff : c.Exclusive ↔ ¬(c.transparent = true ∧ c.covers = true) := by
  rw [Exclusive, not_and, Bool.not_eq_true]

end Coverage

/-- The flags of children tell more and more, one by one. -/
abbrev TellMore : List Flags → List Flags → Prop :=
  List.Forall₂ fun f g ↦ f.coverage.Le g.coverage

variable {fs gs : List Flags}

open Coverage

/-! ### Telling more -/

/-- A child that is not there is flagged as nothing on both sides. -/
theorem TellMore.child (h : TellMore fs gs) (i : Nat) :
    (fs[i]?.getD {}).coverage.Le (gs[i]?.getD {}).coverage := by
  induction h generalizing i with
  | nil => exact .refl _
  | cons hfirst _ ih =>
    cases i with
    | zero => exact hfirst
    | succ i => exact ih i

/-- Flags may be compared child by child. -/
theorem tellMore_map {α : Type} {xs : List α} {f g : α → Flags}
    (h : ∀ x ∈ xs, (f x).coverage.Le (g x).coverage) : TellMore (xs.map f) (xs.map g) :=
  List.forall₂_map_left_iff.2 (List.forall₂_map_right_iff.2 (List.forall₂_same.2 h))

section

variable {flag : Flags → Bool}

/-- What all flags say, more telling ones say too. -/
theorem all_mono (h : TellMore fs gs)
    (mono : ∀ f g : Flags, f.coverage.Le g.coverage → flag f = true → flag g = true)
    (all : fs.all flag = true) : gs.all flag = true := by
  induction h with
  | nil => rfl
  | cons hfirst _ ih =>
    rw [List.all_cons] at all ⊢
    exact and_mono (mono _ _ hfirst) ih all

/-- What some flag says, a more telling one says too. -/
theorem any_mono (h : TellMore fs gs)
    (mono : ∀ f g : Flags, f.coverage.Le g.coverage → flag f = true → flag g = true)
    (any : fs.any flag = true) : gs.any flag = true := by
  induction h with
  | nil => exact any
  | cons hfirst _ ih =>
    rw [List.any_cons] at any ⊢
    exact or_mono (mono _ _ hfirst) ih any

end

theorem all_le (h : TellMore fs gs) :
    Coverage.Le ⟨fs.all (·.transparent), fs.all (·.covers)⟩
      ⟨gs.all (·.transparent), gs.all (·.covers)⟩ :=
  ⟨all_mono h fun _ _ hf ↦ hf.transparent, all_mono h fun _ _ hf ↦ hf.covers⟩

/-- More telling flags of the operands tell more of the composition. -/
theorem Compose.coverage_mono {a a' b b' : Flags} (ha : a.coverage.Le a'.coverage)
    (hb : b.coverage.Le b'.coverage) (compose : Compose) :
    (compose.coverage a b).Le (compose.coverage a' b') := by
  obtain ⟨hta, hca⟩ : (a.transparent = true → a'.transparent = true) ∧
      (a.covers = true → a'.covers = true) := ⟨ha.transparent, ha.covers⟩
  obtain ⟨htb, hcb⟩ : (b.transparent = true → b'.transparent = true) ∧
      (b.covers = true → b'.covers = true) := ⟨hb.transparent, hb.covers⟩
  match compose with
  | .over | .plusLighter => exact ⟨and_mono hta htb, or_mono hca hcb⟩
  | .inside => exact ⟨or_mono hta htb, and_mono hca hcb⟩
  | .outside => exact ⟨or_mono hta hcb, and_mono hca htb⟩
  | .atop => exact ⟨htb, hcb⟩
  | .xor =>
    exact ⟨or_mono (and_mono hta htb) (and_mono hca hcb),
      or_mono (and_mono hca htb) (and_mono hta hcb)⟩
  | .plus => exact ⟨and_mono hta htb, or_mono (and_mono hca htb) (and_mono hta hcb)⟩

namespace Kind

variable {R : Type} [Scalar R]

/-- The coverage of a node tells more if those of its children do. -/
theorem coverage_mono (k : Kind R) (h : TellMore fs gs) :
    (k.coverage fs).Le (k.coverage gs) := by
  have hchild := h.child 0
  cases k with
  | color c => exact .refl _
  | premultiply | unpremultiply | convert => exact hchild
  | alpha factor => exact ⟨or_mono id hchild.transparent, and_mono id hchild.covers⟩
  | normalize => exact ⟨hchild.transparent, nofun⟩
  | filter m => exact .refl _
  | linearBlend | radialBlend | barycentricBlend | linearGradient | pathBoolean => exact all_le h
  | radialGradient => exact ⟨(all_le h).transparent, and_mono (all_le h).covers id⟩
  | phong shininess => exact ⟨nofun, hchild.covers⟩
  | blendCompose compose blend => exact compose.coverage_mono hchild (h.child 1)
  | stack => exact ⟨(all_le h).transparent, any_mono h fun _ _ hf ↦ hf.covers⟩

end Kind

/-! ### Transparent or opaque -/

/-- If all children are transparent, none is opaque. -/
theorem any_covers_eq_false (h : ∀ f ∈ fs, f.coverage.Exclusive)
    (all : fs.all (·.transparent) = true) : fs.any (·.covers) = false := by
  rw [List.any_eq_false]
  exact fun f hf ↦ Bool.eq_false_iff.1 (h f hf (List.all_eq_true.1 all f hf))

/-- Mixtures of at least one color. -/
theorem all_exclusive (h : ∀ f ∈ fs, f.coverage.Exclusive) (pos : 0 < fs.length) :
    Coverage.Exclusive ⟨fs.all (·.transparent), fs.all (·.covers)⟩ := by
  intro all
  obtain ⟨f, hf⟩ := List.exists_mem_of_length_pos pos
  have hcovers : f.covers = false := h f hf (List.all_eq_true.1 all f hf)
  exact List.all_eq_false.2 ⟨f, hf, Bool.eq_false_iff.1 hcovers⟩

/-- A composition of operands that are flagged as one thing at most is flagged as one thing at most.
-/
theorem Compose.coverage_exclusive {a b : Flags} (ha : a.coverage.Exclusive)
    (hb : b.coverage.Exclusive) (compose : Compose) : (compose.coverage a b).Exclusive := by
  rw [Coverage.exclusive_iff] at *
  obtain ⟨ha, hb⟩ : ¬(a.transparent = true ∧ a.covers = true) ∧
      ¬(b.transparent = true ∧ b.covers = true) := ⟨ha, hb⟩
  cases compose <;> simp only [coverage] <;> grind

variable {R : Type} [Scalar R] [DistinctUnits R]

/-- The coverage of a node with as many children as its kind accepts is exclusive if those of the
children are. -/
theorem Kind.coverage_exclusive {k : Kind R} (accepts : k.Accepts fs.length)
    (h : ∀ f ∈ fs, f.coverage.Exclusive) : (k.coverage fs).Exclusive := by
  have hchild (i : Nat) (hi : i < fs.length) : (fs[i]?.getD {}).coverage.Exclusive := by
    rw [List.getElem?_eq_getElem hi]
    exact h _ (List.getElem_mem hi)
  cases k with
  | color c =>
    intro hzero
    have hw : (c.w == 0) = true := (Bool.and_eq_true_iff.1 hzero).2
    exact DistinctUnits.ne_one hw
  | premultiply | unpremultiply | convert => exact hchild 0 (accepts ▸ Nat.one_pos)
  | alpha factor =>
    intro ht
    refine Bool.and_eq_false_iff.2 ((Bool.or_eq_true_iff.1 ht).imp DistinctUnits.ne_one ?_)
    exact hchild 0 (accepts ▸ Nat.one_pos)
  | normalize | filter => exact fun _ ↦ rfl
  | linearBlend | radialBlend | barycentricBlend | pathBoolean =>
    exact all_exclusive h (accepts ▸ Nat.succ_pos _)
  | linearGradient => exact all_exclusive h accepts.2.1
  | radialGradient =>
    exact fun ht ↦ Bool.and_eq_false_iff.2 (.inl (all_exclusive h accepts.2.1 ht))
  | phong shininess => exact nofun
  | blendCompose compose blend =>
    have hlength : fs.length = 2 := accepts
    exact compose.coverage_exclusive (hchild 0 (by omega)) (hchild 1 (by omega))
  | stack => exact any_covers_eq_false h

namespace Program

variable {ι : Type} {p : Program ι R}

/-- No formed program is flagged as transparent and as opaque. -/
theorem exclusive_of_formed (formed : p.Formed) : p.flags.coverage.Exclusive := by
  induction formed with
  | @node n k cs accepts _ ih =>
    rw [flags_node]
    refine Kind.coverage_exclusive (by rwa [List.length_map]) fun f hf ↦ ?_
    obtain ⟨c, hc, rfl⟩ := List.mem_map.1 hf
    exact ih c hc

end Program

end Shading
