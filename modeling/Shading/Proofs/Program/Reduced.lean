import Shading.Proofs.Program.Coherence
import Shading.Proofs.Program.Shape

/-!
# Reduced programs

What it means for the shape of a node that no rule applies to it (`Program.Reduced`). The rules look
at nodes that have as many children as their kind accepts, as all nodes of a valid program do
(`Program.Formed`), and simplification leaves it so.
-/

namespace Shading

variable {ι R : Type}

/-! ### Numbers of children -/

namespace Program

variable {p q : Program ι R}

/-- A formed node has as many children as its kind accepts. -/
theorem Formed.accepts (h : p.Formed) : p.kind.Accepts p.children.length := by
  obtain ⟨haccepts, -⟩ := h
  exact haccepts

theorem Formed.of_mem {c : Program ι R} (h : p.Formed) (hc : c ∈ p.children) : c.Formed := by
  obtain ⟨-, hchildren⟩ := h
  exact hchildren c hc

theorem Formed.of_part (h : p.Formed) (part : q.Part p) : q.Formed :=
  part.of_within (fun _ _ _ hnode _ ↦ hnode.of_mem) h

end Program

variable [ColorModel R] {same : Program ι R → Program ι R → Bool} {p : Program ι R}
  {cs : List (Program ι R)}

/-- What takes the place of a node is formed as the node is. -/
theorem formed_of_reduce? {r : Replacement ι R} {m : ι} (formed : p.Formed)
    (h : reduce? same p = some r) : (r.program m).Formed := by
  have hparts := parts_of_reduce? h
  have of_child : ∀ q : Program ι R, (∃ c ∈ p.children, q.Part c) → q.Formed := by
    rintro q ⟨c, hc, part⟩
    exact (formed.of_mem hc).of_part part
  cases r with
  | existing q => exact of_child q hparts
  | fresh k ds =>
    refine .node ?_ fun d hd ↦ of_child d (hparts d hd)
    rcases fresh_of_reduce? h with ⟨color, rfl, rfl, -⟩ | ⟨rfl, -, -⟩ |
      ⟨outer, inner, l, rfl, -, hchildren, -⟩
    · rfl
    · trivial
    · exact (formed.of_mem (hchildren ▸ List.mem_cons_self)).accepts

theorem settling_formed : Settling fun p q : Shared R ↦ p.Formed → q.Formed where
  refl _ h := h
  trans hpq hqr h := hqr (hpq h)
  node hchildren _ formed := by
    obtain ⟨haccepts, hcs⟩ := formed
    rw [hchildren.length_eq] at haccepts
    have hds := (List.forall₂_and_left _ _).2 ⟨hcs, hchildren⟩
    exact .node haccepts (forall_mem_of_forall₂ hds fun _ _ h ↦ h.2 h.1)
  reduce _ _ h formed := formed_of_reduce? formed h

/-! ### Nodes that no rule applies to -/

/-- The node does nothing that a rule would leave out. -/
structure Program.Reduced (p : Program ι R) : Prop where
  /-- A stack has at least two layers. -/
  layers : p.kind.isStack = true → 2 ≤ p.children.length
  /-- No layer is a stack. -/
  flat : p.kind.isStack = true → ∀ c ∈ p.children, c.kind.isStack = false
  /-- No layer is transparent. -/
  visible : p.kind.isStack = true → ∀ c ∈ p.children, c.isTransparent = false
  /-- Only the layer at the bottom may be opaque. -/
  uncovered : p.kind.isStack = true → ∀ c ∈ p.children.tail, c.isOpaque = false
  /-- No factor is one. -/
  factor : ∀ a, p.kind = .alpha a → (a == 1) = false
  /-- Factors are not nested. -/
  factors : ∀ a, p.kind = .alpha a → ∀ c ∈ p.children, ∀ b, c.kind ≠ .alpha b
  /-- No conversion undoes the one before it. -/
  conversions : ∀ outer, p.kind = .convert outer → ∀ c ∈ p.children, ∀ inner,
    c.kind = .convert inner → inner.inverse ≠ outer
  /-- A node over constants that is not one itself has no finite constant value. -/
  constant : p.color? = none → ∀ inputs value, p.children.mapM Program.color? = some inputs →
    p.kind.pointwise? inputs = some value → value.isFinite = false
  /-- Only constants are known to be transparent. -/
  transparent : p.color? = none → p.isTransparent = false

/-- The three reasons for a rule to apply to a node that is not a constant. -/
theorem reduce?_eq_none_iff : reduce? same p = none ↔ p.color? = none →
    p.isTransparent = false ∧ p.kind.foldConstant? p.children = none ∧
      reduceKind? same p.kind p.children = none := by
  rw [reduce?]
  cases p.color? with
  | some c => simp
  | none =>
    cases p.isTransparent with
    | true => simp
    | false => cases p.kind.foldConstant? p.children <;> simp

omit [ColorModel R] in
/-- Without stacks among them, layers stay as they are. -/
theorem flattenLayers_eq_self (h : ∀ c ∈ cs, c.kind.isStack = false) : flattenLayers cs = cs := by
  induction cs with
  | nil => rfl
  | cons c cs ih =>
    rw [List.forall_mem_cons] at h
    rw [flattenLayers_layer h.1, ih h.2]

/-- If no layer is dropped as covered, only the last one may be opaque. -/
theorem isOpaque_of_uncovered_eq_self (h : uncovered cs = cs) :
    ∀ c ∈ cs.dropLast, c.isOpaque = false := by
  induction cs with
  | nil => exact List.forall_mem_nil _
  | cons c cs ih =>
    rw [uncovered] at h
    split at h
    · obtain rfl := (List.cons.inj h).2
      exact List.forall_mem_nil _
    · rename_i hopaque
      rcases cs with - | ⟨d, cs⟩
      · exact List.forall_mem_nil _
      · rw [List.dropLast_cons_cons]
        exact List.forall_mem_cons.2 ⟨Bool.eq_false_iff.2 hopaque, ih (List.cons.inj h).2⟩

/-- A stack that stays as it is shows all of its layers, which are at least two. -/
theorem layers_of_simplifyStack?_eq_none (h : simplifyStack? cs = none) :
    2 ≤ cs.length ∧ (∀ c ∈ cs, c.kind.isStack = false) ∧ (∀ c ∈ cs, c.isTransparent = false) ∧
      ∀ c ∈ cs.tail, c.isOpaque = false := by
  have hvisible := visibleLayers_sublist ((flattenLayers cs).filter (!·.isTransparent))
  have hfilter : ((flattenLayers cs).filter (!·.isTransparent)).Sublist (flattenLayers cs) :=
    List.filter_sublist
  rw [simplifyStack?] at h
  -- Nothing has changed: no layer is a stack, and as many layers are left as there were.
  obtain ⟨hlength, hany, hsame⟩ : 2 ≤ (visibleLayers ((flattenLayers cs).filter
      (!·.isTransparent))).length ∧ cs.any (·.kind.isStack) = false ∧
      (visibleLayers ((flattenLayers cs).filter (!·.isTransparent))).length =
        (flattenLayers cs).length := by
    generalize visibleLayers ((flattenLayers cs).filter (!·.isTransparent)) = layers at *
    rcases layers with - | ⟨first, - | ⟨second, layers⟩⟩
    · cases h
    · cases h
    · dsimp only at h
      split at h
      · cases h
      · rename_i hchanged
        rw [Bool.not_eq_true, Bool.or_eq_false_iff, bne_eq_false_iff_eq] at hchanged
        exact ⟨by simp, hchanged⟩
  have hflat : ∀ c ∈ cs, c.kind.isStack = false := fun c hc ↦
    Bool.eq_false_iff.2 fun hstack ↦ Bool.eq_false_iff.1 hany (List.any_eq_true.2 ⟨c, hc, hstack⟩)
  rw [flattenLayers_eq_self hflat] at *
  have hall := (hvisible.trans hfilter).eq_of_length hsame
  have hfiltered : cs.filter (!·.isTransparent) = cs :=
    hfilter.eq_of_length_le (hsame ▸ hvisible.length_le)
  rw [hfiltered] at hall
  refine ⟨by rwa [hfiltered, hall] at hlength, hflat, fun c hc ↦ ?_, fun c hc ↦ ?_⟩
  · simpa using List.filter_eq_self.1 hfiltered c hc
  · have huncovered : uncovered cs.reverse = cs.reverse := by
      rw [← List.reverse_eq_iff]
      exact hall
    refine isOpaque_of_uncovered_eq_self huncovered c ?_
    rwa [List.dropLast_reverse, List.mem_reverse]

variable {kind : Kind R}

/-- Constants that are not folded have no finite value. -/
theorem isFinite_of_foldConstant?_eq_none {inputs : List (Vec4 R)} {value : Vec4 R}
    (h : kind.foldConstant? cs = none) (hinputs : cs.mapM Program.color? = some inputs)
    (hvalue : kind.pointwise? inputs = some value) : value.isFinite = false := by
  rw [Kind.foldConstant?, hinputs] at h
  change (kind.pointwise? inputs).bind _ = none at h
  rw [hvalue, Option.bind_some] at h
  split at h
  · cases h
  · rename_i hfinite
    exact Bool.eq_false_iff.2 hfinite

/-- A factor that stays as it is is not one, and not that of another factor. -/
theorem factor_of_reduceKind?_eq_none {a : R} {c : Program ι R}
    (h : reduceKind? same (.alpha a) [c] = none) :
    (a == 1) = false ∧ ∀ b, c.kind ≠ .alpha b := by
  change (if a == 1 then some (Replacement.existing c) else _) = none at h
  split at h
  · cases h
  · rename_i hone
    refine ⟨Bool.eq_false_iff.2 hone, fun b hb ↦ ?_⟩
    obtain ⟨n, k, cs⟩ := c
    cases hb
    cases h

/-- A conversion that stays as it is does not undo the one before it. -/
theorem conversion_of_reduceKind?_eq_none {outer inner : Conversion} {c : Program ι R}
    (formed : c.Formed) (hc : c.kind = .convert inner)
    (h : reduceKind? same (.convert outer) [c] = none) : inner.inverse ≠ outer := by
  have haccepts := formed.accepts
  obtain ⟨n, k, cs⟩ := c
  cases hc
  obtain ⟨g, rfl⟩ := List.length_eq_one_iff.1 haccepts
  intro hinverse
  rw [reduceKind?, if_pos hinverse] at h
  cases h

/-- A formed node that no rule applies to is reduced. -/
theorem reduced_of_reduce?_eq_none (formed : p.Formed) (h : reduce? same p = none) :
    p.Reduced := by
  have hrules := reduce?_eq_none_iff.1 h
  have haccepts := formed.accepts
  obtain ⟨n, k, cs⟩ := p
  have hstack (hkind : k.isStack = true) : simplifyStack? cs = none := by
    cases k with
    | stack => exact (hrules rfl).2.2
    | _ => cases hkind
  constructor
  · exact fun hkind ↦ (layers_of_simplifyStack?_eq_none (hstack hkind)).1
  · exact fun hkind ↦ (layers_of_simplifyStack?_eq_none (hstack hkind)).2.1
  · exact fun hkind ↦ (layers_of_simplifyStack?_eq_none (hstack hkind)).2.2.1
  · exact fun hkind ↦ (layers_of_simplifyStack?_eq_none (hstack hkind)).2.2.2
  · rintro a rfl
    obtain ⟨c, rfl⟩ := List.length_eq_one_iff.1 haccepts
    exact (factor_of_reduceKind?_eq_none (hrules rfl).2.2).1
  · rintro a rfl
    obtain ⟨c, rfl⟩ := List.length_eq_one_iff.1 haccepts
    exact List.forall_mem_singleton.2 (factor_of_reduceKind?_eq_none (hrules rfl).2.2).2
  · rintro outer rfl
    obtain ⟨c, rfl⟩ := List.length_eq_one_iff.1 haccepts
    refine List.forall_mem_singleton.2 fun inner hinner ↦ ?_
    exact conversion_of_reduceKind?_eq_none (formed.of_mem List.mem_cons_self) hinner
      (hrules rfl).2.2
  · exact fun hcolor _ _ ↦ isFinite_of_foldConstant?_eq_none (hrules hcolor).2.1
  · exact fun hcolor ↦ (hrules hcolor).1

end Shading
