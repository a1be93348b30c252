import Shading.Proofs.Program.Order
import Shading.Proofs.Program.Reduced
import Shading.Proofs.Program.Unshared

/-!
# What simplification does to flags

Of all rules, only the one that computes constants can put a program that is not flagged as opaque
in the place of an opaque one (`isOpaque_of_reduce?`): the flags of a node tell of the structure of
its children, and a constant is opaque only if its alpha is one. If opaque nodes become constants
only where these have alpha one, a tree is told as much of after simplification as before
(`Tree.le_simplified`).
-/

namespace Shading

variable {ι R : Type} [ColorModel R]

open Program

/-! ### Flags of nodes -/

section

variable {p : Program ι R} {n : ι} {k : Kind R} {cs : List (Program ι R)}

/-- Whether a node is opaque is told by the flags of its children. -/
theorem isOpaque_node : (node n k cs).isOpaque = (k.coverage (cs.map flags)).covers :=
  congrArg Flags.covers (flags_node n k cs)

/-- A stack is opaque if one of its layers is. -/
theorem isOpaque_stack : (node n .stack cs).isOpaque = cs.any (·.isOpaque) := by
  rw [isOpaque_node]
  exact List.any_map

/-- If all flags say opaque, so does each. -/
theorem forall_isOpaque_of_all (h : (cs.map flags).all (·.covers) = true) :
    ∀ c ∈ cs, c.isOpaque = true := by
  rw [List.all_map] at h
  exact fun c hc ↦ List.all_eq_true.1 h c hc

/-- A constant is opaque if its alpha is one. -/
theorem isOpaque_of_color? {v : Vec4 R} (h : p.color? = some v) : p.isOpaque = (v.w == 1) := by
  obtain ⟨n, k, cs⟩ := p
  cases k with
  | color c =>
    cases h
    exact isOpaque_node
  | _ => cases h

/-- The transparent color is flagged as transparent. -/
theorem isTransparent_zero [NaNLaws R] : (node n (.color (.zero : Vec4 R)) []).isTransparent :=
  Vec4.eq_of_selfEqual selfEqual_zero

omit [ColorModel R] in
/-- The same kind over as many other formed children. -/
theorem formed_map (formed : (node n k cs).Formed) {f : Program ι R → Program ι R}
    (h : ∀ c ∈ cs, (f c).Formed) : (node n k (cs.map f)).Formed := by
  refine .node ?_ (List.forall_mem_map.2 h)
  rw [List.length_map]
  exact formed.accepts

/-- An opaque node that is flagged as one thing at most is not transparent. -/
theorem isTransparent_of_isOpaque (h : p.flags.coverage.Exclusive) (opaque' : p.isOpaque = true) :
    p.isTransparent = false := by
  by_contra htransparent
  have hcovers : p.isOpaque = false := h (Bool.not_eq_false _ ▸ htransparent)
  rw [opaque'] at hcovers
  cases hcovers

end

/-! ### Opaque layers -/

section

variable {cs : List (Program ι R)}

/-- Taking stacks apart keeps an opaque layer. -/
theorem any_isOpaque_flattenLayers (cs : List (Program ι R)) :
    (flattenLayers cs).any (·.isOpaque) = cs.any (·.isOpaque) := by
  induction cs with
  | nil => rfl
  | cons c cs ih =>
    cases hstack : c.kind.isStack with
    | true =>
      have hc : c.isOpaque = c.children.any (·.isOpaque) := by
        rw [kind_eq_stack hstack, isOpaque_stack]
        rfl
      rw [flattenLayers_stack hstack, List.any_append, ih, List.any_cons, hc]
    | false => rw [flattenLayers_layer hstack, List.any_cons, ih, List.any_cons]

/-- Dropping transparent layers keeps an opaque layer. -/
theorem any_isOpaque_filter (exclusive : ∀ c ∈ cs, c.flags.coverage.Exclusive) :
    (cs.filter (!·.isTransparent)).any (·.isOpaque) = cs.any (·.isOpaque) := by
  induction cs with
  | nil => rfl
  | cons c cs ih =>
    rw [List.forall_mem_cons] at exclusive
    rw [List.any_cons, ← ih exclusive.2]
    cases htransparent : c.isTransparent with
    | true =>
      have hc : c.isOpaque = false := exclusive.1 htransparent
      rw [List.filter_cons_of_neg (by simp [htransparent]), hc, Bool.false_or]
    | false => rw [List.filter_cons_of_pos (by simp [htransparent]), List.any_cons]

/-- The visible layers keep an opaque layer. -/
theorem any_isOpaque_visibleLayers (cs : List (Program ι R)) :
    (visibleLayers cs).any (·.isOpaque) = cs.any (·.isOpaque) := by
  have huncovered (ls : List (Program ι R)) :
      (uncovered ls).any (·.isOpaque) = ls.any (·.isOpaque) := by
    induction ls with
    | nil => rfl
    | cons layer ls ih =>
      rw [uncovered, List.any_cons]
      split
      · rename_i hopaque
        rw [List.any_cons, hopaque, Bool.true_or, Bool.true_or]
      · rw [List.any_cons, ih]
  rw [visibleLayers, List.any_reverse, huncovered, List.any_reverse]

end

/-! ### Rules -/

section

variable {same : Program ι R → Program ι R → Bool} {p : Program ι R} {n m : ι} {k : Kind R}
  {cs : List (Program ι R)} {r : Replacement ι R}

/-- Of layers with an opaque one, an opaque layer is left. -/
theorem isOpaque_of_simplifyStack? (exclusive : ∀ c ∈ flattenLayers cs, c.flags.coverage.Exclusive)
    (opaque' : cs.any (·.isOpaque) = true) (h : simplifyStack? cs = some r) :
    (r.program m).isOpaque = true := by
  rw [← any_isOpaque_flattenLayers, ← any_isOpaque_filter exclusive,
    ← any_isOpaque_visibleLayers] at opaque'
  rw [simplifyStack?] at h
  generalize visibleLayers ((flattenLayers cs).filter (!·.isTransparent)) = layers at *
  rcases layers with - | ⟨first, - | ⟨second, layers⟩⟩
  · cases opaque'
  · cases h
    exact (Bool.or_false _).symm.trans opaque'
  · dsimp only at h
    split at h
    · cases h
      exact isOpaque_stack.trans opaque'
    · cases h

/-- Opaque children collapse to an opaque one. -/
theorem isOpaque_of_collapseAlike? (opaque' : ∀ c ∈ cs, c.isOpaque = true)
    (h : collapseAlike? same cs = some r) : (r.program m).isOpaque = true := by
  have heach := each_of_collapseAlike? opaque' h
  cases r with
  | existing q => exact heach
  | fresh k ds => exact absurd h collapseAlike?_ne_fresh

variable [DistinctUnits R]

/-- The rules of single kinds replace opaque nodes by opaque ones. -/
theorem isOpaque_of_reduceKind? (formed : (node n k cs).Formed)
    (opaque' : (node n k cs).isOpaque = true) (h : reduceKind? same k cs = some r) :
    (r.program m).isOpaque = true := by
  have hcs : ∀ c ∈ cs, c.Formed := fun c hc ↦ formed.of_mem hc
  have hcovers := isOpaque_node.symm.trans opaque'
  unfold reduceKind? at h
  -- The rules in the order of their definition, the four that collapse alike children one by one.
  split at h
  · split at h
    · cases h
      exact (Bool.and_eq_true_iff.1 hcovers).2
    · rename_i hfactor
      exact absurd (Bool.and_eq_true_iff.1 hcovers).1 hfactor
  · split at h
    · cases h
      exact opaque'
    · cases h
  · exact isOpaque_of_collapseAlike? (forall_isOpaque_of_all hcovers) h
  · exact isOpaque_of_collapseAlike? (forall_isOpaque_of_all hcovers) h
  · exact isOpaque_of_collapseAlike? (forall_isOpaque_of_all hcovers) h
  · exact isOpaque_of_collapseAlike? (forall_isOpaque_of_all hcovers) h
  · split at h
    · have hall := (Bool.and_eq_true_iff.1 hcovers).1
      exact isOpaque_of_collapseAlike? (forall_isOpaque_of_all hall) h
    · cases h
  · have hlayers : ∀ c ∈ flattenLayers cs, c.Formed :=
      forall_mem_flattenLayers (fun _ _ _ hnode c hc ↦ hnode.of_mem hc) hcs
    exact isOpaque_of_simplifyStack? (fun c hc ↦ exclusive_of_formed (hlayers c hc))
      (isOpaque_stack.symm.trans opaque') h
  · rename_i a b
    have ha := exclusive_of_formed (hcs a (by simp))
    have hb := exclusive_of_formed (hcs b (by simp))
    have hor : a.isOpaque = true ∨ b.isOpaque = true := Bool.or_eq_true_iff.1 hcovers
    split at h
    · rename_i htransparent
      cases h
      exact hor.resolve_left (Bool.eq_false_iff.1 (ha htransparent))
    · split at h
      · rename_i hkeep
        cases h
        rcases Bool.or_eq_true_iff.1 hkeep with htransparent | hopaque
        · exact hor.resolve_right (Bool.eq_false_iff.1 (hb htransparent))
        · exact hopaque
      · cases h
  · split at h
    · cases h
      exact forall_isOpaque_of_all hcovers _ List.mem_cons_self
    · cases h
  · cases h

/-- What takes the place of an opaque node is opaque, or else a constant computed of constants. -/
theorem isOpaque_of_reduce? (formed : p.Formed) (opaque' : p.isOpaque = true)
    (h : reduce? same p = some r) :
    (r.program m).isOpaque = true ∨
      ∃ v, r = .fresh (.color v) [] ∧ p.kind.foldConstant? p.children = some v := by
  obtain ⟨n, k, cs⟩ := p
  have hvisible := isTransparent_of_isOpaque (exclusive_of_formed formed) opaque'
  rw [reduce?, hvisible] at h
  split at h
  · cases h
  · rw [if_neg Bool.false_ne_true] at h
    split at h
    · rename_i v hv
      cases h
      exact .inr ⟨v, rfl, hv⟩
    · exact .inl (isOpaque_of_reduceKind? formed opaque' h)

end

/-- A transparent node is replaced by the transparent constant. -/
theorem eq_transparent_of_reduce? {same : Program ι R → Program ι R → Bool} {p : Program ι R}
    {r : Replacement ι R} (transparent : p.isTransparent = true) (h : reduce? same p = some r) :
    r = .transparent := by
  rw [reduce?, color?_of_reduce? h, transparent] at h
  cases h
  rfl

/-! ### Trees -/

namespace Tree

/-- Simplifying a formed tree gives a formed one. -/
theorem formed_simplified {t : Tree R} (formed : t.Formed) : (simplified t).Formed := by
  refine simplified_induct (motive := fun t q ↦ t.Formed → q.Formed) (fun k cs ih _ formed ↦ ?_)
    (fun k cs r ih h _ hr formed ↦ hr (formed_of_reduce? ?_ h)) t formed
  · exact formed_map formed fun c hc ↦ ih c hc (formed.of_mem hc)
  · exact formed_map formed fun c hc ↦ ih c hc (formed.of_mem hc)

/-- Opaque nodes are simplified to constants only if these have alpha one. -/
def KeepsAlpha (t : Tree R) : Prop :=
  ∀ q, q.Part t → q.isOpaque = true → ∀ v, (simplified q).color? = some v → (v.w == 1) = true

/-- The parts of a tree that keeps its alphas keep theirs. -/
theorem KeepsAlpha.of_part {t q : Tree R} (h : t.KeepsAlpha) (part : q.Part t) : q.KeepsAlpha :=
  fun s hs ↦ h s (hs.trans part)

/-- A tree that is not changed keeps its alphas. -/
theorem keepsAlpha_of_irreducible {t : Tree R} (h : t.Irreducible) : t.KeepsAlpha := by
  intro q part hopaque v hv
  rw [simplified_of_irreducible fun s hs ↦ h s (hs.trans part)] at hv
  exact (isOpaque_of_color? hv).symm.trans hopaque

/-- What takes the place of an opaque node is simplified to what that is simplified to. -/
theorem keepsAlpha_of_reduce? {k : Kind R} {cs : List (Tree R)} {r : Replacement Unit R}
    (keeps : Tree.KeepsAlpha (.node () k cs)) (opaque' : (node () k cs).isOpaque = true)
    (h : reduce? eq (.node () k (cs.map simplified)) = some r)
    (same : simplified (.node () k cs) = simplified (r.program ())) :
    Tree.KeepsAlpha (r.program ()) := by
  intro q part hopaque v hv
  rcases part_of_reduce? h part with rfl | ⟨d, hd, hqd⟩
  · exact keeps _ (.refl _) opaque' v (same ▸ hv)
  · obtain ⟨c, -, rfl⟩ := List.mem_map.1 hd
    exact keepsAlpha_of_irreducible (irreducible_simplified c) q hqd hopaque v hv

variable [NaNLaws R] [DistinctUnits R]

/-- A tree that keeps its alphas is told as much of after simplification as before. -/
theorem le_simplified {t : Tree R} (formed : t.Formed) (keeps : t.KeepsAlpha) :
    t.flags.coverage.Le (simplified t).flags.coverage := by
  have hnode (k : Kind R) (cs : List (Tree R))
      (ih : ∀ c ∈ cs, c.Formed → c.KeepsAlpha → c.flags.coverage.Le (simplified c).flags.coverage)
      (formed : (node () k cs).Formed) (keeps : Tree.KeepsAlpha (.node () k cs)) :
      (node () k cs).flags.coverage.Le (node () k (cs.map simplified)).flags.coverage := by
    rw [flags_node, flags_node, List.map_map]
    refine k.coverage_mono (tellMore_map fun c hc ↦ ?_)
    exact ih c hc (formed.of_mem hc) (keeps.of_part (.child hc (.refl c)))
  refine simplified_induct (motive := fun t q ↦
    t.Formed → t.KeepsAlpha → t.flags.coverage.Le q.flags.coverage)
    (fun k cs ih _ ↦ hnode k cs ih) (fun k cs r ih h same hr formed keeps ↦ ?_) t formed keeps
  have hle := hnode k cs ih formed keeps
  have hformed := formed_map formed fun c hc ↦ formed_simplified (formed.of_mem hc)
  refine ⟨fun ht ↦ ?_, fun hc ↦ ?_⟩
  · obtain rfl := eq_transparent_of_reduce? (hle.transparent ht) h
    exact (congrArg isTransparent (simplified_color .zero)).trans isTransparent_zero
  · rcases isOpaque_of_reduce? hformed (hle.covers hc) h with hopaque | ⟨v, rfl, -⟩
    · exact (hr (formed_of_reduce? hformed h) (keepsAlpha_of_reduce? keeps hc h same)).covers
        hopaque
    · have hcolor : (simplified (.node () (.color v) [] : Tree R)).color? = some v :=
        congrArg color? (simplified_color v)
      have hw := keeps _ (.refl _) hc v ((congrArg color? same).trans hcolor)
      exact (isOpaque_of_color? hcolor).trans hw

end Tree

end Shading
