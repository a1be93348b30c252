import Mathlib.Data.List.Forall2
import Shading.Program.Simplify
import Shading.Proofs.Program.Parts

/-!
# The weight of a program

A reduction step puts a lighter program in the place of a node (`weight_lt_of_reduce?`), and so the
simplifier comes to an end. What is put there is made of parts of the node: a child or a grandchild
is lighter because it is a part, and a new node either is a constant, or lacks one of two nested
nodes, or lacks a layer.

The weight is a sum over nodes, and so is their number; what holds of all such sums is stated for
any cost of the kinds (`Program.size`).
-/

namespace Shading

variable {ι R : Type}

/-! ### Sizes -/

namespace Program

/-- The sum of what the kinds of all nodes cost. -/
def size (cost : Kind R → Nat) : Program ι R → Nat := fold fun kind sizes ↦ cost kind + total sizes

/-- The size of several programs. -/
def sizes (cost : Kind R → Nat) (ps : List (Program ι R)) : Nat := total (ps.map (size cost))

variable {cost : Kind R → Nat}

@[simp] theorem sizes_nil : sizes cost ([] : List (Program ι R)) = 0 := rfl

@[simp] theorem sizes_cons (p : Program ι R) (ps : List (Program ι R)) :
    sizes cost (p :: ps) = p.size cost + sizes cost ps := rfl

@[simp] theorem sizes_append (ps qs : List (Program ι R)) :
    sizes cost (ps ++ qs) = sizes cost ps + sizes cost qs := by
  induction ps with
  | nil => simp
  | cons p ps ih => rw [List.cons_append, sizes_cons, sizes_cons, ih, Nat.add_assoc]

section

variable {n : ι} {k : Kind R} {cs : List (Program ι R)}

/-- The size of a node is its own cost and the sizes of its children. -/
theorem size_node : (node n k cs).size cost = cost k + sizes cost cs :=
  fold_node ..

/-- A child costs no more than all children. -/
theorem size_le_sizes (cost : Kind R → Nat) {c : Program ι R} (h : c ∈ cs) :
    c.size cost ≤ sizes cost cs := by
  induction cs with
  | nil => cases h
  | cons d cs ih =>
    rw [sizes_cons]
    rcases List.mem_cons.1 h with rfl | h
    · exact Nat.le_add_right ..
    · exact Nat.le_trans (ih h) (Nat.le_add_left ..)

/-- Children that cost less each cost less together. -/
theorem sizes_le_of_forall₂ (cost : Kind R → Nat) {ds : List (Program ι R)}
    (h : List.Forall₂ (fun c d : Program ι R ↦ d.size cost ≤ c.size cost) cs ds) :
    sizes cost ds ≤ sizes cost cs := by
  induction h with
  | nil => exact Nat.le_refl _
  | cons hd _ ih =>
    rw [sizes_cons, sizes_cons]
    exact Nat.add_le_add hd ih

theorem Part.size_le (cost : Kind R → Nat) {p q : Program ι R} (h : Part q p) :
    q.size cost ≤ p.size cost := by
  induction h with
  | refl => exact Nat.le_refl _
  | child hc _ ih =>
    rw [size_node]
    exact Nat.le_trans ih (Nat.le_trans (size_le_sizes cost hc) (Nat.le_add_left ..))

/-- Of a list of programs and a part of it, the part lacks the size of what is left out. -/
theorem sizes_add_length_le (pos : ∀ k, 0 < cost k) {xs ys : List (Program ι R)}
    (h : xs.Sublist ys) : sizes cost xs + (ys.length - xs.length) ≤ sizes cost ys := by
  induction h with
  | slnil => exact Nat.le_refl _
  | @cons xs ys y h ih =>
    obtain ⟨n, k, cs⟩ := y
    have hlength := h.length_le
    have hpos := pos k
    rw [sizes_cons, size_node, List.length_cons]
    omega
  | cons_cons y _ ih =>
    rw [sizes_cons, sizes_cons, List.length_cons, List.length_cons]
    omega

/-- A nested stack that is dissolved takes its own cost with it. -/
theorem sizes_flattenLayers (cost : Kind R → Nat) (cs : List (Program ι R)) :
    sizes cost (flattenLayers cs) + cost .stack * cs.countP (·.kind.isStack) = sizes cost cs := by
  induction cs with
  | nil => rfl
  | cons c cs ih =>
    rw [sizes_cons, ← ih]
    cases h : c.kind.isStack with
    | true =>
      have hsize : c.size cost = cost .stack + sizes cost c.children := by
        rw [kind_eq_stack h, size_node]
        rfl
      rw [List.countP_cons, if_pos h, flattenLayers_stack h, sizes_append, hsize, Nat.mul_succ]
      omega
    | false =>
      rw [List.countP_cons, if_neg (Bool.eq_false_iff.1 h), flattenLayers_layer h, sizes_cons,
        Nat.add_zero]
      omega

end

/-! ### Weights -/

/-- What a kind counts for in the weight. -/
def weightOf (kind : Kind R) : Nat := if kind.color?.isSome then 1 else 2

theorem weightOf_pos (kind : Kind R) : 0 < weightOf kind := by
  rw [weightOf]
  split <;> omega

/-- The weight of several programs. -/
def weights (ps : List (Program ι R)) : Nat := total (ps.map weight)

@[simp] theorem weights_nil : weights ([] : List (Program ι R)) = 0 := rfl

@[simp] theorem weights_cons (p : Program ι R) (ps : List (Program ι R)) :
    weights (p :: ps) = p.weight + weights ps := rfl

section

variable {n : ι} {k : Kind R} {cs : List (Program ι R)}

/-- A node counts twice, a constant once. -/
theorem weight_node :
    (node n k cs).weight = (if k.color?.isSome then 1 else 2) + weights cs :=
  fold_node ..

theorem weight_pos (p : Program ι R) : 0 < p.weight := by
  obtain ⟨n, k, cs⟩ := p
  exact Nat.lt_of_lt_of_le (weightOf_pos k) (weight_node.symm ▸ Nat.le_add_right ..)

theorem weight_le_weights {c : Program ι R} (h : c ∈ cs) : c.weight ≤ weights cs :=
  size_le_sizes weightOf h

theorem weights_le_of_forall₂ {ds : List (Program ι R)}
    (h : List.Forall₂ (fun c d : Program ι R ↦ d.weight ≤ c.weight) cs ds) :
    weights ds ≤ weights cs :=
  sizes_le_of_forall₂ weightOf h

/-- A child is lighter than its parent. -/
theorem weight_lt_of_mem {c : Program ι R} (h : c ∈ cs) : c.weight < (node n k cs).weight := by
  have hle := weight_le_weights h
  rw [weight_node]
  split <;> omega

theorem Part.weight_le {p q : Program ι R} (h : Part q p) : q.weight ≤ p.weight :=
  h.size_le weightOf

/-- Of a list of programs and a part of it, the part lacks the weight of what is left out. -/
theorem weights_add_length_le {xs ys : List (Program ι R)} (h : xs.Sublist ys) :
    weights xs + (ys.length - xs.length) ≤ weights ys :=
  sizes_add_length_le weightOf_pos h

end

end Program

/-! ### Reduction -/

section Layers

open Program

variable {cs : List (Program ι R)}

variable [ColorModel R]

/-- Covered layers are left out, and the others stay in order. -/
theorem uncovered_sublist (cs : List (Program ι R)) : (uncovered cs).Sublist cs := by
  induction cs with
  | nil => exact .refl _
  | cons c cs ih =>
    rw [uncovered]
    split
    · exact (List.nil_sublist cs).cons_cons c
    · exact ih.cons_cons c

/-- Invisible layers are left out, and the others stay in order. -/
theorem visibleLayers_sublist (cs : List (Program ι R)) : (visibleLayers cs).Sublist cs := by
  have h := (uncovered_sublist cs.reverse).reverse
  rwa [List.reverse_reverse] at h

variable {same : Program ι R → Program ι R → Bool} {kind : Kind R} {r : Replacement ι R} {n : ι}

/-- A stack is replaced by one of its layers, or by a stack that lacks a layer or a nested stack. -/
theorem weight_lt_of_simplifyStack? (m : ι) (h : simplifyStack? cs = some r) :
    (r.program m).weight < (node n .stack cs).weight := by
  have hflat : weights (flattenLayers cs) + 2 * cs.countP (·.kind.isStack) = weights cs :=
    sizes_flattenLayers weightOf cs
  have hsub := (visibleLayers_sublist ((flattenLayers cs).filter (!·.isTransparent))).trans
    List.filter_sublist
  have hvisible := weights_add_length_le hsub
  have hlength := hsub.length_le
  have hweight : (node n .stack cs).weight = 2 + weights cs := weight_node
  rw [simplifyStack?] at h
  generalize visibleLayers ((flattenLayers cs).filter (!·.isTransparent)) = layers at *
  rcases layers with - | ⟨first, - | ⟨second, layers⟩⟩
  · cases h
    show (node m (.color .zero) []).weight < _
    rw [hweight, weight_node]
    show 1 + 0 < _
    omega
  · cases h
    show first.weight < _
    rw [weights_cons, weights_nil] at hvisible
    omega
  · dsimp only at h
    split at h
    · rename_i hchanged
      cases h
      have hnew : (node m .stack (first :: second :: layers)).weight =
          2 + weights (first :: second :: layers) := weight_node
      rw [Bool.or_eq_true, bne_iff_ne] at hchanged
      show (node m .stack (first :: second :: layers)).weight < _
      have hlost : 0 < cs.countP (·.kind.isStack) ∨
          (first :: second :: layers).length < (flattenLayers cs).length := by
        rcases hchanged with hany | hne
        · obtain ⟨c, hc, hstack⟩ := List.any_eq_true.1 hany
          exact .inl (List.countP_pos_iff.2 ⟨c, hc, hstack⟩)
        · exact .inr (Nat.lt_of_le_of_ne hlength hne)
      omega
    · cases h

omit [ColorModel R] in
/-- A constant takes the place of a node that is not a constant. -/
theorem weight_constant_lt {n m : ι} (color : Vec4 R) (h : kind.color? = none) :
    (node m (.color color) []).weight < (node n kind cs).weight := by
  rw [weight_node, weight_node, h]
  show 1 + 0 < 2 + _
  omega

/-- What takes the place of a node is lighter. -/
theorem weight_lt_of_reduce? {p : Program ι R} (m : ι) (h : reduce? same p = some r) :
    (r.program m).weight < p.weight := by
  have hcolor := color?_of_reduce? h
  have hparts := parts_of_reduce? h
  obtain ⟨n, kind, cs⟩ := p
  cases r with
  | existing q =>
    obtain ⟨c, hc, hpart⟩ := hparts
    exact Nat.lt_of_le_of_lt hpart.weight_le (weight_lt_of_mem hc)
  | fresh k ds =>
    rcases fresh_of_reduce? h with ⟨color, rfl, rfl, -⟩ | ⟨rfl, rfl, hstack⟩ |
      ⟨outer, inner, l, rfl, rfl, rfl, -⟩
    · exact weight_constant_lt color hcolor
    · exact weight_lt_of_simplifyStack? m hstack
    · show (node m (.alpha (outer * inner)) ds).weight <
        (node n (.alpha outer) [node l (.alpha inner) ds]).weight
      simp only [weight_node, weights_cons, weights_nil]
      show 2 + _ < 2 + (2 + _ + 0)
      omega

end Layers

end Shading
