import Mathlib.Logic.Function.Basic
import Shading.Program.Basic

/-!
# Known nodes

The nodes that were made so far, by number. A program is known if each of its nodes is the one that
was made with its number, so two known programs with the same number are the same. Nodes are only
ever added, and what is known stays known.
-/

namespace Shading

variable {R : Type}

/-- The nodes made so far, by number. -/
abbrev Nodes (R : Type) := Nat → Option (Shared R)

namespace Nodes

/-- The second nodes are the first and perhaps others. -/
def Extend (before after : Nodes R) : Prop :=
  ∀ ⦃n p⦄, before n = some p → after n = some p

variable {before middle after : Nodes R}

theorem Extend.refl (nodes : Nodes R) : Extend nodes nodes := fun _ _ h ↦ h

theorem Extend.trans (h : Extend before middle) (h' : Extend middle after) :
    Extend before after :=
  fun _ _ hp ↦ h' (h hp)

/-- A node with an unused number takes none away. -/
theorem extend_update {n : Nat} (unused : before n = none) (p : Shared R) :
    Extend before (Function.update before n (some p)) := by
  intro m q hq
  have hne : m ≠ n := by
    rintro rfl
    rw [unused] at hq
    cases hq
  rw [Function.update_of_ne hne, hq]

end Nodes

namespace Shared

/-- Every node of the program is the one that was made with its number. -/
inductive Known (nodes : Nodes R) : Shared R → Prop
  | node {n : Nat} {k : Kind R} {cs : List (Shared R)} :
    nodes n = some (.node n k cs) → (∀ c ∈ cs, Known nodes c) → Known nodes (.node n k cs)

namespace Known

variable {nodes nodes' : Nodes R} {p q : Shared R}

/-- A known program is found under its name. -/
theorem eq_some (h : p.Known nodes) : nodes p.name = some p := by
  obtain ⟨hnode, -⟩ := h
  exact hnode

theorem of_mem {n : Nat} {k : Kind R} {cs : List (Shared R)} (h : Known nodes (.node n k cs)) :
    ∀ c ∈ cs, c.Known nodes := by
  obtain ⟨-, hchildren⟩ := h
  exact hchildren

theorem mono (extend : nodes.Extend nodes') (h : p.Known nodes) : p.Known nodes' := by
  induction h with
  | node hnode _ ih => exact .node (extend hnode) ih

/-- The number of a known node tells which node it is. -/
theorem eq_of_name_eq (hp : p.Known nodes) (hq : q.Known nodes) (h : p.name = q.name) : p = q := by
  have hpq := hp.eq_some
  rw [h, hq.eq_some] at hpq
  cases hpq
  rfl

/-- Known programs of one name are the same. -/
theorem eq_of_identical (hp : p.Known nodes) (hq : q.Known nodes) (h : p.identical q = true) :
    p = q :=
  hp.eq_of_name_eq hq (eq_of_beq h)

end Known

end Shared

end Shading
