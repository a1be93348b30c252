import Shading.Proofs.Program.Replacing

/-!
# Sessions

Programs are made by operations in a workspace, one after the other and each on programs that were
made before (`Session`). In whatever order they come, all the programs are known, and what the
workspace has noted of their simplifications is related to them (`Session.exists_nodes`).
-/

namespace Shading

variable {R : Type} [ColorModel R]

/-- A workspace and the programs that a session has come to. -/
inductive Session : Workspace R → List (Shared R) → Prop
  | start : Session {} []
  /-- Making a node over programs of the session. -/
  | node {w : Workspace R} {ps cs : List (Shared R)} (kind : Kind R) :
    Session w ps → (∀ c ∈ cs, c ∈ ps) →
      Session (Build.node kind cs w).2 ((Build.node kind cs w).1 :: ps)
  /-- Looking up a child. -/
  | child {w : Workspace R} {ps cs : List (Shared R)} {n : Nat} {kind : Kind R} {c : Shared R} :
    Session w ps → .node n kind cs ∈ ps → c ∈ cs → Session w (c :: ps)
  | simplified {w : Workspace R} {ps : List (Shared R)} {p : Shared R} :
    Session w ps → p ∈ ps → Session (Build.simplified p w).2 ((Build.simplified p w).1 :: ps)
  | withPathInclusion {w : Workspace R} {ps : List (Shared R)} {p : Shared R}
    (isInside : Path → Bool) : Session w ps → p ∈ ps →
      Session (Build.withPathInclusion isInside p w).2
        ((Build.withPathInclusion isInside p w).1 :: ps)
  | transformed {w : Workspace R} {ps : List (Shared R)} {p q : Shared R} (m : Affine R) :
    Session w ps → p ∈ ps → (Build.transformed m p w).1 = .ok q →
      Session (Build.transformed m p w).2 (q :: ps)

variable {rel : Shared R → Shared R → Prop} {w : Workspace R} {ps : List (Shared R)}

/-- The programs are known, and the workspace holds what is known. -/
def AllKnown (rel : Shared R → Shared R → Prop) (w : Workspace R) (ps : List (Shared R)) : Prop :=
  ∃ nodes, w.Holds rel nodes ∧ ∀ p ∈ ps, p.Known nodes

omit [ColorModel R] in
/-- An operation on known programs that yields a known program. -/
theorem AllKnown.step {α : Type} (h : AllKnown rel w ps) {m : Build R α} {q : Shared R}
    (yields : ∀ nodes, (∀ p ∈ ps, p.Known nodes) →
      Build.Yields rel nodes m fun after a ↦ a = (m w).1 → q.Known after) :
    AllKnown rel (m w).2 (q :: ps) := by
  obtain ⟨nodes, hw, hps⟩ := h
  obtain ⟨after, hafter, hw', hq⟩ := yields nodes hps w hw
  exact ⟨after, hw', List.forall_mem_cons.2 ⟨hq rfl, fun p hp ↦ (hps p hp).mono hafter⟩⟩

/-- Every session keeps its programs known. -/
theorem Session.allKnown (simplifying : Simplifying rel) (h : Session w ps) :
    AllKnown rel w ps := by
  induction h with
  | start =>
    refine ⟨fun _ ↦ none, ⟨fun _ _ ↦ rfl, fun n q h ↦ ?_⟩, nofun⟩
    have hempty : (∅ : Std.HashMap Nat (Settled R))[n]? = some (.replaced q) := h
    rw [Std.HashMap.getElem?_empty] at hempty
    cases hempty
  | node kind _ hcs ih =>
    refine ih.step fun nodes hps ↦ ?_
    refine (Build.yields_node kind fun c hc ↦ hps c (hcs c hc)).imp fun _ q _ hq heq ↦ ?_
    exact heq ▸ hq.1
  | child _ hp hc ih =>
    obtain ⟨nodes, hw, hps⟩ := ih
    exact ⟨nodes, hw, List.forall_mem_cons.2 ⟨(hps _ hp).of_mem _ hc, hps⟩⟩
  | simplified _ hp ih =>
    refine ih.step fun nodes hps ↦ ?_
    refine (Build.yields_simplified simplifying (hps _ hp)).imp fun _ q _ hq heq ↦ ?_
    exact heq ▸ hq.1
  | withPathInclusion isInside _ hp ih =>
    refine ih.step fun nodes hps ↦ ?_
    refine (Build.yields_withPathInclusion isInside (hps _ hp)).imp fun _ q _ hq heq ↦ ?_
    exact heq ▸ hq.1
  | transformed m _ hp hfound ih =>
    refine ih.step fun nodes hps ↦ ?_
    refine (Build.yields_transformed m (hps _ hp)).imp fun _ found _ hknown heq ↦ ?_
    exact hknown _ (heq.trans hfound)

end Shading
