import Shading.Program.Document
import Shading.Proofs.Program.Coherence
import Shading.Proofs.Program.NaNFree
import Shading.Proofs.Program.Renaming

/-!
# Simplification without sharing

Simplification of plain trees, with nothing noted on the way: a node is rebuilt over its simplified
children, and what takes its place is simplified in turn (`Tree.simplified_node`). The recursion is
on the weight of the tree, and it ends because simplification never adds any; so the bound is part
of the type of the answer.

Where no `NaN` is around, the simplifier of a workspace agrees with it. Its comparisons stop at
nodes that are the same, but such nodes are alike in structure too (`eq_unfold`).
-/

namespace Shading

variable {R : Type} {nodes : Nodes R} {p q : Shared R} {cs ds : List (Shared R)}

open Program

/-! ### Unfolded programs -/

/-- Unfolding a node unfolds its children. -/
theorem unfold_node (n : Nat) (k : Kind R) (cs : List (Shared R)) :
    unfold (.node n k cs) = .node () k (cs.map unfold) := rename_node _ n k cs

/-- Unfolding keeps parts. -/
theorem unfold_part {p q : Shared R} (h : q.Part p) : q.unfold.Part p.unfold := by
  induction h with
  | refl => exact .refl _
  | child hc _ ih =>
    rw [unfold_node]
    exact .child (List.mem_map_of_mem hc) ih

theorem exists_part_of_unfold {p : Shared R} {t : Tree R} (h : t.Part p.unfold) :
    ∃ q : Shared R, q.Part p ∧ q.unfold = t := by
  induction p using Program.induct with
  | node n k cs ih =>
    rw [unfold_node] at h
    rcases part_node.1 h with rfl | ⟨d, hd, h⟩
    · exact ⟨_, .refl _, unfold_node n k cs⟩
    · obtain ⟨c, hc, rfl⟩ := List.mem_map.1 hd
      obtain ⟨q, hq, rfl⟩ := ih c hc h
      exact ⟨q, .child hc hq, rfl⟩

section

variable [Scalar R]

/-- Children are compared alike after unfolding, if each pair is. -/
theorem eqEach_unfold
    (each : ∀ c ∈ cs, ∀ d ∈ ds, Program.eq (fun _ _ ↦ false) c.unfold d.unfold = Shared.eq c d) :
    eqEach (fun _ _ ↦ false) (cs.map unfold) (ds.map unfold) = eqEach (· == ·) cs ds := by
  induction cs generalizing ds with
  | nil => cases ds <;> rfl
  | cons c cs ih =>
    cases ds with
    | nil => rfl
    | cons d ds =>
      have hrest := ih fun c hc d hd ↦
        each c (List.mem_cons_of_mem _ hc) d (List.mem_cons_of_mem _ hd)
      have hfirst := each c List.mem_cons_self d List.mem_cons_self
      rw [List.map_cons, List.map_cons, eqEach, eqEach, hrest, hfirst]
      rfl

/-- Comparing children with themselves stops at their names. -/
theorem eqEach_self (cs : List (Shared R)) : eqEach (· == ·) cs cs = true := by
  induction cs with
  | nil => rfl
  | cons c cs ih =>
    obtain ⟨n, k, gs⟩ := c
    rw [eqEach, Program.eq, beq_self_eq_true, ih]
    rfl

/-- Comparing known programs may stop at nodes that are the same, if they hold no `NaN`. -/
theorem eq_unfold (hp : p.Known nodes) (hq : q.Known nodes) (free : p.NaNFree) :
    Program.eq (fun _ _ ↦ false) p.unfold q.unfold = Shared.eq p q := by
  induction p using Program.induct generalizing q with
  | node n k cs ih =>
    obtain ⟨m, l, ds⟩ := q
    have heach : eqEach (fun _ _ ↦ false) (cs.map unfold) (ds.map unfold) =
        eqEach (· == ·) cs ds :=
      eqEach_unfold fun c hc d hd ↦ ih c hc (hp.of_mem c hc) (hq.of_mem d hd) (free.of_mem hc)
    rw [unfold_node, unfold_node, Program.eq, heach, Shared.eq, Program.eq, Bool.false_or]
    cases hname : n == m with
    | false => rw [Bool.false_or]
    | true =>
      cases hp.eq_of_name_eq hq (eq_of_beq hname)
      have hkind : k.eq k = true := Kind.eq_self free.numbers
      rw [hkind, eqEach_self]
      rfl

end

variable [ColorModel R]

/-! ### The simplifier of trees -/

namespace Tree

omit [ColorModel R] in
theorem weight_attach_le (k : Kind R) {cs : List (Tree R)} (f : { c // c ∈ cs } → Tree R)
    (h : ∀ c, (f c).weight ≤ c.1.weight) :
    (Program.node () k (cs.attach.map f)).weight ≤ (Program.node () k cs).weight := by
  have heach : List.Forall₂ (fun c d : Tree R ↦ d.weight ≤ c.weight) (cs.attach.map Subtype.val)
      (cs.attach.map f) :=
    List.forall₂_map_left_iff.2 (List.forall₂_map_right_iff.2 (List.forall₂_same.2 fun c _ ↦ h c))
  rw [List.attach_map_subtype_val] at heach
  have hsum := weights_le_of_forall₂ heach
  rw [weight_node, weight_node]
  omega

/-- The simplification of a tree, which is not heavier. -/
def simplification : (p : Tree R) → { q : Tree R // q.weight ≤ p.weight }
  | .node _ k cs =>
    let ds := cs.attach.map fun c ↦ (simplification c.1).1
    have lighter : (Program.node () k ds).weight ≤ (Program.node () k cs).weight :=
      weight_attach_le k _ fun c ↦ (simplification c.1).2
    match h : reduce? eq (.node () k ds) with
    | some r =>
      let q := simplification (r.program ())
      ⟨q.1, Nat.le_trans q.2 (Nat.le_trans (Nat.le_of_lt (weight_lt_of_reduce? () h)) lighter)⟩
    | none => ⟨.node () k ds, lighter⟩
termination_by p => p.weight
decreasing_by
  · exact weight_lt_of_mem c.2
  · exact weight_lt_of_mem c.2
  · exact Nat.lt_of_lt_of_le (weight_lt_of_reduce? () h) lighter

/-- The simplification of a tree, without its bound. -/
def simplified (p : Tree R) : Tree R := (simplification p).1

/-- A node is rebuilt over its simplified children, and what takes its place is simplified. -/
theorem simplified_node (u : Unit) (k : Kind R) (cs : List (Tree R)) :
    simplified (.node u k cs) =
    match reduce? eq (.node () k (cs.map simplified)) with
    | some r => simplified (r.program ())
    | none => .node () k (cs.map simplified) := by
  have hds : (cs.attach.map fun c ↦ (simplification c.1).1) = cs.map simplified :=
    List.attach_map_val (f := simplified)
  rw [simplified, simplification, ← hds]
  dsimp only
  split
  · rename_i hreduce
    simp only [hreduce]
    rfl
  · rename_i hreduce
    simp only [hreduce]

/-- A node that a rule applies to, once its children are simplified, is reduced. -/
theorem simplified_of_reduced {k : Kind R} {cs ds : List (Tree R)} {r : Replacement Unit R}
    (children : cs.map simplified = ds) (h : reduce? eq (.node () k ds) = some r) :
    simplified (.node () k cs) = simplified (r.program ()) := by
  rw [simplified_node, children, h]

/-- A node that no rule applies to, once its children are simplified, is kept over them. -/
theorem simplified_of_kept {k : Kind R} {cs ds : List (Tree R)}
    (children : cs.map simplified = ds) (h : reduce? eq (.node () k ds) = none) :
    simplified (.node () k cs) = .node () k ds := by
  rw [simplified_node, children, h]

/-- What holds of nodes that are kept over their simplified children and of those that are reduced
then holds of every tree. -/
theorem simplified_induct {motive : Tree R → Tree R → Prop}
    (kept : ∀ k cs, (∀ c ∈ cs, motive c (simplified c)) →
      reduce? eq (.node () k (cs.map simplified)) = none →
        motive (.node () k cs) (.node () k (cs.map simplified)))
    (reduced : ∀ k cs r, (∀ c ∈ cs, motive c (simplified c)) →
      reduce? eq (.node () k (cs.map simplified)) = some r →
        simplified (.node () k cs) = simplified (r.program ()) →
          motive (r.program ()) (simplified (r.program ())) →
            motive (.node () k cs) (simplified (r.program ()))) :
    ∀ t, motive t (simplified t) := by
  intro t
  induction hweight : t.weight using Nat.strongRecOn generalizing t with
  | ind weight ih =>
    subst hweight
    obtain ⟨⟨⟩, k, cs⟩ := t
    have hcs : ∀ c ∈ cs, motive c (simplified c) := fun c hc ↦
      ih c.weight (weight_lt_of_mem hc) c rfl
    have hnode := simplified_node () k cs
    cases hreduce : reduce? eq (.node () k (cs.map simplified)) with
    | none =>
      rw [hreduce] at hnode
      rw [hnode]
      exact kept k cs hcs hreduce
    | some r =>
      rw [hreduce] at hnode
      have lighter := weights_le_of_forall₂ (List.forall₂_map_right_iff.2
        (List.forall₂_same.2 fun (c : Tree R) (_ : c ∈ cs) ↦ (simplification c).2))
      have hlt := weight_lt_of_reduce? () hreduce
      have hle : (Program.node () k (cs.map simplified)).weight ≤
          (Program.node () k cs).weight := by
        rw [weight_node, weight_node]
        exact Nat.add_le_add_left lighter _
      rw [hnode]
      exact reduced k cs r hcs hreduce hnode (ih _ (Nat.lt_of_lt_of_le hlt hle) _ rfl)

/-- No rule applies to any node of the tree. -/
def Irreducible (t : Tree R) : Prop := ∀ q, q.Part t → reduce? eq q = none

/-- Simplification ends where no rule applies. -/
theorem irreducible_simplified (t : Tree R) : (simplified t).Irreducible := by
  refine simplified_induct (motive := fun _ q ↦ q.Irreducible) (fun k cs ih h q part ↦ ?_)
    (fun _ _ _ _ _ _ ih ↦ ih) t
  rcases part_node.1 part with rfl | ⟨d, hd, part⟩
  · exact h
  · obtain ⟨c, hc, rfl⟩ := List.mem_map.1 hd
    exact ih c hc q part

/-- Where no rule applies, simplification changes nothing. -/
theorem simplified_of_irreducible {t : Tree R} (h : t.Irreducible) : simplified t = t := by
  induction t using Program.induct with
  | node u k cs ih =>
    have hcs : cs.map simplified = cs.map id := List.map_congr_left fun c hc ↦
      ih c hc fun q part ↦ h q (.child hc part)
    rw [simplified_node, hcs, List.map_id, h _ (.refl _)]

/-- A constant is its own simplification. -/
theorem simplified_color (v : Vec4 R) :
    simplified (.node () (.color v) []) = .node () (.color v) [] :=
  simplified_of_irreducible fun q part ↦ by
    obtain rfl := part_leaf.1 part
    rfl

end Tree

/-! ### Agreement -/

/-- Without `NaN`, a known program is reduced as its unfolded tree is. -/
theorem reduce?_unfold (hp : p.Known nodes) (free : p.NaNFree) :
    reduce? Tree.eq p.unfold = (reduce? Shared.eq p).map (Replacement.rename fun _ ↦ ()) := by
  refine reduce?_rename fun c hc d hd ↦ ?_
  obtain ⟨n, k, cs⟩ := p
  exact eq_unfold (hp.of_mem c hc) (hp.of_mem d hd) (free.of_mem hc)

/-- Children that are their own simplifications stay so in a list. -/
theorem map_simplified_unfold (h : ∀ c ∈ cs, Tree.simplified c.unfold = c.unfold) :
    (cs.map unfold).map Tree.simplified = cs.map unfold := by
  rw [List.map_map]
  exact List.map_congr_left h

/-- A program that no rule applies to unfolds to a tree that is left as it is. -/
theorem simplified_unfold_of_irreducible (hp : p.Known nodes) (free : p.NaNFree)
    (irreducible : p.Irreducible) : Tree.simplified p.unfold = p.unfold := by
  refine Tree.simplified_of_irreducible fun t part ↦ ?_
  obtain ⟨q, hq, rfl⟩ := exists_part_of_unfold part
  rw [reduce?_unfold (hp.of_part hq) (free.of_part hq), irreducible q hq]
  rfl

/-- Every step of the simplifier keeps the simplification of the unfolded tree. -/
theorem settling_unfold [NaNLaws R] : Settling fun p q : Shared R ↦
    p.NaNFree → q.NaNFree ∧ Tree.simplified q.unfold = Tree.simplified p.unfold where
  refl _ free := ⟨free, rfl⟩
  trans hpq hqr free := by
    obtain ⟨hq, hpq⟩ := hpq free
    obtain ⟨hr, hqr⟩ := hqr hq
    exact ⟨hr, hqr.trans hpq⟩
  node {n m k cs ds} hchildren _ free := by
    have hboth := ((List.forall₂_and_left _ _).2 ⟨fun c hc ↦ free.of_mem hc, hchildren⟩).imp
      fun _ _ h ↦ h.2 h.1
    have hsame : (ds.map unfold).map Tree.simplified = (cs.map unfold).map Tree.simplified := by
      rw [List.map_map, List.map_map]
      exact map_eq_of_forall₂ (hboth.imp fun _ _ h ↦ h.2)
    refine ⟨.node free.numbers (forall_mem_of_forall₂ hboth fun _ _ h ↦ h.1), ?_⟩
    rw [unfold_node, unfold_node, Tree.simplified_node, Tree.simplified_node, hsame]
  reduce {nodes p r m} hp hchildren hreduce free := by
    refine ⟨nanFree_of_reduce? free hreduce, ?_⟩
    have htree := reduce?_unfold hp free
    obtain ⟨n, k, cs⟩ := p
    have hcs := map_simplified_unfold fun c hc ↦
      simplified_unfold_of_irreducible (hp.of_mem c hc) (free.of_mem hc) (hchildren c hc)
    rw [hreduce, Option.map_some, unfold_node] at htree
    rw [unfold_node, Tree.simplified_node, hcs, htree]
    exact congrArg Tree.simplified (Replacement.program_rename _ r m).symm

end Shading
