import Shading.Proofs.Program.Rewriting
import Shading.Proofs.Program.Sessions
import Shading.Proofs.Program.Unshared

/-!
# What a replacement calls

A rule that replaces the nodes of a program may count, ask, or keep what it was given: anything that
happens in its state and by means of the workspace. Still it can rely on being called once for each
node, in the order of visits, and with nodes that are made anew only where a child changed. What a
node is replaced by is a function of the node, so that nodes which are shared stay shared.

The rest is read off the calls: what is left alone stays the same node, and a rule that only looks
at the structure of what it is given rewrites the unfolded program from its leaves.
-/

namespace Shading

variable {R σ : Type}

open Program

/-- Children are replaced one by one. -/
theorem replaceBottomUpEach_eq_map (g : Tree R → Option (Tree R)) (cs : List (Tree R)) :
    replaceBottomUpEach g cs = cs.map (replaceBottomUp g) := by
  induction cs with
  | nil => rw [replaceBottomUpEach, List.map_nil]
  | cons c cs ih => rw [replaceBottomUpEach, List.map_cons, ih]

/-! ### Reading the calls -/

namespace Rewriting

variable {rule : Shared R → StateT σ (Build R) (Option (Shared R))} {r : Rewriting R}
  {p q : Shared R} {w w' : Workspace R}

/-- Whatever node the rule is given, its structure is that of the node over its new children. -/
theorem Gives.unfold_eq (h : r.Gives q w w') :
    (r.given q).unfold = .node () q.kind (q.children.map fun c ↦ (r.image c).unfold) := by
  obtain ⟨n, k, cs⟩ := q
  cases h with
  | itself same given =>
    rw [given, unfold_node]
    exact congrArg _ (List.map_congr_left fun c hc ↦ by rw [same c hc])
  | fresh _ given =>
    rw [given]
    show unfold (.node w.next k (cs.map r.image)) = _
    rw [unfold_node, List.map_map]
    rfl

/-- A node stays if the rule has no answer for it and for all nodes below it. -/
theorem image_eq_self (gives : ∀ q : Shared R, q.Part p → ∃ v v', r.Gives q v v')
    (silent : ∀ q : Shared R, q.Part p → r.answer q = none) : r.image p = p := by
  induction p using Program.induct with
  | node n k cs ih =>
    have hchildren : ∀ c ∈ cs, r.image c = c := fun c hc ↦
      ih c hc (fun q hq ↦ gives q (.child hc hq)) fun q hq ↦ silent q (.child hc hq)
    rw [image, silent _ (.refl _), Option.getD_none]
    obtain ⟨v, v', h⟩ := gives _ (.refl _)
    cases h with
    | itself _ given => exact given
    | fresh changed _ =>
      obtain ⟨c, hc, hne⟩ := changed
      exact absurd (hchildren c hc) hne

/-- The answers are structurally those of a rule for trees. -/
theorem unfold_image {g : Tree R → Option (Tree R)}
    (gives : ∀ q : Shared R, q.Part p → ∃ v v', r.Gives q v v')
    (answers : ∀ q : Shared R, q.Part p → (r.answer q).map unfold = g (r.given q).unfold) :
    (r.image p).unfold = replaceBottomUp g p.unfold := by
  induction p using Program.induct with
  | node n k cs ih =>
    have hchildren : replaceBottomUpEach g (cs.map unfold) =
        cs.map fun c ↦ (r.image c).unfold := by
      rw [replaceBottomUpEach_eq_map, List.map_map]
      exact List.map_congr_left fun c hc ↦ (ih c hc (fun q hq ↦ gives q (.child hc hq))
        fun q hq ↦ answers q (.child hc hq)).symm
    obtain ⟨v, v', h⟩ := gives _ (.refl _)
    have hgiven : (r.given (.node n k cs)).unfold =
        .node () k (replaceBottomUpEach g (cs.map unfold)) := by
      rw [hchildren]
      exact h.unfold_eq
    rw [unfold_node, replaceBottomUp, ← hgiven, ← answers _ (.refl _), image]
    cases r.answer (.node n k cs) <;> rfl

end Rewriting

/-! ### Calling the rule for a program -/

variable {rule : Shared R → StateT σ (Build R) (Option (Shared R))} {holds : Nodes R → σ → Prop}
  {nodes : Nodes R} {p : Shared R} {s : σ} {w : Workspace R}

theorem Build.replace_run (p : Shared R) (s : σ) (w : Workspace R) :
    Build.replace rule p s w =
      (((replaceNode rule p {} s w).1.1.1, (replaceNode rule p {} s w).1.2),
        (replaceNode rule p {} s w).2) := rfl

/-- Before anything was visited. -/
theorem underway_nil (hw : w.Holds (fun _ _ ↦ True) nodes) (hs : holds nodes s) :
    Underway holds nodes [] {} s w where
  workspace := hw
  state := hs
  known := nofun
  ordered := .nil
  stores n d := by simp

/-- The rule is called once for each node of a known program. -/
theorem exists_calls (builds : Builds holds rule) (known : p.Known nodes)
    (hw : w.Holds (fun _ _ ↦ True) nodes) (hs : holds nodes s) :
    ∃ (r : Rewriting R) (s' : σ) (w' : Workspace R),
      Build.replace rule p s w = ((r.image p, s'), w') ∧ r.Calls rule p.visits s w s' w' := by
  obtain ⟨_, log, _, -, order, calls, v, hv, hnode, himage⟩ :=
    completes_replaceNode builds known (underway_nil hw hs)
  rw [List.nil_append] at calls hv
  have hnodup : (log.map Visit.name).Nodup := by
    rw [Visit.map_name, order]
    exact Shared.nodup_firsts List.nodup_nil
  obtain ⟨r, records⟩ := exists_records hnodup
  refine ⟨r, _, _, ?_, order ▸ calls r records⟩
  rw [Build.replace_run, ← himage, ← records.image hv, hnode]

variable [ColorModel R] {ps : List (Shared R)}

/-- A program of a session is replaced by any rule, with any state. The rule is called once for each
node, children first, in the order in which a depth-first search is done with the nodes: it is given
the node itself if its children all stay, and otherwise a new node of its kind over what they are
replaced by. Every occurrence of a node is replaced by the same node, and by itself if the rule has
no answer for it and for all below it. If the answers are a matter of structure, then so is the
result, and sharing makes no difference to it. -/
theorem replace_visits (session : Session w ps) (mem : p ∈ ps) (builds : Builds holds rule)
    (state : ∀ nodes : Nodes R, (∀ q ∈ ps, q.Known nodes) → holds nodes s) :
    (p.visits.Nodup ∧ (∀ q : Shared R, q ∈ p.visits ↔ q.Part p) ∧ ChildrenFirst p.visits) ∧
    ∃ (r : Rewriting R) (s' : σ) (w' : Workspace R),
      Build.replace rule p s w = ((r.image p, s'), w') ∧ r.Calls rule p.visits s w s' w' ∧
      (∀ q : Shared R, q.Part p → (∀ t : Shared R, t.Part q → r.answer t = none) →
        r.image q = q) ∧
      ∀ g : Tree R → Option (Tree R),
        (∀ q : Shared R, q.Part p → (r.answer q).map unfold = g (r.given q).unfold) →
          (r.image p).unfold = replaceBottomUp g p.unfold := by
  obtain ⟨nodes, hw, hps⟩ := session.allKnown simplifying_true
  have known := hps p mem
  obtain ⟨r, s', w', hreplace, calls⟩ := exists_calls builds known hw (state nodes hps)
  have gives : ∀ q : Shared R, q.Part p → ∃ v v', r.Gives q v v' :=
    fun q part ↦ calls.gives ((Shared.mem_visits known).2 part)
  refine ⟨⟨Shared.nodup_visits p, fun q ↦ Shared.mem_visits known,
    Shared.childrenFirst_visits known⟩, r, s', w', hreplace, calls, fun q part silent ↦ ?_,
    fun g answers ↦ Rewriting.unfold_image gives answers⟩
  exact Rewriting.image_eq_self (fun t ht ↦ gives t (ht.trans part)) silent

/-! ### A rule that keeps what it was given -/

/-- The first color is kept, and takes the place of all others. -/
def firstColor (q : Shared Float) :
    StateT (Option (Shared Float)) (Build Float) (Option (Shared Float)) := do
  match q.kind, ← get with
  | .color _, none =>
    set (some q)
    return none
  | .color _, some first => return some first
  | _, _ => return none

/-- What the rule keeps is a program that exists. -/
def KeepsKnown (nodes : Nodes Float) (kept : Option (Shared Float)) : Prop :=
  ∀ q, kept = some q → q.Known nodes

/-- The rule answers with the color that it keeps, which is known. -/
theorem builds_firstColor : Builds KeepsKnown firstColor where
  mono extend h q hq := (h q hq).mono extend
  call {nodes q kept} known h := by
    rw [firstColor]
    cases q.kind with
    | color =>
      cases kept with
      | none =>
        refine Build.yields_pure ⟨nofun, fun first hfirst ↦ ?_⟩
        cases hfirst
        exact known
      | some first => exact Build.yields_pure ⟨h, h⟩
    | _ => exact Build.yields_pure ⟨nofun, h⟩

def redSpot : Shared Float := .node 0 (.color ⟨1, 0, 0, 1⟩) []

def blueSpot : Shared Float := .node 1 (.color ⟨0, 0, 1, 1⟩) []

def spotLayers : Shared Float := .node 2 .stack [redSpot, blueSpot]

def spotPair : Shared Float := .node 3 (.blendCompose .atop .multiply) [spotLayers, blueSpot]

theorem session_spotPair : Session ⟨4, {}⟩ [spotPair, spotLayers, blueSpot, redSpot] := by
  have hred : Session ⟨1, {}⟩ [redSpot] := .node (.color ⟨1, 0, 0, 1⟩) .start nofun
  have hblue : Session ⟨2, {}⟩ [blueSpot, redSpot] := .node (.color ⟨0, 0, 1, 1⟩) hred nofun
  have hlayers : Session ⟨3, {}⟩ [spotLayers, blueSpot, redSpot] := .node .stack hblue (by simp)
  exact .node (.blendCompose .atop .multiply) hlayers (by simp)

/-- Blue is visited once, although two nodes have it as a child. -/
theorem visits_spotPair : spotPair.visits = [redSpot, blueSpot, spotLayers, spotPair] := rfl

/-- The rule is called once on each of four nodes, and keeps the first color. -/
theorem replace_visits_spotPair :
    Session ⟨4, {}⟩ [spotPair, spotLayers, blueSpot, redSpot] ∧ Builds KeepsKnown firstColor ∧
    (spotPair.visits.Nodup ∧ (∀ q : Shared Float, q ∈ spotPair.visits ↔ q.Part spotPair) ∧
      ChildrenFirst spotPair.visits) ∧
    ∃ (r : Rewriting Float) (kept : Option (Shared Float)) (w : Workspace Float),
      Build.replace firstColor spotPair none ⟨4, {}⟩ = ((r.image spotPair, kept), w) ∧
      r.Calls firstColor [redSpot, blueSpot, spotLayers, spotPair] none ⟨4, {}⟩ kept w ∧
      (∀ q : Shared Float, q.Part spotPair →
        (∀ t : Shared Float, t.Part q → r.answer t = none) → r.image q = q) ∧
      ∀ g : Tree Float → Option (Tree Float),
        (∀ q : Shared Float, q.Part spotPair → (r.answer q).map unfold = g (r.given q).unfold) →
          (r.image spotPair).unfold = replaceBottomUp g spotPair.unfold := by
  have hstate : ∀ nodes : Nodes Float,
      (∀ q ∈ [spotPair, spotLayers, blueSpot, redSpot], q.Known nodes) → KeepsKnown nodes none :=
    fun _ _ ↦ nofun
  obtain ⟨order, calls⟩ :=
    replace_visits session_spotPair List.mem_cons_self builds_firstColor hstate
  rw [visits_spotPair] at calls
  exact ⟨session_spotPair, builds_firstColor, order, calls⟩

end Shading
