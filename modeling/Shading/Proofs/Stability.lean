import Shading.Proofs.Program.Reduced
import Shading.Proofs.Sharing

/-!
# Simplification comes to rest

The simplifier ends on every program of a session, with an answer that it never changes: whatever
happens in the workspace later, the program and its simplification have the same answer, the very
same node. Every node of the answer is its own simplification, so no rule applies to any of them,
and a program without a node that a rule applies to is its own simplification.
-/

namespace Shading

variable {R : Type} [ColorModel R]

/-- A session with the first workspace and the given programs simplifies one of them, which leads to
the given answer and to the second workspace, and the answer is for good. -/
structure ComesToRest (w : Workspace R) (ps : List (Shared R)) (p r : Shared R) (w' : Workspace R) :
    Prop where
  /-- The bound on nested steps is not reached, since a larger one makes no difference. -/
  ends : ∀ fuel, p.weight ≤ fuel → Build.simplifyWithin fuel p w = (r, w')
  /-- The recursion holds without a bound; what takes the place of a node is simplified in turn. -/
  recursion : Build.simplifyStep Build.simplified p w = (r, w')
  /-- The same node is the answer for the program and for itself ever after. -/
  stays : ∀ w'' ps', Session.Later w' (r :: ps) w'' ps' →
    Build.simplified p w'' = (r, w'') ∧ Build.simplified r w'' = (r, w'')
  /-- Every node of the answer is noted as its own simplification. -/
  noted : ∀ w'' ps', Session.Later w' (r :: ps) w'' ps' →
    ∀ q, q.Part r → Build.isSimplified q w'' = (true, w'')
  /-- No rule applies to any node of the answer. -/
  irreducible : ∀ q, q.Part r → reduce? Shared.eq q = none
  /-- If nodes have as many children as their kinds accept, those of the answer are reduced. -/
  reduced : p.Formed → ∀ q : Shared R, q.Part r → q.Reduced
  /-- A program that no rule applies to is its own simplification. -/
  itself : (∀ q, q.Part p → reduce? Shared.eq q = none) → r = p

/-- Simplifying any program of a session, whatever was simplified before, comes to rest. -/
theorem simplified_comesToRest {w : Workspace R} {ps : List (Shared R)} (session : Session w ps)
    {p : Shared R} (mem : p ∈ ps) :
    ∃ r w', Build.simplified p w = (r, w') ∧ ComesToRest w ps p r w' := by
  have settling := (settling_formed (R := R)).and settling_irreducible
  obtain ⟨nodes, hw, known⟩ := session.coherent settling
  obtain ⟨r, nodes', w', hr⟩ := Build.exists_settles settling hw (known p mem)
  have hw' := hr.progress.coherent
  have known' : ∀ q ∈ ps, q.Known nodes' := fun q hq ↦ (known q hq).mono hr.progress.extend
  have hres := hw'.resolved settling (known' p mem) hr.answers
  have hps : ∀ q ∈ r :: ps, q.Known nodes' := List.forall_mem_cons.2 ⟨hres.known, known'⟩
  have hirreducible := hw'.irreducible hres.known hres.final
  refine ⟨r, w', hr.runs _ (Nat.le_succ _), hr.runs, hr.step, fun w'' ps' later ↦ ?_,
    fun w'' ps' later q part ↦ ?_, hirreducible, fun formed q part ↦ ?_, hres.related.2⟩
  · obtain ⟨_, _, progress, -⟩ := later.progress settling hw' hps
    exact ⟨Build.simplified_of_answers (hr.answers.mono progress.grows),
      Build.simplified_of_answers (hres.final.mono progress.grows).answers⟩
  · obtain ⟨_, _, progress, -⟩ := later.progress settling hw' hps
    exact Build.isSimplified_of_final
      ((hw'.final_of_part hres.known hres.final part).mono progress.grows)
  · exact reduced_of_reduce?_eq_none ((hres.related.1 formed).of_part part) (hirreducible q part)

/-! ### Stacks of faded layers -/

def blackDot : Shared Float := .node 0 (.color ⟨0, 0, 0, 1⟩) []

def mist : Shared Float := .node 1 (.color ⟨0.5, 0, 0, 0.5⟩) []

def mistBlend : Shared Float := .node 2 (.linearBlend ⟨⟨1, 0⟩, 0⟩ .splitCentroid) [blackDot, mist]

def fadedBlend : Shared Float := .node 3 (.alpha 0.5) [mistBlend]

/-- Faded in two steps. -/
def fadedTwice : Shared Float := .node 4 (.alpha 0.5) [fadedBlend]

def innerStack : Shared Float := .node 5 .stack [mistBlend, fadedTwice]

/-- A color that is not computed yet. -/
def thickMist : Shared Float := .node 6 .premultiply [mist]

def outerStack : Shared Float := .node 7 .stack [innerStack, thickMist]

/-- The programs in the order in which they are made, the latest first. -/
def layeredMist : List (Shared Float) :=
  [outerStack, thickMist, innerStack, fadedTwice, fadedBlend, mistBlend, mist, blackDot]

theorem session_layeredMist : Session ⟨8, {}⟩ layeredMist := by
  have hdot : Session ⟨1, {}⟩ [blackDot] := .node (.color ⟨0, 0, 0, 1⟩) .start nofun
  have hmist : Session ⟨2, {}⟩ [mist, blackDot] := .node (.color ⟨0.5, 0, 0, 0.5⟩) hdot nofun
  have hblend : Session ⟨3, {}⟩ [mistBlend, mist, blackDot] :=
    .node (.linearBlend ⟨⟨1, 0⟩, 0⟩ .splitCentroid) hmist (by simp)
  have hfaded : Session ⟨4, {}⟩ [fadedBlend, mistBlend, mist, blackDot] :=
    .node (.alpha 0.5) hblend (by simp)
  have htwice : Session ⟨5, {}⟩ [fadedTwice, fadedBlend, mistBlend, mist, blackDot] :=
    .node (.alpha 0.5) hfaded (by simp)
  have hinner : Session ⟨6, {}⟩ [innerStack, fadedTwice, fadedBlend, mistBlend, mist, blackDot] :=
    .node .stack htwice (by simp)
  have hthick : Session ⟨7, {}⟩
      [thickMist, innerStack, fadedTwice, fadedBlend, mistBlend, mist, blackDot] :=
    .node .premultiply hinner (by simp)
  exact .node .stack hthick (by simp)

/-- The numbers of all nodes are finite. -/
theorem valid_outerStack : outerStack.Valid := by
  have hdot : blackDot.Valid := .node rfl nofun
  have hmist : mist.Valid := .node rfl nofun
  have hblend : mistBlend.Valid := .node rfl (forall_mem_pair hdot hmist)
  have hfaded : fadedBlend.Valid := .node rfl (List.forall_mem_singleton.2 hblend)
  have htwice : fadedTwice.Valid := .node rfl (List.forall_mem_singleton.2 hfaded)
  have hinner : innerStack.Valid := .node rfl (forall_mem_pair hblend htwice)
  have hthick : thickMist.Valid := .node rfl (List.forall_mem_singleton.2 hmist)
  exact .node rfl (forall_mem_pair hinner hthick)

/-- The blend, without the names of its nodes. -/
def mistTree : Tree Float :=
  .node () (.linearBlend ⟨⟨1, 0⟩, 0⟩ .splitCentroid)
    [.node () (.color ⟨0, 0, 0, 1⟩) [], .node () (.color ⟨0.5, 0, 0, 0.5⟩) []]

/-- The blend, faded in one step. -/
def fadedTree : Tree Float := .node () (.alpha (0.5 * 0.5)) [mistTree]

def thickTree : Tree Float := .node () (.color (premultiply ⟨0.5, 0, 0, 0.5⟩)) []

/-- One stack of three layers, the second faded in one step and the third computed. -/
def settledMist : Tree Float := .node () .stack [mistTree, fadedTree, thickTree]

theorem simplified_mistTree : Tree.simplified mistTree = mistTree :=
  Tree.simplified_of_kept
    (by simp only [List.map_cons, Tree.simplified_color, List.map_nil]) rfl

theorem simplified_fadedTree : Tree.simplified fadedTree = fadedTree :=
  Tree.simplified_of_kept (by rw [List.map_cons, simplified_mistTree, List.map_nil]) rfl

theorem unfold_mistBlend : mistBlend.unfold = mistTree := by
  simp only [mistBlend, blackDot, mist, unfold_node, List.map_cons, List.map_nil, mistTree]

/-- The two steps become one, over the blend. -/
theorem simplified_fadedTwice : Tree.simplified fadedTwice.unfold = fadedTree := by
  have hinner : Tree.simplified fadedBlend.unfold = .node () (.alpha 0.5) [mistTree] := by
    rw [fadedBlend, unfold_node, List.map_cons, List.map_nil, unfold_mistBlend]
    exact Tree.simplified_of_kept (by rw [List.map_cons, simplified_mistTree, List.map_nil]) rfl
  have houter : [fadedBlend.unfold].map Tree.simplified = [.node () (.alpha 0.5) [mistTree]] := by
    rw [List.map_cons, hinner, List.map_nil]
  rw [fadedTwice, unfold_node, List.map_cons, List.map_nil,
    Tree.simplified_of_reduced (r := .fresh (.alpha (0.5 * 0.5)) [mistTree]) houter rfl]
  exact simplified_fadedTree

/-- No rule applies to the inner stack, once its second layer is faded in one step. -/
theorem simplified_innerStack :
    Tree.simplified innerStack.unfold = .node () .stack [mistTree, fadedTree] := by
  have hlayers : [mistTree, fadedTwice.unfold].map Tree.simplified = [mistTree, fadedTree] := by
    rw [List.map_cons, List.map_cons, simplified_mistTree, simplified_fadedTwice, List.map_nil]
  rw [innerStack, unfold_node, List.map_cons, List.map_cons, List.map_nil, unfold_mistBlend]
  exact Tree.simplified_of_kept hlayers rfl

/-- The color is computed. -/
theorem simplified_thickMist : Tree.simplified thickMist.unfold = thickTree := by
  have hmist : [(.node () (.color ⟨0.5, 0, 0, 0.5⟩) [] : Tree Float)].map Tree.simplified =
      [.node () (.color ⟨0.5, 0, 0, 0.5⟩) []] := by
    rw [List.map_cons, Tree.simplified_color, List.map_nil]
  simp only [thickMist, mist, unfold_node, List.map_cons, List.map_nil]
  rw [Tree.simplified_of_reduced (r := .fresh (.color (premultiply ⟨0.5, 0, 0, 0.5⟩)) []) hmist rfl]
  exact Tree.simplified_color _

/-- The stack within the stack is taken apart. -/
theorem simplified_unfold_outerStack : Tree.simplified outerStack.unfold = settledMist := by
  have hnested : [innerStack.unfold, thickMist.unfold].map Tree.simplified =
      [.node () .stack [mistTree, fadedTree], thickTree] := by
    rw [List.map_cons, List.map_cons, simplified_innerStack, simplified_thickMist, List.map_nil]
  have hflat : [mistTree, fadedTree, thickTree].map Tree.simplified =
      [mistTree, fadedTree, thickTree] := by
    rw [List.map_cons, List.map_cons, List.map_cons, simplified_mistTree, simplified_fadedTree,
      thickTree, Tree.simplified_color, List.map_nil]
  rw [outerStack, unfold_node, List.map_cons, List.map_cons, List.map_nil,
    Tree.simplified_of_reduced (r := .fresh .stack [mistTree, fadedTree, thickTree]) hnested rfl]
  exact Tree.simplified_of_kept hflat rfl

/-- The outer stack is taken apart, its second layer faded in one step and its third one computed.
-/
theorem outerStack_comesToRest :
    Session ⟨8, {}⟩ layeredMist ∧ outerStack ∈ layeredMist ∧ outerStack.Formed ∧
      ∃ r w', Build.simplified outerStack ⟨8, {}⟩ = (r, w') ∧
        ComesToRest ⟨8, {}⟩ layeredMist outerStack r w' ∧ r.unfold = settledMist ∧
        ∀ q : Shared Float, q.Part r → q.Reduced := by
  have mem : outerStack ∈ layeredMist := List.mem_cons_self
  have hunfold := unfold_simplified session_layeredMist mem valid_outerStack.nanFree
  obtain ⟨r, w', hrun, hrest⟩ := simplified_comesToRest session_layeredMist mem
  rw [hrun, simplified_unfold_outerStack] at hunfold
  exact ⟨session_layeredMist, mem, valid_outerStack.formed, r, w', hrun, hrest, hunfold,
    hrest.reduced valid_outerStack.formed⟩

end Shading
