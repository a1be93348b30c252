import Shading.Proofs.Program.Counting
import Shading.Proofs.Program.Later
import Shading.Proofs.Program.Unshared

/-!
# Sharing is invisible

What a workspace notes of simplifications is a matter of speed only. Whatever nodes of a session are
simplified, and in whatever order, a node has one answer, and unfolded to a tree it is what
simplification without any notes makes of the unfolded program. Nor does simplification undo
sharing: the nodes of an answer are answers for nodes of the program, so there are no more of them.

The programs hold no `NaN`: a program with one differs from itself, unless the comparison stops at
the node because it is the same.
-/

namespace Shading

variable {R : Type} [ColorModel R]

/-! ### Answers as a function -/

section

variable {w : Workspace R} {p q : Shared R}

/-- The simplification that is noted for a program. -/
def Workspace.answer (w : Workspace R) (p : Shared R) : Shared R :=
  match w.settled[p.name]? with
  | some (.replaced q) => q
  | _ => p

omit [ColorModel R] in
/-- The answer of a program that has one. -/
theorem Workspace.Answers.answer_eq (h : w.Answers p q) : w.answer p = q := by
  rw [answer]
  rcases h with ⟨h, rfl⟩ | h
  · rw [show w.settled[q.name]? = _ from h]
  · rw [h]

end

/-- In a session with this workspace and these programs, the answer for a program does not depend on
what else is shared or was simplified. -/
structure FaithfulAnswer (w : Workspace R) (ps : List (Shared R)) (answer : Shared R → Shared R)
    (p : Shared R) : Prop where
  /-- The program has this answer now and at all later times. -/
  stays : ∀ w' ps', Session.Later w ps w' ps' → Build.simplified p w' = (answer p, w')
  /-- The answer is what simplification without notes makes of the unfolded program. -/
  unfolds : (answer p).unfold = Tree.simplified p.unfold
  /-- Every node of the answer is the answer for a node of the program. -/
  shares : ∀ q : Shared R, q.Part (answer p) → ∃ c : Shared R, c.Part p ∧ answer c = q
  /-- The answer has no more different nodes than the program. -/
  count : (answer p).distinctCount ≤ p.distinctCount

theorem Build.follows_simplified (p : Shared R) : Build.Follows Build.simplified p :=
  fun _ _ _ h ↦ h _ (Nat.le_succ _)

variable [NaNLaws R]

/-- An answer that a coherent workspace has noted is faithful. -/
theorem faithfulAnswer_of_answers {nodes : Nodes R} {w : Workspace R} {ps : List (Shared R)}
    {p r : Shared R}
    (hw : w.Coherent (fun p q ↦
      p.NaNFree → q.NaNFree ∧ Tree.simplified q.unfold = Tree.simplified p.unfold) nodes)
    (hps : ∀ q ∈ ps, q.Known nodes) (hp : p.Known nodes) (free : p.NaNFree)
    (h : w.Answers p r) : FaithfulAnswer w ps w.answer p := by
  have hres := hw.resolved settling_unfold hp h
  have hanswer := h.answer_eq
  have hshares : ∀ q : Shared R, q.Part r → ∃ c : Shared R, c.Part p ∧ w.answer c = q := by
    intro q hq
    obtain ⟨c, hc, hcq⟩ := hres.parts q hq
    exact ⟨c, hc, hcq.answer_eq⟩
  refine ⟨fun w' ps' later ↦ ?_, ?_, ?_, ?_⟩
  · obtain ⟨_, _, progress, -⟩ := later.progress settling_unfold hw hps
    rw [hanswer]
    exact Build.simplified_of_answers (h.mono progress.grows)
  · obtain ⟨hfree, htree⟩ := hres.related free
    have hirreducible := hw.irreducible hres.known hres.final
    rw [hanswer, ← htree, simplified_unfold_of_irreducible hres.known hfree hirreducible]
  · rwa [hanswer]
  · rw [hanswer]
    exact Shared.distinctCount_le hp hres.known w.answer hshares

/-- Once a program is simplified, all of its parts have faithful answers. -/
theorem exists_faithfulAnswer {w : Workspace R} {ps : List (Shared R)} {p : Shared R}
    (session : Session w ps) (mem : p ∈ ps) (free : p.NaNFree) :
    ∃ answer w', Build.simplified p w = (answer p, w') ∧
      ∀ q, q.Part p → FaithfulAnswer w' ps answer q := by
  obtain ⟨nodes, hw, known⟩ := session.coherent settling_unfold
  obtain ⟨r, nodes', w', hr⟩ := Build.exists_settles settling_unfold hw (known p mem)
  have known' : ∀ q ∈ ps, q.Known nodes' := fun q hq ↦ (known q hq).mono hr.progress.extend
  refine ⟨w'.answer, w', ?_, fun q part ↦ ?_⟩
  · rw [hr.answers.answer_eq]
    exact hr.runs _ (Nat.le_succ _)
  · obtain ⟨y, hy⟩ := hr.progress.coherent.answers_of_part (known' p mem) hr.answers part
    exact faithfulAnswer_of_answers hr.progress.coherent known' ((known' p mem).of_part part)
      (free.of_part part) hy

/-- In any session, a program is simplified as its unfolded tree is. -/
theorem unfold_simplified {w : Workspace R} {ps : List (Shared R)} {p : Shared R}
    (session : Session w ps) (mem : p ∈ ps) (free : p.NaNFree) :
    (Build.simplified p w).1.unfold = Tree.simplified p.unfold := by
  obtain ⟨answer, w', hrun, hparts⟩ := exists_faithfulAnswer session mem free
  rw [hrun]
  exact (hparts p (.refl p)).unfolds

/-- Any nodes of programs of a session are simplified, in any order and any number of times. All of
them and all nodes within them have answers that tell nothing of the order and of sharing. -/
theorem simplified_faithful {w : Workspace R} {ps : List (Shared R)} (session : Session w ps)
    {calls : List (Shared R)} (within : ∀ c ∈ calls, ∃ p ∈ ps, p.NaNFree ∧ c.Part p) :
    ∃ answer w', calls.mapM Build.simplified w = (calls.map answer, w') ∧
      ∀ c ∈ calls, ∀ q : Shared R, q.Part c →
        FaithfulAnswer w' (calls.map answer ++ ps) answer q := by
  obtain ⟨nodes, hw, known⟩ := session.coherent settling_unfold
  have hcalls : ∀ c ∈ calls, c.Known nodes ∧ c.NaNFree := by
    intro c hc
    obtain ⟨p, hp, free, part⟩ := within c hc
    exact ⟨(known p hp).of_part part, free.of_part part⟩
  have hlight : ∀ c ∈ calls, c.weight < Program.weights calls + 1 :=
    fun c hc ↦ Nat.lt_succ_of_le (Program.weight_le_weights hc)
  obtain ⟨answers, nodes', w', hrun, progress, hanswers⟩ := Build.exists_mapM hlight
    (fun c _ nodes w hw hc ↦ Build.exists_settles settling_unfold hw hc) hw
    fun c hc ↦ (hcalls c hc).1
  have hw' := progress.coherent
  have hmap : answers = calls.map w'.answer := by
    have hsame := map_eq_of_forall₂ (g := id) (hanswers.imp fun _ _ hd ↦ hd.answer_eq.symm)
    rwa [List.map_id] at hsame
  have hanswered : ∀ c ∈ calls, ∃ d, w'.Answers c d :=
    forall_mem_of_forall₂ hanswers.flip fun d _ hd ↦ ⟨d, hd⟩
  have hps : ∀ q ∈ calls.map w'.answer ++ ps, q.Known nodes' := by
    refine List.forall_mem_append.2 ⟨fun q hq ↦ ?_, fun q hq ↦ (known q hq).mono progress.extend⟩
    obtain ⟨c, hc, rfl⟩ := List.mem_map.1 hq
    obtain ⟨d, hd⟩ := hanswered c hc
    rw [hd.answer_eq]
    exact (hw'.resolved settling_unfold ((hcalls c hc).1.mono progress.extend) hd).known
  refine ⟨w'.answer, w', ?_, fun c hc q part ↦ ?_⟩
  · rw [hrun Build.simplified fun c _ ↦ Build.follows_simplified c, hmap]
  · obtain ⟨d, hd⟩ := hanswered c hc
    have hc' := (hcalls c hc).1.mono progress.extend
    obtain ⟨r, hr⟩ := hw'.answers_of_part hc' hd part
    exact faithfulAnswer_of_answers hw' hps (hc'.of_part part) ((hcalls c hc).2.of_part part) hr

/-! ### A layer of two programs -/

def redDot : Shared Float := .node 0 (.color ⟨1, 0, 0, 1⟩) []

def sharedLayer : Shared Float := .node 1 .stack [redDot]

def sharedPair : Shared Float := .node 2 (.blendCompose .atop .multiply) [sharedLayer, redDot]

theorem session_sharedPair : Session ⟨3, {}⟩ [sharedPair, sharedLayer, redDot] := by
  have hdot : Session ⟨1, {}⟩ [redDot] := .node (.color ⟨1, 0, 0, 1⟩) .start nofun
  have hlayer : Session ⟨2, {}⟩ [sharedLayer, redDot] := .node .stack hdot (by simp)
  exact .node (.blendCompose .atop .multiply) hlayer (by simp)

/-- The numbers of the pair are zeros and ones. -/
theorem nanFree_sharedPair : sharedPair.NaNFree := by
  have hdot : redDot.NaNFree := by
    refine .node ?_ (List.forall_mem_nil _)
    have hone : Float.beq 1 1 = true := rfl
    have hzero : Float.beq 0 0 = true := rfl
    exact selfEqual_cons.2 ⟨hone, selfEqual_cons.2 ⟨hzero, selfEqual_cons.2 ⟨hzero,
      selfEqual_cons.2 ⟨hone, selfEqual_nil⟩⟩⟩⟩
  have hlayer : sharedLayer.NaNFree := .node selfEqual_nil (List.forall_mem_singleton.2 hdot)
  exact .node selfEqual_nil (List.forall_mem_cons.2 ⟨hlayer, List.forall_mem_singleton.2 hdot⟩)

/-- A pair and its layer are simplified in turn, and the pair once more. -/
theorem simplified_sharedPair_faithful :
    Session ⟨3, {}⟩ [sharedPair, sharedLayer, redDot] ∧
    (∀ c ∈ [sharedPair, sharedLayer, sharedPair],
      ∃ p ∈ [sharedPair, sharedLayer, redDot], p.NaNFree ∧ c.Part p) ∧
    ∃ answer w', [sharedPair, sharedLayer, sharedPair].mapM Build.simplified ⟨3, {}⟩ =
        ([answer sharedPair, answer sharedLayer, answer sharedPair], w') ∧
      ∀ c ∈ [sharedPair, sharedLayer, sharedPair], ∀ q : Shared Float, q.Part c →
        FaithfulAnswer w' [answer sharedPair, answer sharedLayer, answer sharedPair, sharedPair,
          sharedLayer, redDot] answer q := by
  have hlayer : sharedLayer.Part sharedPair := .child List.mem_cons_self (.refl _)
  have within : ∀ c ∈ [sharedPair, sharedLayer, sharedPair],
      ∃ p ∈ [sharedPair, sharedLayer, redDot], p.NaNFree ∧ c.Part p := by
    have hpair : ∀ c : Shared Float, c.Part sharedPair →
        ∃ p ∈ [sharedPair, sharedLayer, redDot], p.NaNFree ∧ c.Part p :=
      fun c part ↦ ⟨sharedPair, List.mem_cons_self, nanFree_sharedPair, part⟩
    simp only [List.forall_mem_cons]
    exact ⟨hpair _ (.refl _), hpair _ hlayer, hpair _ (.refl _), List.forall_mem_nil _⟩
  exact ⟨session_sharedPair, within, simplified_faithful session_sharedPair within⟩

end Shading
