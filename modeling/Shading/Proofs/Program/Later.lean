import Shading.Proofs.Program.Sessions
import Shading.Proofs.Program.Settling

/-!
# Sessions that go on

What a workspace has noted at some time of a session is still noted at any later time, and all of it
can be trusted (`Session.coherent`, `Session.Later.progress`). Only simplification notes answers:
making nodes, choosing the sides of paths and moving programs leave them as they are
(`Build.Quiet`).
-/

namespace Shading

variable {R σ : Type}

/-! ### Computations that note no answers -/

namespace Build

variable {α β : Type}

/-- The computation leaves the noted answers as they are. -/
def Quiet (m : Build R α) : Prop := ∀ w, (m w).2.settled = w.settled

theorem quiet_pure (a : α) : Quiet (pure a : Build R α) := fun _ ↦ rfl

theorem Quiet.bind {m : Build R α} {f : α → Build R β} (hm : Quiet m) (hf : ∀ a, Quiet (f a)) :
    Quiet (m >>= f) := fun w ↦ (hf (m w).1 (m w).2).trans (hm w)

/-- A new node is not settled. -/
theorem quiet_node (kind : Kind R) (children : List (Shared R)) : Quiet (node kind children) :=
  fun _ ↦ rfl

theorem quiet_rebuild (p : Shared R) (children : List (Shared R)) :
    Quiet (rebuild p children) := by
  rw [rebuild]
  split
  · exact quiet_pure p
  · exact quiet_node _ _

section

variable {rule : Shared R → StateT σ (Build R) (Option (Shared R))}

/-- Replacing children settles nothing, if replacing each does. -/
theorem quiet_replaceEach {cs : List (Shared R)}
    (each : ∀ c ∈ cs, ∀ (memo : Memo R) (s : σ), Quiet (replaceNode rule c memo s))
    (memo : Memo R) (s : σ) : Quiet (replaceEach rule cs memo s) := by
  induction cs generalizing memo s with
  | nil =>
    rw [replaceEach]
    exact quiet_pure _
  | cons c cs ih =>
    rw [List.forall_mem_cons] at each
    rw [replaceEach_cons_run]
    refine (each.1 memo s).bind fun a ↦ (ih each.2 _ _).bind fun b ↦ quiet_pure _

/-- Replacing settles nothing, if the rule does. -/
theorem quiet_replaceNode (quiet : ∀ q s, Quiet (rule q s)) (p : Shared R) (memo : Memo R) (s : σ) :
    Quiet (replaceNode rule p memo s) := by
  induction p using Program.induct generalizing memo s with
  | node n k cs ih =>
    rw [replaceNode_run]
    split
    · exact quiet_pure _
    · refine (quiet_replaceEach ih memo s).bind fun a ↦ (quiet_rebuild _ _).bind fun b ↦ ?_
      exact (quiet _ _).bind fun c ↦ quiet_pure _

end

theorem quiet_replaceBy {rule : Shared R → Build R (Option (Shared R))}
    (quiet : ∀ q, Quiet (rule q)) (p : Shared R) : Quiet (replaceBy rule p) := by
  rw [replaceBy_run]
  refine (quiet_replaceNode (fun q s ↦ ?_) p {} ()).bind fun a ↦ quiet_pure _
  exact (quiet q).bind fun found ↦ quiet_pure (found, s)

/-- Choosing sides of paths settles nothing. -/
theorem quiet_withPathInclusion (isInside : Path → Bool) (p : Shared R) :
    Quiet (withPathInclusion isInside p) := by
  refine quiet_replaceBy (fun q ↦ ?_) p
  split <;> exact quiet_pure _

/-- Moving a program settles nothing. -/
theorem quiet_transformed [Scalar R] (m : Affine R) (p : Shared R) : Quiet (transformed m p) := by
  rw [transformed]
  split
  · exact quiet_pure _
  · refine (quiet_replaceBy (fun q ↦ ?_) p).bind fun q ↦ quiet_pure _
    split
    · exact (quiet_node _ _).bind fun a ↦ quiet_pure _
    · exact quiet_pure _

end Build

/-! ### Steps of a session -/

variable [ColorModel R]

/-- One operation on programs of a session, from a workspace and the programs so far to those
after it. -/
inductive Session.Step : Workspace R → List (Shared R) → Workspace R → List (Shared R) → Prop
  | node {w : Workspace R} {ps cs : List (Shared R)} (kind : Kind R) : (∀ c ∈ cs, c ∈ ps) →
      Step w ps (Build.node kind cs w).2 ((Build.node kind cs w).1 :: ps)
  | child {w : Workspace R} {ps cs : List (Shared R)} {n : Nat} {kind : Kind R} {c : Shared R} :
    .node n kind cs ∈ ps → c ∈ cs → Step w ps w (c :: ps)
  | simplified {w : Workspace R} {ps : List (Shared R)} {p : Shared R} : p ∈ ps →
      Step w ps (Build.simplified p w).2 ((Build.simplified p w).1 :: ps)
  | withPathInclusion {w : Workspace R} {ps : List (Shared R)} {p : Shared R}
    (isInside : Path → Bool) : p ∈ ps →
      Step w ps (Build.withPathInclusion isInside p w).2
        ((Build.withPathInclusion isInside p w).1 :: ps)
  | transformed {w : Workspace R} {ps : List (Shared R)} {p q : Shared R} (m : Affine R) :
    p ∈ ps → (Build.transformed m p w).1 = .ok q →
      Step w ps (Build.transformed m p w).2 (q :: ps)

/-- A session with the given workspace and programs may come to these others. -/
inductive Session.Later (w : Workspace R) (ps : List (Shared R)) :
    Workspace R → List (Shared R) → Prop
  | refl : Later w ps w ps
  | step {w' w'' : Workspace R} {ps' ps'' : List (Shared R)} :
    Later w ps w' ps' → Step w' ps' w'' ps'' → Later w ps w'' ps''

variable {rel : Shared R → Shared R → Prop} {w w' : Workspace R} {ps ps' : List (Shared R)}

/-- A session goes on with each of its steps. -/
theorem Session.step (h : Session w ps) (step : Session.Step w ps w' ps') : Session w' ps' := by
  cases step with
  | node kind hcs => exact .node kind h hcs
  | child hp hc => exact .child h hp hc
  | simplified hp => exact .simplified h hp
  | withPathInclusion isInside hp => exact .withPathInclusion isInside h hp
  | transformed m hp hfound => exact .transformed m h hp hfound

/-- Sessions are what may come of the empty workspace. -/
theorem session_iff_later : Session w ps ↔ Session.Later {} [] w ps := by
  refine ⟨fun h ↦ ?_, fun h ↦ ?_⟩
  · induction h with
    | start => exact .refl
    | node kind _ hcs ih => exact ih.step (.node kind hcs)
    | child _ hp hc ih => exact ih.step (.child hp hc)
    | simplified _ hp ih => exact ih.step (.simplified hp)
    | withPathInclusion isInside _ hp ih => exact ih.step (.withPathInclusion isInside hp)
    | transformed m _ hp hfound ih => exact ih.step (.transformed m hp hfound)
  · induction h with
    | refl => exact .start
    | step _ hstep ih => exact ih.step hstep

/-! ### What is noted stays noted -/

variable {nodes : Nodes R}

/-- What a quiet computation yields, it yields in a coherent workspace, which stays so. -/
theorem progress_of_quiet (bound : Nat) {α : Type} {m : Build R α} {good : Nodes R → α → Prop}
    (quiet : Build.Quiet m) (yields : Build.Yields (fun _ _ ↦ True) nodes m good)
    (hw : w.Coherent rel nodes) :
    ∃ nodes', w.Progress rel bound nodes nodes' (m w).2 ∧ good nodes' (m w).1 := by
  have holds : w.Holds (fun _ _ ↦ True) nodes := by
    refine ⟨hw.unused, fun n q h ↦ ?_⟩
    obtain ⟨p, hname, hp, hsound⟩ := hw.sound n _ h
    cases hsound with
    | replaced _ hq => exact ⟨p, hname ▸ hp.eq_some, hq.known, trivial⟩
  obtain ⟨nodes', extend, hw', hgood⟩ := yields w holds
  exact ⟨nodes', .of_settled_eq hw extend (quiet w) hw'.unused, hgood⟩

/-- An operation keeps what is noted. -/
theorem Session.Step.progress (settling : Settling rel) (h : Session.Step w ps w' ps')
    (hw : w.Coherent rel nodes) (hps : ∀ p ∈ ps, p.Known nodes) :
    ∃ bound nodes', w.Progress rel bound nodes nodes' w' ∧ ∀ p ∈ ps', p.Known nodes' := by
  have grown {nodes' : Nodes R} {w' : Workspace R} {q : Shared R} {bound : Nat}
      (progress : w.Progress rel bound nodes nodes' w') (hq : q.Known nodes') :
      ∃ bound nodes', w.Progress rel bound nodes nodes' w' ∧ ∀ p ∈ q :: ps, p.Known nodes' :=
    ⟨bound, nodes', progress,
      List.forall_mem_cons.2 ⟨hq, fun p hp ↦ (hps p hp).mono progress.extend⟩⟩
  cases h with
  | node kind hcs =>
    obtain ⟨_, progress, hq, -⟩ := progress_node hw 0 kind fun c hc ↦ hps c (hcs c hc)
    exact grown progress hq
  | child hp hc =>
    have progress : w.Progress rel 0 nodes nodes w := .refl hw
    exact grown progress ((hps _ hp).of_mem _ hc)
  | simplified hp =>
    obtain ⟨q, nodes', w', hq⟩ := Build.exists_settles settling hw (hps _ hp)
    rw [show Build.simplified _ w = (q, w') from hq.runs _ (Nat.le_succ _)]
    have hres := hq.progress.coherent.resolved settling ((hps _ hp).mono hq.progress.extend)
      hq.answers
    exact grown hq.progress hres.known
  | withPathInclusion isInside hp =>
    obtain ⟨_, progress, hq, -⟩ := progress_of_quiet 0 (Build.quiet_withPathInclusion isInside _)
      (Build.yields_withPathInclusion isInside (hps _ hp)) hw
    exact grown progress hq
  | transformed m hp hfound =>
    obtain ⟨_, progress, hq⟩ := progress_of_quiet 0 (Build.quiet_transformed m _)
      (Build.yields_transformed m (hps _ hp)) hw
    exact grown progress (hq _ hfound)

/-- Any number of operations keep what is noted. -/
theorem Session.Later.progress (settling : Settling rel) (h : Session.Later w ps w' ps')
    (hw : w.Coherent rel nodes) (hps : ∀ p ∈ ps, p.Known nodes) :
    ∃ bound nodes', w.Progress rel bound nodes nodes' w' ∧ ∀ p ∈ ps', p.Known nodes' := by
  induction h with
  | refl => exact ⟨0, nodes, .refl hw, hps⟩
  | step _ hstep ih =>
    obtain ⟨bound, nodes₁, progress, hps'⟩ := ih
    obtain ⟨bound', nodes₂, progress', hps''⟩ := hstep.progress settling progress.coherent hps'
    exact ⟨max bound bound', nodes₂,
      (progress.mono (Nat.le_max_left ..)).trans (progress'.mono (Nat.le_max_right ..)), hps''⟩

/-- The workspace of a session is coherent. -/
theorem Session.coherent (settling : Settling rel) (h : Session w ps) :
    ∃ nodes, w.Coherent rel nodes ∧ ∀ p ∈ ps, p.Known nodes := by
  have hstart : ({} : Workspace R).Coherent rel fun _ ↦ none := by
    refine ⟨fun _ _ ↦ rfl, fun n found h ↦ ?_⟩
    have hempty : (∅ : Std.HashMap Nat (Settled R))[n]? = some found := h
    rw [Std.HashMap.getElem?_empty] at hempty
    cases hempty
  obtain ⟨_, nodes, progress, hps⟩ :=
    (session_iff_later.1 h).progress settling hstart (List.forall_mem_nil _)
  exact ⟨nodes, progress.coherent, hps⟩

end Shading
