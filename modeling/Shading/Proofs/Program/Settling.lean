import Shading.Proofs.Program.Coherence

/-!
# Settling a program

The simplifier comes to an end on every known program, whatever its workspace has noted before
(`exists_runs`): it settles lighter programs only, so a bound of the weight of the program is never
reached, and any larger bound leads to the same answer and the same workspace. The induction is on
the weight. What it carries is that the workspace stays coherent and that the answer is noted.
-/

namespace Shading

variable {R : Type}

namespace Build

theorem bind_run {α β : Type} {m : Build R α} {f : α → Build R β} {w w' : Workspace R} {a : α}
    (h : m w = (a, w')) : (m >>= f) w = f a w' := by
  show f (m w).1 (m w).2 = f a w'
  rw [h]

theorem settled?_bind {β : Type} {f : Option (Settled R) → Build R β} (p : Shared R)
    (w : Workspace R) : (settled? p >>= f) w = f w.settled[p.name]? w := rfl

end Build

variable [ColorModel R]

namespace Build

/-- One call of the simplifier, with the nested calls left open. -/
def simplifyStep (nested : Shared R → Build R (Shared R)) (p : Shared R) : Build R (Shared R) := do
  match ← settled? p with
  | some .itself => return p
  | some (.replaced q) => return q
  | none =>
    let children ← p.children.mapM nested
    let rebuilt ← rebuild p children
    match reduce? Shared.eq rebuilt with
    | some replacement =>
      let q ← nested (← place replacement)
      settle p (.replaced q)
      return q
    | none =>
      settle rebuilt .itself
      unless rebuilt.identical p do settle p (.replaced rebuilt)
      return rebuilt

theorem simplifyWithin_succ (fuel : Nat) (p : Shared R) :
    simplifyWithin (fuel + 1) p = simplifyStep (simplifyWithin fuel) p := rfl

variable {nested : Shared R → Build R (Shared R)} {w w₁ w₂ w₃ w₄ : Workspace R}
  {p q x rebuilt : Shared R} {ds : List (Shared R)}

/-- A program with an answer is not looked at again. -/
theorem simplifyStep_of_answers (h : w.Answers p q) : simplifyStep nested p w = (q, w) := by
  rcases h with ⟨h, rfl⟩ | h
  · rw [simplifyStep, settled?_bind, show w.settled[q.name]? = _ from h]
    rfl
  · rw [simplifyStep, settled?_bind, h]
    rfl

/-- An answer that is noted is not looked for again. -/
theorem simplified_of_answers (h : w.Answers p q) : simplified p w = (q, w) :=
  simplifyStep_of_answers h

omit [ColorModel R] in
/-- A final program is known to be simplified. -/
theorem isSimplified_of_final (h : w.Final p) : isSimplified p w = (true, w) := by
  rw [isSimplified, settled?_bind, show w.settled[p.name]? = _ from h]
  rfl

/-- The node is reduced once its children are simplified. -/
theorem simplifyStep_of_reduce {r : Replacement Nat R} (hopen : w.Open p)
    (hchildren : p.children.mapM nested w = (ds, w₁)) (hrebuild : rebuild p ds w₁ = (rebuilt, w₂))
    (hreduce : reduce? Shared.eq rebuilt = some r) (hplace : place r w₂ = (x, w₃))
    (hnested : nested x w₃ = (q, w₄)) :
    simplifyStep nested p w = (q, (settle p (.replaced q) w₄).2) := by
  rw [simplifyStep, settled?_bind, show w.settled[p.name]? = _ from hopen]
  dsimp only
  rw [bind_run hchildren, bind_run hrebuild, hreduce]
  dsimp only
  rw [bind_run hplace, bind_run hnested]
  rfl

/-- The node is its own simplification once its children are simplified. -/
theorem simplifyStep_of_reduce_eq_none (hopen : w.Open p)
    (hchildren : p.children.mapM nested w = (ds, w₁)) (hrebuild : rebuild p ds w₁ = (rebuilt, w₂))
    (hreduce : reduce? Shared.eq rebuilt = none) :
    simplifyStep nested p w = (rebuilt, if rebuilt.identical p then (settle rebuilt .itself w₂).2
      else (settle p (.replaced rebuilt) (settle rebuilt .itself w₂).2).2) := by
  rw [simplifyStep, settled?_bind, show w.settled[p.name]? = _ from hopen]
  dsimp only
  rw [bind_run hchildren, bind_run hrebuild, hreduce]
  dsimp only
  split <;> rfl

end Build

/-! ### Operations that settle nothing -/

section

variable {rel : Shared R → Shared R → Prop} {nodes : Nodes R} {w : Workspace R} {n : Nat}
  {k : Kind R} {cs ds : List (Shared R)}

open Workspace

/-- A new node is known and open. -/
theorem progress_node (hw : w.Coherent rel nodes) (bound : Nat) (k : Kind R)
    (known : ∀ c ∈ cs, c.Known nodes) :
    ∃ nodes', Progress rel bound nodes w nodes' (Build.node k cs w).2 ∧
      Shared.Known nodes' (.node w.next k cs) ∧
      (Build.node k cs w).2.Open (.node w.next k cs) := by
  have extend := Nodes.extend_update (hw.unused w.next (Nat.le_refl _)) (.node w.next k cs)
  have hnode : Shared.Known (Function.update nodes w.next (some (.node w.next k cs)))
      (.node w.next k cs) :=
    .node (Function.update_self ..) fun c hc ↦ (known c hc).mono extend
  refine ⟨_, .of_settled_eq hw extend rfl fun n hn ↦ ?_, hnode, ?_⟩
  · have hnext : w.next + 1 ≤ n := hn
    rw [Function.update_of_ne (by omega)]
    exact hw.unused n (by omega)
  · exact hw.open_of_unused (p := .node w.next k cs) (Nat.le_refl _)

/-- A node is made anew over other children only, and is open as the original is. -/
theorem progress_rebuild (hw : w.Coherent rel nodes) (bound : Nat)
    (hp : Shared.Known nodes (.node n k cs)) (hopen : w.Open (.node n k cs))
    (known : ∀ d ∈ ds, d.Known nodes) (length : ds.length = cs.length) :
    ∃ m w' nodes', Build.rebuild (.node n k cs) ds w = (.node m k ds, w') ∧
      Progress rel bound nodes w nodes' w' ∧ Shared.Known nodes' (.node m k ds) ∧
      w'.Open (.node m k ds) ∧ (ds = cs → m = n) := by
  rw [Build.rebuild]
  split
  · rename_i hunchanged
    obtain rfl := Build.eq_of_unchanged length known hp.of_mem hunchanged
    exact ⟨n, w, nodes, rfl, .refl hw, hp, hopen, fun _ ↦ rfl⟩
  · rename_i hchanged
    obtain ⟨nodes', hprogress, hknown, hopen'⟩ := progress_node hw bound k known
    refine ⟨w.next, _, nodes', rfl, hprogress, hknown, hopen', ?_⟩
    rintro rfl
    exact absurd (Build.unchanged_self ds) hchanged

/-- What is put in place of a node is known. -/
theorem progress_place (hw : w.Coherent rel nodes) (bound : Nat) {r : Replacement Nat R}
    (known : r.Each (Shared.Known nodes)) :
    ∃ m w' nodes', Build.place r w = (r.program m, w') ∧ Progress rel bound nodes w nodes' w' ∧
      Shared.Known nodes' (r.program m) := by
  cases r with
  | existing p => exact ⟨0, w, nodes, rfl, .refl hw, known⟩
  | fresh kind children =>
    obtain ⟨nodes', hprogress, hknown, -⟩ := progress_node hw bound kind known
    exact ⟨w.next, _, nodes', rfl, hprogress, hknown⟩

end

/-! ### Runs of the simplifier -/

namespace Build

/-- With any sufficient bound, the simplifier has this answer and leaves this workspace. -/
def Runs (p : Shared R) (w : Workspace R) (q : Shared R) (w' : Workspace R) : Prop :=
  ∀ fuel, p.weight ≤ fuel → simplifyWithin fuel p w = (q, w')

/-- The simplifier comes to an end, with an answer that the workspace notes. -/
structure Settles (rel : Shared R → Shared R → Prop) (nodes : Nodes R) (w : Workspace R)
    (p q : Shared R) (nodes' : Nodes R) (w' : Workspace R) : Prop where
  runs : Runs p w q w'
  /-- The recursion is right as it stands, without a bound. -/
  step : simplifyStep simplified p w = (q, w')
  progress : w.Progress rel (p.weight + 1) nodes nodes' w'
  answers : w'.Answers p q

/-- The computation does with the program what the simplifier does. -/
def Follows (f : Shared R → Build R (Shared R)) (p : Shared R) : Prop :=
  ∀ w q w', Runs p w q w' → f p w = (q, w')

section

variable {rel : Shared R → Shared R → Prop} {nodes : Nodes R} {w : Workspace R} {n m : Nat}
  {k : Kind R} {cs ds : List (Shared R)}

/-- Simplifying several programs, each of which can be settled. -/
theorem exists_mapM {bound : Nat} (light : ∀ c ∈ cs, c.weight < bound)
    (each : ∀ c ∈ cs, ∀ (nodes : Nodes R) (w : Workspace R), w.Coherent rel nodes →
      c.Known nodes → ∃ q nodes' w', Settles rel nodes w c q nodes' w')
    (hw : w.Coherent rel nodes) (known : ∀ c ∈ cs, c.Known nodes) :
    ∃ ds nodes' w', (∀ f, (∀ c ∈ cs, Follows f c) → cs.mapM f w = (ds, w')) ∧
      w.Progress rel bound nodes nodes' w' ∧ List.Forall₂ w'.Answers cs ds := by
  induction cs generalizing nodes w with
  | nil => exact ⟨[], nodes, w, fun _ _ ↦ rfl, .refl hw, .nil⟩
  | cons c cs ih =>
    rw [List.forall_mem_cons] at light each known
    obtain ⟨d, nodes₁, w₁, hd⟩ := each.1 nodes w hw known.1
    have hknown : ∀ c ∈ cs, c.Known nodes₁ := fun c hc ↦ (known.2 c hc).mono hd.progress.extend
    obtain ⟨ds, nodes₂, w₂, hrun, hprogress, hds⟩ := ih light.2 each.2 hd.progress.coherent hknown
    refine ⟨d :: ds, nodes₂, w₂, fun f hf ↦ ?_, (hd.progress.mono light.1).trans hprogress,
      .cons (hd.answers.mono hprogress.grows) hds⟩
    rw [List.forall_mem_cons] at hf
    rw [List.mapM_cons, bind_run (hf.1 w d w₁ hd.runs), bind_run (hrun f hf.2)]
    rfl

end

/-! ### A node over its simplified children -/

variable {rel : Shared R → Shared R → Prop} {nodes : Nodes R} {w : Workspace R} {p b : Shared R}

/-- The second program is an open node for the first one, over simplifications of its children. -/
structure Rebuilt (rel : Shared R → Shared R → Prop) (nodes : Nodes R) (w : Workspace R)
    (p b : Shared R) : Prop where
  known : b.Known nodes
  opened : w.Open b
  related : rel p b
  weight_le : b.weight ≤ p.weight
  final : ∀ d ∈ b.children, w.Final d
  answered : ∀ c ∈ p.children, ∃ d, w.Answers c d
  parts : ∀ d ∈ b.children, ∀ y, y.Part d → ∃ c, c.Part p ∧ w.Answers c y

omit [ColorModel R] in
theorem Rebuilt.child_known (hb : Rebuilt rel nodes w p b) :
    ∀ d ∈ b.children, Shared.Known nodes d := by
  have known := hb.known
  obtain ⟨m, k, ds⟩ := b
  exact known.of_mem

omit [ColorModel R] in
/-- The children of a rebuilt node keep their answers. -/
theorem Rebuilt.answered_mono {w' : Workspace R} (hb : Rebuilt rel nodes w p b)
    (grows : w.Grows w') : ∀ c ∈ p.children, ∃ d, w'.Answers c d := by
  intro c hc
  obtain ⟨d, hd⟩ := hb.answered c hc
  exact ⟨d, hd.mono grows⟩

section

variable {n m : Nat} {k : Kind R} {cs ds : List (Shared R)}

omit [ColorModel R] in
/-- Resolving children does not add weight. -/
theorem weight_le_of_forall₂ (h : List.Forall₂ (w.Resolved rel nodes) cs ds) :
    (Program.node m k ds).weight ≤ (Program.node n k cs).weight := by
  have hsum := Program.weights_le_of_forall₂ (h.imp fun _ _ hd ↦ hd.weight_le)
  rw [Program.weight_node, Program.weight_node]
  omega

omit [ColorModel R] in
/-- The parts of simplified children are answers for parts of the node. -/
theorem exists_part_of_forall₂ (h : List.Forall₂ (w.Resolved rel nodes) cs ds) {d y : Shared R}
    (hd : d ∈ ds) (part : y.Part d) : ∃ c ∈ cs, ∃ x, x.Part c ∧ w.Answers x y := by
  induction h with
  | nil => cases hd
  | @cons c _ _ _ hc _ ih =>
    rcases List.mem_cons.1 hd with rfl | hd
    · exact ⟨c, List.mem_cons_self, hc.parts y part⟩
    · obtain ⟨c, hc, hx⟩ := ih hd
      exact ⟨c, List.mem_cons_of_mem _ hc, hx⟩

/-- A node over resolved children is its rebuilt form. -/
theorem rebuilt_of_forall₂ (settling : Settling rel) (known : Shared.Known nodes (.node m k ds))
    (opened : w.Open (.node m k ds)) (fresh : ds = cs → m = n)
    (h : List.Forall₂ (w.Resolved rel nodes) cs ds) :
    Rebuilt rel nodes w (.node n k cs) (.node m k ds) where
  known := known
  opened := opened
  related := settling.node (h.imp fun _ _ hd ↦ hd.related) fresh
  weight_le := weight_le_of_forall₂ h
  final := forall_mem_of_forall₂ h fun _ _ hd ↦ hd.final
  answered := forall_mem_of_forall₂ h.flip fun d _ hd ↦ ⟨d, hd.answers⟩
  parts d hd y part := by
    obtain ⟨c, hc, x, hx, hanswer⟩ := exists_part_of_forall₂ h hd part
    exact ⟨x, .child hc hx, hanswer⟩

end

section

variable (hw : w.Coherent rel nodes) (hp : p.Known nodes) (hopen : w.Open p)
  (hb : Rebuilt rel nodes w p b)
include hw hp hopen hb

/-- A node that no rule applies to is settled, and so is the node that it stands for. -/
theorem progress_of_reduce_eq_none (hreduce : reduce? Shared.eq b = none) :
    ∃ w', w' = (if b.identical p then (settle b .itself w).2
        else (settle p (.replaced b) (settle b .itself w).2).2) ∧
      w.Progress rel (p.weight + 1) nodes nodes w' ∧ w'.Answers p b := by
  have hgrows := Workspace.grows_settle .itself hb.opened
  have hsettled := (Workspace.progress_settle hw hb.known hb.opened
    (.itself hreduce fun d hd ↦ (hb.final d hd).mono hgrows)).mono (Nat.succ_le_succ hb.weight_le)
  have hfinal : (settle b .itself w).2.Final b := Workspace.getElem?_settle_self .itself
  refine ⟨_, rfl, ?_⟩
  split
  · rename_i hidentical
    obtain rfl := hb.known.eq_of_identical hp hidentical
    exact ⟨hsettled, hfinal.answers⟩
  · rename_i hdistinct
    have hopen' : (settle b .itself w).2.Open p := by
      rw [Workspace.Open, Workspace.getElem?_settle]
      exact (if_neg hdistinct).trans hopen
    have hgrows' := Workspace.grows_settle (.replaced b) hopen'
    have hanswer : (settle p (.replaced b) (settle b .itself w).2).2.Answers p b :=
      .inr (Workspace.getElem?_settle_self _)
    refine ⟨hsettled.trans (Workspace.progress_settle hsettled.coherent hp hopen'
      (.replaced (hb.answered_mono (hgrows.trans hgrows'))
        ⟨hanswer, hb.known, hfinal.mono hgrows', hb.related, hb.weight_le, fun y hy ↦ ?_⟩)),
      hanswer⟩
    obtain ⟨n, k, ds⟩ := b
    rcases Program.part_node.1 hy with rfl | ⟨d, hd, hy⟩
    · exact ⟨p, .refl p, hanswer⟩
    · obtain ⟨c, hc, hcy⟩ := hb.parts d hd y hy
      exact ⟨c, hc, hcy.mono (hgrows.trans hgrows')⟩

/-- A node that is reduced has the answer of what takes its place. -/
theorem progress_of_reduce (settling : Settling rel) {r : Replacement Nat R} {l : Nat}
    {q : Shared R} {nodes₁ nodes₂ : Nodes R} {w₁ w₂ : Workspace R}
    (hreduce : reduce? Shared.eq b = some r)
    (hplaced : w.Progress rel p.weight nodes nodes₁ w₁)
    (hx : Shared.Known nodes₁ (r.program l))
    (hq : Settles rel nodes₁ w₁ (r.program l) q nodes₂ w₂) :
    w.Progress rel (p.weight + 1) nodes nodes₂ (settle p (.replaced q) w₂).2 ∧
      (settle p (.replaced q) w₂).2.Answers p q := by
  have hlight : (r.program l).weight < p.weight :=
    Nat.lt_of_lt_of_le (weight_lt_of_reduce? l hreduce) hb.weight_le
  have hprogress := hplaced.trans (hq.progress.mono hlight)
  have hopen' := hprogress.still_open p hp (Nat.le_refl _) hopen
  have hgrows := Workspace.grows_settle (.replaced q) hopen'
  have hanswer : (settle p (.replaced q) w₂).2.Answers p q :=
    .inr (Workspace.getElem?_settle_self _)
  have hres := hq.progress.coherent.resolved settling (hx.mono hq.progress.extend) hq.answers
  have hirreducible : ∀ d ∈ b.children, Shared.Irreducible d :=
    fun d hd ↦ hw.irreducible (hb.child_known d hd) (hb.final d hd)
  have hrelated := settling.trans hb.related
    (settling.trans (settling.reduce (n := l) hb.known hirreducible hreduce) hres.related)
  refine ⟨(hprogress.mono (Nat.le_succ _)).trans (Workspace.progress_settle hprogress.coherent
    (hp.mono hprogress.extend) hopen' (.replaced
      (hb.answered_mono (hprogress.grows.trans hgrows)) ⟨hanswer, hres.known,
      hres.final.mono hgrows, hrelated,
      Nat.le_trans hres.weight_le (Nat.le_of_lt hlight), fun y hy ↦ ?_⟩)), hanswer⟩
  -- The part is the answer of what takes the place of the node, or of a part of its children; the
  -- latter is final.
  obtain ⟨c, hc, hcy⟩ := hres.parts y hy
  rcases part_of_reduce? hreduce hc with rfl | ⟨d, hd, hcd⟩
  · rw [hcy.unique hq.answers]
    exact ⟨p, .refl p, hanswer⟩
  · have hfinal := hw.final_of_part (hb.child_known d hd) (hb.final d hd) hcd
    obtain rfl := hcy.unique (hfinal.mono hprogress.grows).answers
    obtain ⟨x, hx, hxy⟩ := hb.parts d hd y hcd
    exact ⟨x, hx, hxy.mono (hprogress.grows.trans hgrows)⟩

end

/-! ### Every program settles -/

/-- One call of the simplifier comes to an end, if the nested calls do. -/
theorem exists_step (settling : Settling rel)
    (ih : ∀ x : Shared R, x.weight < p.weight → ∀ (nodes : Nodes R) (w : Workspace R),
      w.Coherent rel nodes → x.Known nodes → ∃ q nodes' w', Settles rel nodes w x q nodes' w')
    (hw : w.Coherent rel nodes) (hp : p.Known nodes) :
    ∃ q nodes' w', (∀ f, (∀ x : Shared R, x.weight < p.weight → Follows f x) →
        simplifyStep f p w = (q, w')) ∧
      w.Progress rel (p.weight + 1) nodes nodes' w' ∧ w'.Answers p q := by
  by_cases hanswer : ∃ q, w.Answers p q
  · obtain ⟨q, hq⟩ := hanswer
    exact ⟨q, nodes, w, fun _ _ ↦ simplifyStep_of_answers hq, .refl hw, hq⟩
  have hopen : w.Open p := Workspace.open_of_forall_not_answers hanswer
  obtain ⟨n, k, cs⟩ := p
  -- The children first, then the node over what they are simplified to.
  obtain ⟨ds, nodes₁, w₁, hrun, hchildren, hds⟩ := exists_mapM
    (fun c hc ↦ Program.weight_lt_of_mem hc) (fun c hc ↦ ih c (Program.weight_lt_of_mem hc)) hw
    hp.of_mem
  have hp₁ := hp.mono hchildren.extend
  have hres : List.Forall₂ (w₁.Resolved rel nodes₁) cs ds :=
    ((List.forall₂_and_left _ _).2 ⟨hp₁.of_mem, hds⟩).imp
      fun c d h ↦ hchildren.coherent.resolved settling h.1 h.2
  obtain ⟨m, w₂, nodes₂, hrebuild, hprogress, hknown, hopened, hfresh⟩ :=
    progress_rebuild hchildren.coherent (Program.node n k cs).weight hp₁
      (hchildren.still_open _ hp (Nat.le_refl _) hopen)
      (forall_mem_of_forall₂ hres fun _ _ hd ↦ hd.known) hds.length_eq.symm
  have hbefore := hchildren.trans hprogress
  have hb : Rebuilt rel nodes₂ w₂ (.node n k cs) (.node m k ds) :=
    rebuilt_of_forall₂ settling hknown hopened hfresh
      (hres.imp fun _ _ hd ↦ hd.mono hprogress.extend hprogress.grows)
  have hp₂ := hp.mono hbefore.extend
  have hopen₂ := hbefore.still_open _ hp (Nat.le_refl _) hopen
  have hfollows {f : Shared R → Build R (Shared R)}
      (hf : ∀ x : Shared R, x.weight < (Program.node n k cs).weight → Follows f x) :
      cs.mapM f w = (ds, w₁) := hrun f fun c hc ↦ hf c (Program.weight_lt_of_mem hc)
  cases hreduce : reduce? Shared.eq (.node m k ds) with
  | none =>
    obtain ⟨w', rfl, hsettled, hanswer⟩ :=
      progress_of_reduce_eq_none hbefore.coherent hp₂ hopen₂ hb hreduce
    exact ⟨_, nodes₂, _, fun f hf ↦ simplifyStep_of_reduce_eq_none hopen (hfollows hf) hrebuild
      hreduce, (hbefore.mono (Nat.le_succ _)).trans hsettled, hanswer⟩
  | some r =>
    have hparts := each_of_reduce? (fun _ _ _ h ↦ h.of_mem) hknown hreduce
    obtain ⟨l, w₃, nodes₃, hplace, hplaced, hx⟩ :=
      progress_place hbefore.coherent (Program.node n k cs).weight hparts
    have hlight : (r.program l).weight < (Program.node n k cs).weight :=
      Nat.lt_of_lt_of_le (weight_lt_of_reduce? l hreduce) hb.weight_le
    obtain ⟨q, nodes₄, w₄, hq⟩ := ih _ hlight nodes₃ w₃ hplaced.coherent hx
    obtain ⟨hsettled, hanswer⟩ :=
      progress_of_reduce hbefore.coherent hp₂ hopen₂ hb settling hreduce hplaced hx hq
    exact ⟨q, nodes₄, _, fun f hf ↦ simplifyStep_of_reduce hopen (hfollows hf) hrebuild hreduce
      hplace (hf _ hlight _ _ _ hq.runs), (hbefore.mono (Nat.le_succ _)).trans hsettled, hanswer⟩

/-- The simplifier comes to an end on every known program. -/
theorem exists_settles (settling : Settling rel) (hw : w.Coherent rel nodes) (hp : p.Known nodes) :
    ∃ q nodes' w', Settles rel nodes w p q nodes' w' := by
  induction hweight : p.weight using Nat.strongRecOn generalizing p nodes w with
  | ind weight ih =>
    subst hweight
    obtain ⟨q, nodes', w', hstep, hprogress, hanswer⟩ := exists_step settling
      (fun x hx nodes w hw hknown ↦ ih x.weight hx hw hknown rfl) hw hp
    refine ⟨q, nodes', w', fun fuel hfuel ↦ ?_, hstep simplified fun x _ ↦ ?_, hprogress, hanswer⟩
    · obtain ⟨fuel, rfl⟩ := Nat.exists_eq_add_of_lt (Nat.lt_of_lt_of_le p.weight_pos hfuel)
      rw [simplifyWithin_succ]
      exact hstep _ fun x hx w q w' h ↦ h _ (by omega)
    · exact fun w q w' h ↦ h _ (Nat.le_succ _)

end Build

end Shading
