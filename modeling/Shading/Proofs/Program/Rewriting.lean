import Shading.Proofs.Program.Replacing
import Shading.Proofs.Program.Visits

/-!
# Calls of a rule

Replacing the nodes of a program calls the rule once for each node, in the order of visits, and does
nothing else to the state and the workspace than to make the nodes that the rule is given
(`Rewriting.Calls`). What the rule is given for a node and what it answers are functions of the
node, however often it occurs.

On the way, these functions are known for the visits so far only. So what a replacement leads to is
stated with a log of visits, and its calls for all functions that the log records
(`Completes`); functions that record the whole log are chosen at the end.
-/

namespace Shading

variable {R σ α β : Type}

/-- What a rule is given for each node, and what it answers. -/
structure Rewriting (R : Type) where
  given : Shared R → Shared R
  answer : Shared R → Option (Shared R)

namespace Rewriting

/-- What takes the place of a node: the answer of the rule, or else what it was given. -/
def image (r : Rewriting R) (q : Shared R) : Shared R := (r.answer q).getD (r.given q)

/-- The rule is given the node itself if all children stay the same, and otherwise a new node of the
same kind over what takes the places of the children. -/
inductive Gives (r : Rewriting R) (q : Shared R) (w : Workspace R) : Workspace R → Prop
  | itself : (∀ c ∈ q.children, r.image c = c) → r.given q = q → Gives r q w w
  | fresh : (∃ c ∈ q.children, r.image c ≠ c) →
    r.given q = (Build.node q.kind (q.children.map r.image) w).1 →
      Gives r q w (Build.node q.kind (q.children.map r.image) w).2

/-- The rule is called once for each node of the list, in this order. Each call begins with the
state and the workspace that the one before it left, and with what is made for it. -/
inductive Calls (rule : Shared R → StateT σ (Build R) (Option (Shared R))) (r : Rewriting R) :
    List (Shared R) → σ → Workspace R → σ → Workspace R → Prop
  | nil {s : σ} {w : Workspace R} : Calls rule r [] s w s w
  | cons {q : Shared R} {order : List (Shared R)} {s s' s'' : σ} {w v w' w'' : Workspace R} :
    r.Gives q w v → rule (r.given q) s v = ((r.answer q, s'), w') →
      Calls rule r order s' w' s'' w'' → Calls rule r (q :: order) s w s'' w''

variable {rule : Shared R → StateT σ (Build R) (Option (Shared R))} {r : Rewriting R}
  {order order' : List (Shared R)} {s s' s'' : σ} {w w' w'' : Workspace R} {q : Shared R}

theorem Calls.append (h : Calls rule r order s w s' w') (h' : Calls rule r order' s' w' s'' w'') :
    Calls rule r (order ++ order') s w s'' w'' := by
  induction h with
  | nil => exact h'
  | cons gives call _ ih => exact .cons gives call (ih h')

/-- Every node that is called on gets an answer. -/
theorem Calls.gives (h : Calls rule r order s w s' w') (hq : q ∈ order) :
    ∃ v v', r.Gives q v v' := by
  induction h with
  | nil => cases hq
  | cons gives _ _ ih =>
    rcases List.mem_cons.1 hq with rfl | hq
    · exact ⟨_, _, gives⟩
    · exact ih hq

end Rewriting

/-! ### Logs -/

/-- What happened to a node. -/
structure Visit (R : Type) where
  node : Shared R
  given : Shared R
  answer : Option (Shared R)

namespace Visit

def image (v : Visit R) : Shared R := v.answer.getD v.given

def name (v : Visit R) : Nat := v.node.name

theorem map_name (log : List (Visit R)) : log.map name = (log.map node).map Program.name := by
  rw [List.map_map]
  rfl

end Visit

/-- The functions say of each node that was visited what the log says of it. -/
def Rewriting.Records (r : Rewriting R) (log : List (Visit R)) : Prop :=
  ∀ v ∈ log, r.given v.node = v.given ∧ r.answer v.node = v.answer

/-- A visited node has the image that was recorded. -/
theorem Rewriting.Records.image {r : Rewriting R} {log : List (Visit R)} (h : r.Records log)
    {v : Visit R} (hv : v ∈ log) : r.image v.node = v.image := by
  obtain ⟨hgiven, hanswer⟩ := h v hv
  rw [Rewriting.image, hgiven, hanswer, Visit.image]

/-- Any log that visits no number twice is recorded. -/
theorem exists_records {log : List (Visit R)} (h : (log.map Visit.name).Nodup) :
    ∃ r : Rewriting R, r.Records log := by
  induction log with
  | nil => exact ⟨⟨id, fun _ ↦ none⟩, nofun⟩
  | cons v log ih =>
    rw [List.map_cons, List.nodup_cons] at h
    obtain ⟨r, hr⟩ := ih h.2
    refine ⟨⟨fun q ↦ if q.name = v.name then v.given else r.given q,
      fun q ↦ if q.name = v.name then v.answer else r.answer q⟩, ?_⟩
    refine List.forall_mem_cons.2 ⟨⟨if_pos rfl, if_pos rfl⟩, fun u hu ↦ ?_⟩
    have hne : u.node.name ≠ v.name := fun heq ↦ h.1 (heq ▸ List.mem_map_of_mem hu)
    exact ⟨(if_neg hne).trans (hr u hu).1, (if_neg hne).trans (hr u hu).2⟩

/-- The node has an image in the log. -/
def Imaged (p : Shared R) (log : List (Visit R)) (d : Shared R) : Prop :=
  ∃ v ∈ log, v.node = p ∧ v.image = d

/-- The nodes have these images in the log, one by one. -/
def Images (log : List (Visit R)) : List (Shared R) → List (Shared R) → Prop :=
  List.Forall₂ fun c d ↦ Imaged c log d

/-- More visits find the same images. -/
theorem Images.mono {log log' : List (Visit R)} {cs ds : List (Shared R)} (h : Images log cs ds)
    (sub : log ⊆ log') : Images log' cs ds :=
  List.Forall₂.imp (fun _ _ ⟨v, hv, hc, hd⟩ ↦ ⟨v, sub hv, hc, hd⟩) h

/-- Nodes that have images were visited. -/
theorem Images.mem {log : List (Visit R)} {cs ds : List (Shared R)} (h : Images log cs ds) :
    ∀ c ∈ cs, c ∈ log.map Visit.node :=
  forall_mem_of_forall₂ h.flip fun _ _ ⟨_, hv, hc, _⟩ ↦ List.mem_map.2 ⟨_, hv, hc⟩

/-- Recorded images are the images of the rewriting. -/
theorem Images.map_eq {log : List (Visit R)} {cs ds : List (Shared R)} (h : Images log cs ds)
    {r : Rewriting R} (records : r.Records log) : cs.map r.image = ds := by
  have heq : List.Forall₂ (fun c d ↦ d = r.image c) cs ds :=
    List.Forall₂.imp (fun c d ⟨v, hv, hc, hd⟩ ↦ by rw [← hc, ← hd, records.image hv]) h
  have hmap := map_eq_of_forall₂ (f := r.image) (g := id) heq
  rw [← hmap, List.map_id]

/-! ### Rules -/

/-- The rule answers with programs that exist, and makes new nodes by the workspace only; what holds
of its state with the nodes made so far, such as that it keeps programs that exist, holds after the
call. -/
structure Builds (holds : Nodes R → σ → Prop)
    (rule : Shared R → StateT σ (Build R) (Option (Shared R))) : Prop where
  mono {nodes nodes' : Nodes R} {s : σ} : nodes.Extend nodes' → holds nodes s → holds nodes' s
  call {nodes : Nodes R} {q : Shared R} {s : σ} : q.Known nodes → holds nodes s →
    Build.Yields (fun _ _ ↦ True) nodes (rule q s) fun after a ↦
      (∀ found, a.1 = some found → found.Known after) ∧ holds after a.2

/-! ### Replacing -/

/-- In the middle of a replacement: the visits so far are in the log, and the memo holds the images
of the nodes that were visited. -/
structure Underway (holds : Nodes R → σ → Prop) (nodes : Nodes R) (log : List (Visit R))
    (memo : Memo R) (s : σ) (w : Workspace R) : Prop where
  workspace : w.Holds (fun _ _ ↦ True) nodes
  state : holds nodes s
  known : ∀ v ∈ log, v.node.Known nodes ∧ v.image.Known nodes
  ordered : Program.ChildrenFirst (log.map Visit.node)
  stores : ∀ n d, memo[n]? = some d ↔ ∃ v ∈ log, v.name = n ∧ v.image = d

/-- The images of nodes are known. -/
theorem Underway.known_of_images {holds : Nodes R → σ → Prop} {nodes : Nodes R}
    {log : List (Visit R)} {memo : Memo R} {s : σ} {w : Workspace R} {cs ds : List (Shared R)}
    (h : Underway holds nodes log memo s w) (images : Images log cs ds) :
    ∀ d ∈ ds, d.Known nodes :=
  forall_mem_of_forall₂ images fun _ _ ⟨v, hv, _, hd⟩ ↦ hd ▸ (h.known v hv).2

/-- A node is visited whose children were visited before. -/
theorem Underway.visit {holds : Nodes R → σ → Prop} {nodes nodes' : Nodes R} {log : List (Visit R)}
    {memo : Memo R} {s s' : σ} {w w' : Workspace R} (h : Underway holds nodes log memo s w)
    (extend : nodes.Extend nodes') (workspace : w'.Holds (fun _ _ ↦ True) nodes')
    (state : holds nodes' s') {v : Visit R} (node : v.node.Known nodes')
    (image : v.image.Known nodes') (children : ∀ c ∈ v.node.children, c ∈ log.map Visit.node)
    (new : v.name ∉ log.map Visit.name) :
    Underway holds nodes' (log ++ [v]) (Std.HashMap.insert memo v.name v.image) s' w' where
  workspace := workspace
  state := state
  known := by
    refine List.forall_mem_append.2 ⟨fun u hu ↦ ?_, List.forall_mem_singleton.2 ⟨node, image⟩⟩
    exact ⟨(h.known u hu).1.mono extend, (h.known u hu).2.mono extend⟩
  ordered := by
    rw [List.map_append]
    exact h.ordered.snoc children
  stores n d := by
    rw [Std.HashMap.getElem?_insert]
    split
    · rename_i hname
      refine ⟨fun hd ↦ ?_, fun ⟨u, hu, hn, hd⟩ ↦ ?_⟩
      · have hv := List.mem_append_right log (List.mem_singleton_self v)
        exact ⟨v, hv, eq_of_beq hname, Option.some.inj hd⟩
      · rcases List.mem_append.1 hu with hu | hu
        · rw [← eq_of_beq hname] at hn
          exact absurd (hn ▸ List.mem_map_of_mem hu) new
        · rw [← hd, List.mem_singleton.1 hu]
    · rename_i hname
      rw [h.stores]
      refine ⟨fun ⟨u, hu, hud⟩ ↦ ⟨u, List.mem_append_left _ hu, hud⟩, fun ⟨u, hu, hn, hd⟩ ↦ ?_⟩
      rcases List.mem_append.1 hu with hu | hu
      · exact ⟨u, hu, hn, hd⟩
      · rw [List.mem_singleton.1 hu] at hn
        exact absurd (beq_iff_eq.2 hn) hname

open Shared

/-- A part of a replacement that has an answer, for some occurrences of nodes: the rule is called
for those nodes that were not visited before. -/
def Completes (holds : Nodes R → σ → Prop)
    (rule : Shared R → StateT σ (Build R) (Option (Shared R))) (occurrences : List (Shared R))
    (nodes : Nodes R) (old : List (Visit R)) (s : σ) (w : Workspace R)
    (fine : List (Visit R) → α → Prop) (x : ((α × Memo R) × σ) × Workspace R) : Prop :=
  ∃ nodes' new, nodes.Extend nodes' ∧ Underway holds nodes' (old ++ new) x.1.1.2 x.1.2 x.2 ∧
    new.map Visit.node = firsts (old.map Visit.name) occurrences ∧
    (∀ r : Rewriting R, r.Records (old ++ new) → r.Calls rule (new.map Visit.node) s w x.1.2 x.2) ∧
    fine (old ++ new) x.1.1.1

variable {holds : Nodes R → σ → Prop} {rule : Shared R → StateT σ (Build R) (Option (Shared R))}
  {nodes : Nodes R} {old log : List (Visit R)} {memo : Memo R} {s : σ} {w : Workspace R}
  {p : Shared R} {cs ds xs ys : List (Shared R)}

/-- One part after another. -/
theorem Completes.trans {fine : List (Visit R) → α → Prop} {fine' : List (Visit R) → β → Prop}
    {x : ((α × Memo R) × σ) × Workspace R} {y : ((β × Memo R) × σ) × Workspace R}
    (h : Completes holds rule xs nodes old s w fine x)
    (h' : ∀ nodes' new, nodes.Extend nodes' → Underway holds nodes' (old ++ new) x.1.1.2 x.1.2 x.2 →
      new.map Visit.node = firsts (old.map Visit.name) xs → fine (old ++ new) x.1.1.1 →
        Completes holds rule ys nodes' (old ++ new) x.1.2 x.2 fine' y) :
    Completes holds rule (xs ++ ys) nodes old s w fine' y := by
  obtain ⟨middle, new, hmiddle, underway, horder, hcalls, hfine⟩ := h
  obtain ⟨nodes', new', hnodes', underway', horder', hcalls', hfine'⟩ :=
    h' middle new hmiddle underway horder hfine
  rw [List.append_assoc] at underway' hcalls' hfine'
  refine ⟨nodes', new ++ new', hmiddle.trans hnodes', underway', ?_, fun r records ↦ ?_, hfine'⟩
  · have hseen : (old ++ new).map Visit.name =
        old.map Visit.name ++ (firsts (old.map Visit.name) xs).map Program.name := by
      rw [List.map_append, Visit.map_name new, horder]
    rw [List.map_append, horder, horder', firsts_append, hseen]
  · have hold : r.Records (old ++ new) := fun v hv ↦
      records v (by rw [← List.append_assoc]; exact List.mem_append_left _ hv)
    rw [List.map_append]
    exact (hcalls r hold).append (hcalls' r records)

variable {n : Nat} {k : Kind R}

/-- The rule is given the node itself, or a new one over other children. -/
theorem gives_rebuild (images : Images log cs ds) (known : Shared.Known nodes (.node n k cs))
    (hds : ∀ d ∈ ds, d.Known nodes) {r : Rewriting R} (records : r.Records log)
    (given : r.given (.node n k cs) = (Build.rebuild (.node n k cs) ds w).1) :
    r.Gives (.node n k cs) w (Build.rebuild (.node n k cs) ds w).2 := by
  have hmap := images.map_eq records
  have hrebuild : Build.rebuild (.node n k cs) ds =
      if Build.rebuild.unchanged ds cs then pure (.node n k cs) else Build.node k ds := rfl
  rw [hrebuild] at given ⊢
  by_cases h : Build.rebuild.unchanged ds cs = true
  · have heq := Build.eq_of_unchanged (List.Forall₂.length_eq images).symm hds known.of_mem h
    rw [if_pos h] at given ⊢
    refine .itself (fun c hc ↦ ?_) given
    rw [heq, ← List.map_id cs, List.map_map] at hmap
    exact List.map_inj_left.1 hmap c hc
  · rw [if_neg h] at given ⊢
    rw [← hmap] at given ⊢
    refine .fresh (by_contra fun hsame ↦ h ?_) given
    have hall : ∀ c ∈ cs, r.image c = id c := fun c hc ↦
      by_contra fun hne ↦ hsame ⟨c, hc, hne⟩
    rw [List.map_congr_left hall, List.map_id] at hmap
    rw [← hmap]
    exact Build.unchanged_self cs

/-- One call, for a node whose children have been replaced. -/
theorem completes_call (builds : Builds holds rule) (underway : Underway holds nodes log memo s w)
    (known : Shared.Known nodes (.node n k cs)) (new : n ∉ log.map Visit.name)
    (images : Images log cs ds) :
    let given := Build.rebuild (.node n k cs) ds w
    let found := rule given.1 s given.2
    let out := found.1.1.getD given.1
    Completes holds rule [.node n k cs] nodes log s w
      (Imaged (.node n k cs))
      (((out, memo.insert n out), found.1.2), found.2) := by
  intro given found out
  have hds := underway.known_of_images images
  obtain ⟨middle, hmiddle, hw, hgiven, -⟩ := Build.yields_rebuild known hds
    (List.Forall₂.length_eq images).symm w underway.workspace
  obtain ⟨nodes', hnodes', hw', hfound, hstate⟩ :=
    builds.call hgiven (builds.mono hmiddle underway.state) given.2 hw
  have hextend := hmiddle.trans hnodes'
  refine ⟨nodes', [⟨.node n k cs, given.1, found.1.1⟩], hextend, ?_, ?_, fun r records ↦ ?_, ?_⟩
  · refine underway.visit hextend hw' hstate (known.mono hextend) ?_ images.mem new
    rcases hanswer : found.1.1 with - | answer
    · exact hgiven.mono hnodes'
    · exact hfound answer hanswer
  · have hname : (Program.node n k cs).name ∉ log.map Visit.name := new
    rw [firsts, if_neg hname, firsts]
    rfl
  · have hlog : r.Records log := fun v hv ↦ records v (List.mem_append_left _ hv)
    obtain ⟨hgave, hanswered⟩ :=
      records _ (List.mem_append_right _ (List.mem_singleton_self _))
    refine .cons (gives_rebuild images known hds hlog hgave) ?_ .nil
    dsimp only at hgave hanswered
    rw [hgave, hanswered]
    rfl
  · exact ⟨_, List.mem_append_right _ (List.mem_singleton_self _), rfl, rfl⟩

/-- A visit that is completed is completed with anything that follows from it. -/
theorem Completes.imp {fine : List (Visit R) → α → Prop} {fine' : List (Visit R) → β → Prop}
    {x : ((α × Memo R) × σ) × Workspace R} {b : β}
    (h : Completes holds rule xs nodes old s w fine x)
    (hfine : ∀ new, fine (old ++ new) x.1.1.1 → fine' (old ++ new) b) :
    Completes holds rule xs nodes old s w fine' (((b, x.1.1.2), x.1.2), x.2) := by
  obtain ⟨nodes', new, extend, underway, order, calls, h⟩ := h
  exact ⟨nodes', new, extend, underway, order, calls, hfine new h⟩

/-- Nothing is left to do. -/
theorem completes_of_visited {fine : List (Visit R) → α → Prop} {a : α}
    (underway : Underway holds nodes old memo s w)
    (visited : ∀ q ∈ xs, q.name ∈ old.map Visit.name) (h : fine old a) :
    Completes holds rule xs nodes old s w fine (((a, memo), s), w) := by
  refine ⟨nodes, [], .refl nodes, ?_, (firsts_eq_nil visited).symm, fun _ _ ↦ .nil, ?_⟩
  · rwa [List.append_nil]
  · rwa [List.append_nil]

/-- If each child is completed, so are all. -/
theorem completes_replaceEach (known : ∀ c ∈ cs, c.Known nodes)
    (underway : Underway holds nodes old memo s w)
    (each : ∀ c ∈ cs, ∀ nodes old memo s w, c.Known nodes → Underway holds nodes old memo s w →
      Completes holds rule c.postorder nodes old s w (Imaged c) (replaceNode rule c memo s w)) :
    Completes holds rule (Program.postorderEach cs) nodes old s w
      (fun log ds ↦ Images log cs ds) (replaceEach rule cs memo s w) := by
  induction cs generalizing nodes old memo s w with
  | nil =>
    rw [replaceEach, Program.postorderEach]
    exact completes_of_visited underway (List.forall_mem_nil _) .nil
  | cons c cs ih =>
    rw [List.forall_mem_cons] at known each
    rw [replaceEach_cons_run, Program.postorderEach]
    refine (each.1 nodes old memo s w known.1 underway).trans
      fun nodes' new extend underway _ hd ↦ ?_
    obtain ⟨v, hv, hvd⟩ := hd
    have hcs : ∀ c ∈ cs, c.Known nodes' := fun c hc ↦ (known.2 c hc).mono extend
    exact (ih hcs underway each.2).imp fun new images ↦
      .cons ⟨v, List.mem_append_left _ hv, hvd⟩ images

/-- Replacing a program calls the rule for those of its nodes that were not visited before. -/
theorem completes_replaceNode (builds : Builds holds rule) (known : p.Known nodes)
    (underway : Underway holds nodes old memo s w) :
    Completes holds rule p.postorder nodes old s w (Imaged p) (replaceNode rule p memo s w) := by
  induction p using Program.induct generalizing nodes old memo s w with
  | node n k cs ih =>
    rw [replaceNode_run]
    cases hdone : memo[n]? with
    | some done =>
      -- The node was visited, and so were all nodes below it, since its children came first.
      obtain ⟨v, hv, hname, himage⟩ := (underway.stores n done).1 hdone
      have hnode : v.node = .node n k cs := (underway.known v hv).1.eq_of_name_eq known hname
      refine completes_of_visited underway (fun q hq ↦ ?_) ⟨v, hv, hnode, himage⟩
      have hpart := Program.mem_postorder.1 hq
      have hvisited := underway.ordered.mem_of_part
        (hnode ▸ List.mem_map_of_mem hv : Program.node n k cs ∈ old.map Visit.node) hpart
      obtain ⟨u, hu, rfl⟩ := List.mem_map.1 hvisited
      exact List.mem_map_of_mem hu
    | none =>
      -- It is still new once its children are done, since it is not one of its own parts.
      have hnew : n ∉ old.map Visit.name := by
        intro h
        obtain ⟨v, hv, hname⟩ := List.mem_map.1 h
        rw [(underway.stores n v.image).2 ⟨v, hv, hname, rfl⟩] at hdone
        cases hdone
      rw [Program.postorder]
      refine (completes_replaceEach known.of_mem underway fun c hc _ _ _ _ _ known underway ↦
        ih c hc known underway).trans fun nodes' new extend underway horder images ↦ ?_
      refine completes_call builds underway (known.mono extend) (fun h ↦ ?_) images
      rw [List.map_append] at h
      refine name_notMem_postorderEach known ?_
      have hmem := (List.mem_append.1 h).resolve_left hnew
      rw [Visit.map_name, horder] at hmem
      exact ((firsts_sublist _ _).map _).subset hmem

end Shading
