import Shading.Program.Replace
import Shading.Proofs.Program.Building
import Shading.Proofs.Program.Shape

/-!
# Replacing known programs

Replacing the nodes of a program keeps a relation, if the rule keeps it at each node whose children
are replaced already (`RuleKeeps`). That nodes which are shared are replaced once is part of this:
the memo only holds programs related to the nodes they stand for.

Choosing the sides of paths leaves no path, and no analysis that chooses the same sides tells the
result from the program. Nodes without a path below them stay the same, since a node is made anew
over other children only (`Chosen`). If the program is valid, so is the result (`Resolves`).

Moving a program by an affine map moves the kind of every node and changes nothing else (`Moved`).
-/

namespace Shading

variable {R σ : Type} {rel out : Shared R → Shared R → Prop} {nodes : Nodes R}

/-- What is remembered for a number is related to the node with that number. -/
def Memo.Holds (out : Shared R → Shared R → Prop) (nodes : Nodes R) (memo : Memo R) : Prop :=
  ∀ n q, memo[n]? = some q → nodes.Finds out n q

theorem Memo.Holds.mono {nodes' : Nodes R} {memo : Memo R} (extend : nodes.Extend nodes')
    (h : memo.Holds out nodes) : memo.Holds out nodes' :=
  fun n q hq ↦ (h n q hq).mono extend

/-- A replacement may be noted, if it is what should come out. -/
theorem Memo.Holds.insert {memo : Memo R} {p q : Shared R} (h : memo.Holds out nodes)
    (hp : p.Known nodes) (hq : q.Known nodes) (hout : out p q) :
    Memo.Holds out nodes (Std.HashMap.insert memo p.name q) := by
  intro n q' hq'
  rw [Std.HashMap.getElem?_insert] at hq'
  split at hq'
  · rename_i hname
    cases hq'
    rw [← eq_of_beq hname]
    exact ⟨p, hp.eq_some, hq, hout⟩
  · exact h n q' hq'

/-- The program found for a rebuilt node, or else that node itself, is related to the original. -/
def Suits (out : Shared R → Shared R → Prop) (p rebuilt : Shared R) (after : Nodes R)
    (found : Option (Shared R)) : Prop :=
  (found.getD rebuilt).Known after ∧ out p (found.getD rebuilt)

/-- What the rule finds suits each node, once it is rebuilt over related children. It is the same
node still if these are its own children. -/
def RuleKeeps (rel out : Shared R → Shared R → Prop)
    (rule : Shared R → StateT σ (Build R) (Option (Shared R))) : Prop :=
  ∀ ⦃nodes : Nodes R⦄ ⦃n m : Nat⦄ ⦃k : Kind R⦄ ⦃cs ds : List (Shared R)⦄, List.Forall₂ out cs ds →
    (ds = cs → m = n) → Shared.Known nodes (.node m k ds) → ∀ s : σ,
      Build.Yields rel nodes (rule (.node m k ds) s)
        fun after a ↦ Suits out (.node n k cs) (.node m k ds) after a.1

variable {rule : Shared R → StateT σ (Build R) (Option (Shared R))}

/-! ### Replacing as a computation in the workspace -/

/-- Children are replaced one after the other. -/
theorem replaceEach_cons_run (c : Shared R) (cs : List (Shared R)) (memo : Memo R) (s : σ) :
    replaceEach rule (c :: cs) memo s = (do
      let ((d, memo), s) ← replaceNode rule c memo s
      let ((ds, memo), s) ← replaceEach rule cs memo s
      pure ((d :: ds, memo), s) : Build R _) := by
  rw [replaceEach]
  rfl

/-- A node is replaced after its children, and only once. -/
theorem replaceNode_run (n : Nat) (k : Kind R) (cs : List (Shared R)) (memo : Memo R) (s : σ) :
    replaceNode rule (.node n k cs) memo s = (match memo[n]? with
      | some done => pure ((done, memo), s)
      | none => do
        let ((children, memo), s) ← replaceEach rule cs memo s
        let rebuilt ← Build.rebuild (.node n k cs) children
        let (found, s) ← rule rebuilt s
        pure ((found.getD rebuilt, memo.insert n (found.getD rebuilt)), s) : Build R _) := by
  rw [replaceNode]
  show (match memo[n]? with | some done => _ | none => _ : Replacing σ R (Shared R)) memo s = _
  cases memo[n]? <;> rfl

theorem replaceBy_run (rule : Shared R → Build R (Option (Shared R))) (p : Shared R) :
    Build.replaceBy rule p = (do
      let ((out, _), _) ← replaceNode (fun q ↦ (rule q : StateT Unit (Build R) _)) p {} ()
      pure out) := rfl

/-! ### Rules that keep a relation -/

namespace Build

/-- If each child is replaced as it should be, so are all. -/
theorem yields_replaceEach {cs : List (Shared R)}
    (each : ∀ c ∈ cs, ∀ (nodes : Nodes R) (memo : Memo R) (s : σ), c.Known nodes →
      memo.Holds out nodes → Yields rel nodes (replaceNode rule c memo s) fun after a ↦
        a.1.1.Known after ∧ out c a.1.1 ∧ a.1.2.Holds out after)
    (known : ∀ c ∈ cs, c.Known nodes) {memo : Memo R} (hmemo : memo.Holds out nodes) (s : σ) :
    Yields rel nodes (replaceEach rule cs memo s) fun after a ↦
      (∀ d ∈ a.1.1, d.Known after) ∧ List.Forall₂ out cs a.1.1 ∧ a.1.2.Holds out after := by
  induction cs generalizing nodes memo s with
  | nil =>
    rw [replaceEach]
    exact yields_pure ⟨nofun, .nil, hmemo⟩
  | cons c cs ih =>
    rw [List.forall_mem_cons] at each known
    rw [replaceEach_cons_run]
    refine (each.1 nodes memo s known.1 hmemo).bind fun nodes a extend ⟨hd, hout, hmemo⟩ ↦ ?_
    have hcs : ∀ c ∈ cs, c.Known nodes := fun c hc ↦ (known.2 c hc).mono extend
    refine (ih each.2 hcs hmemo a.2).bind fun nodes b extend ⟨hds, houts, hmemo⟩ ↦ ?_
    exact yields_pure ⟨List.forall_mem_cons.2 ⟨hd.mono extend, hds⟩, .cons hout houts, hmemo⟩

/-- A rule that does what it should is applied to all nodes. -/
theorem yields_replaceNode (keeps : RuleKeeps rel out rule) {p : Shared R} (known : p.Known nodes)
    {memo : Memo R} (hmemo : memo.Holds out nodes) (s : σ) :
    Yields rel nodes (replaceNode rule p memo s) fun after a ↦
      a.1.1.Known after ∧ out p a.1.1 ∧ a.1.2.Holds out after := by
  induction p using Program.induct generalizing nodes memo s with
  | node n k cs ih =>
    rw [replaceNode_run]
    -- The node was replaced before, or its turn comes after its children.
    split
    · rename_i done hdone
      obtain ⟨hknown, hout⟩ := (hmemo n done hdone).of_known known
      exact yields_pure ⟨hknown, hout, hmemo⟩
    · refine (yields_replaceEach (fun c hc _ _ s known hmemo ↦ ih c hc known hmemo s) known.of_mem
        hmemo s).bind fun nodes a extend ⟨hds, houts, hmemo⟩ ↦ ?_
      replace known := known.mono extend
      refine (yields_rebuild known hds houts.length_eq.symm).bind
        fun nodes rebuilt extend ⟨hrebuilt, m, heq, hsame⟩ ↦ ?_
      replace known := known.mono extend
      replace hmemo := hmemo.mono extend
      subst heq
      have hrule := keeps houts hsame hrebuilt a.2
      refine hrule.bind fun nodes b extend ⟨hq, hout⟩ ↦ ?_
      replace known := known.mono extend
      replace hmemo := hmemo.mono extend
      exact yields_pure ⟨hq, hout, hmemo.insert known hq hout⟩

/-- A program is related to what a rule without a state replaces it by, if what the rule finds suits
each rebuilt node. -/
theorem yields_replaceBy (out : Shared R → Shared R → Prop)
    {rule : Shared R → Build R (Option (Shared R))}
    (keeps : ∀ (nodes : Nodes R) (n m : Nat) (k : Kind R) (cs ds : List (Shared R)),
      List.Forall₂ out cs ds → (ds = cs → m = n) → Shared.Known nodes (.node m k ds) →
        Yields rel nodes (rule (.node m k ds)) (Suits out (.node n k cs) (.node m k ds)))
    {p : Shared R} (known : p.Known nodes) :
    Yields rel nodes (replaceBy rule p) fun after q ↦ q.Known after ∧ out p q := by
  have hkeeps : RuleKeeps rel out fun q ↦ (rule q : StateT Unit (Build R) _) := by
    intro nodes n m k cs ds houts hsame hrebuilt s
    exact (keeps nodes n m k cs ds houts hsame hrebuilt).bind fun _ _ _ hsuits ↦ yields_pure hsuits
  have hempty : Memo.Holds out nodes {} := by
    intro n q h
    rw [Std.HashMap.getElem?_empty] at h
    cases h
  rw [replaceBy_run]
  refine (yields_replaceNode hkeeps known hempty ()).bind fun nodes a _ ⟨hq, hout, _⟩ ↦ ?_
  exact yields_pure ⟨hq, hout⟩

end Build

/-! ### Choosing the sides of paths -/

/-- No path is left in the second program, and analyses that choose the same sides of paths have the
same answer for both. -/
structure Resolves [Scalar R] (isInside : Path → Bool) (p q : Shared R) : Prop where
  valid : q.Valid
  pathFree : q.PathFree
  fold_eq {α : Type} (f : Kind R → List α → α)
    (chooses : ∀ path a b, f (.pathBoolean path) [a, b] = if isInside path then a else b) :
    q.fold f = p.fold f

/-- What the sides of paths are chosen in keeps the numbers of children and is valid if the program
was, and a program without paths is left alone. -/
structure Chosen [Scalar R] (isInside : Path → Bool) (p q : Shared R) : Prop where
  formed : q.Formed
  pathFree : q.PathFree
  fold_eq {α : Type} (f : Kind R → List α → α)
    (chooses : ∀ path a b, f (.pathBoolean path) [a, b] = if isInside path then a else b) :
    q.fold f = p.fold f
  valid : p.Valid → q.Valid
  itself : p.PathFree → q = p

variable [Scalar R] {isInside : Path → Bool}

/-- Once sides are chosen, the choices of a valid program are resolved. -/
theorem Chosen.resolves {p q : Shared R} (h : Chosen isInside p q) (valid : p.Valid) :
    Resolves isInside p q :=
  ⟨h.valid valid, h.pathFree, h.fold_eq⟩

/-- A node is rebuilt over children whose sides are chosen. -/
theorem chosen_node {n m : Nat} {k : Kind R} {cs ds : List (Shared R)}
    (formed : (Program.node n k cs).Formed) (pathless : k.isPathBoolean = false)
    (same : ds = cs → m = n) (h : List.Forall₂ (fun c d ↦ c.Formed → Chosen isInside c d) cs ds) :
    Chosen isInside (.node n k cs) (.node m k ds) := by
  obtain ⟨haccepts, hformed⟩ := formed
  have hchosen : List.Forall₂ (Chosen isInside) cs ds :=
    ((List.forall₂_and_left _ _).2 ⟨hformed, h⟩).imp fun _ _ hc ↦ hc.2 hc.1
  have hlength := hchosen.length_eq
  constructor
  · refine .node (hlength ▸ haccepts) ?_
    exact forall_mem_of_forall₂ hchosen fun _ _ hd ↦ hd.formed
  · exact .node pathless (forall_mem_of_forall₂ hchosen fun _ _ hd ↦ hd.pathFree)
  · intro _ f chooses
    have hmap := map_eq_of_forall₂ (hchosen.imp fun _ _ hd ↦ hd.fold_eq f chooses)
    rw [Program.fold_node, Program.fold_node, hmap]
  · rintro ⟨hvalid, hvalids⟩
    have hall := (List.forall₂_and_left _ _).2 ⟨hvalids, hchosen⟩
    exact .node (hlength ▸ hvalid) (forall_mem_of_forall₂ hall fun _ _ hd ↦ hd.2.valid hd.1)
  · rintro ⟨-, hpaths⟩
    have hall := (List.forall₂_and_left _ _).2 ⟨hpaths, hchosen⟩
    have heq : List.Forall₂ Eq cs ds := hall.imp fun _ _ hd ↦ (hd.2.itself hd.1).symm
    rw [List.forall₂_eq_eq_eq] at heq
    rw [heq, same heq.symm]

/-- What is chosen for one side of a path is chosen for the path. -/
theorem Chosen.of_side {n : Nat} {path : Path} {cs : List (Shared R)} {c d : Shared R}
    (h : Chosen isInside c d) (hc : c ∈ cs)
    (hfold : ∀ {α : Type} (f : Kind R → List α → α), (∀ path a b, f (.pathBoolean path) [a, b] =
      if isInside path then a else b) → (Program.node n (.pathBoolean path) cs).fold f = c.fold f) :
    Chosen isInside (.node n (.pathBoolean path) cs) d where
  formed := h.formed
  pathFree := h.pathFree
  fold_eq f chooses := (h.fold_eq f chooses).trans (hfold f chooses).symm
  valid := fun ⟨_, hvalids⟩ ↦ h.valid (hvalids c hc)
  -- The node itself is a path.
  itself := fun ⟨hpath, _⟩ ↦ absurd hpath nofun

/-- A choice is replaced by the side that is chosen. -/
theorem chosen_pathBoolean {n : Nat} {path : Path} {a b c d : Shared R}
    (formed : (Program.node n (.pathBoolean path) [a, b]).Formed)
    (ha : a.Formed → Chosen isInside a c) (hb : b.Formed → Chosen isInside b d) :
    Chosen isInside (.node n (.pathBoolean path) [a, b]) (if isInside path then c else d) := by
  obtain ⟨-, hformed⟩ := formed
  have hfold {α : Type} (f : Kind R → List α → α)
      (chooses : ∀ path a b, f (.pathBoolean path) [a, b] = if isInside path then a else b) :
      (Program.node n (.pathBoolean path) [a, b]).fold f =
        if isInside path then a.fold f else b.fold f := by
    rw [Program.fold_node]
    exact chooses path _ _
  split
  · rename_i hinside
    refine (ha (hformed a (by simp))).of_side (by simp) fun f chooses ↦ ?_
    rw [hfold f chooses, if_pos hinside]
  · rename_i houtside
    refine (hb (hformed b (by simp))).of_side (by simp) fun f chooses ↦ ?_
    rw [hfold f chooses, if_neg houtside]

namespace Build

/-- The sides of all paths are chosen in a program with the right numbers of children. -/
theorem yields_chosen (isInside : Path → Bool) {p : Shared R} (known : p.Known nodes) :
    Yields rel nodes (withPathInclusion isInside p) fun after q ↦
      q.Known after ∧ (p.Formed → Chosen isInside p q) := by
  refine yields_replaceBy (fun p q ↦ p.Formed → Chosen isInside p q) ?_ known
  intro nodes n m k cs ds h same known
  cases k with
  | pathBoolean path =>
    refine yields_pure ⟨?_, fun formed ↦ ?_⟩
    · rcases hside : ds[if isInside path then 0 else 1]? with - | d
      · exact known
      · exact known.of_mem d (List.mem_of_getElem? hside)
    · have hformed := formed
      obtain ⟨haccepts, -⟩ := hformed
      obtain ⟨a, b, rfl⟩ := List.length_eq_two.1 haccepts
      rcases h with - | ⟨ha, - | ⟨hb, - | -⟩⟩
      have hsides := chosen_pathBoolean formed ha hb
      split at hsides
      · rename_i hinside
        simpa [hinside] using hsides
      · rename_i houtside
        simpa [houtside] using hsides
  | _ => exact yields_pure ⟨known, fun formed ↦ chosen_node formed rfl same h⟩

/-- Choosing the sides of paths resolves a valid program. -/
theorem yields_withPathInclusion (isInside : Path → Bool) {p : Shared R} (known : p.Known nodes) :
    Yields rel nodes (withPathInclusion isInside p) fun after q ↦
      q.Known after ∧ (p.Valid → Resolves isInside p q) :=
  (yields_chosen isInside known).imp fun _ _ _ ⟨hq, hchosen⟩ ↦
    ⟨hq, fun valid ↦ (hchosen valid.formed).resolves valid⟩

end Build

/-! ### Moving programs -/

/-- An analysis of the second program is the analysis of the first one with every kind moved. -/
def Moved (m : Affine R) (p q : Shared R) : Prop :=
  ∀ {α : Type} (f : Kind R → List α → α),
    q.fold f = p.fold fun k ↦ f ((k.transformed? m).getD k)

/-- A node is moved with its children. -/
theorem moved_node {m : Affine R} {n l : Nat} {k : Kind R} {cs ds : List (Shared R)}
    (h : List.Forall₂ (Moved m) cs ds) :
    Moved m (.node n k cs) (.node l ((k.transformed? m).getD k) ds) := by
  intro _ f
  rw [Program.fold_node, Program.fold_node, map_eq_of_forall₂ (h.imp fun _ _ hd ↦ hd f)]

namespace Build

/-- Moving a program by a map that is accepted moves the kind of every node. -/
theorem yields_moved {m : Affine R} (accepted : checkTransform .programTransform m = .ok ())
    {p : Shared R} (known : p.Known nodes) :
    Yields rel nodes (transformed m p) fun after found ↦
      ∃ q, found = .ok q ∧ q.Known after ∧ Moved m p q := by
  rw [transformed, accepted]
  refine (yields_replaceBy (Moved m) ?_ known).bind fun nodes q _ ⟨hq, hmoved⟩ ↦
    yields_pure ⟨q, rfl, hq, hmoved⟩
  intro nodes n l k cs ds h _ known
  dsimp only [Program.kind, Program.children]
  split
  · rename_i kind hkind
    refine (yields_node kind known.of_mem).bind fun nodes q _ ⟨hq, l, heq⟩ ↦ ?_
    have hmoved : Moved m (.node n k cs) (.node l ((k.transformed? m).getD k) ds) := moved_node h
    rw [hkind, Option.getD_some] at hmoved
    exact yields_pure ⟨hq, heq ▸ hmoved⟩
  · rename_i hkind
    have hmoved : Moved m (.node n k cs) (.node l ((k.transformed? m).getD k) ds) := moved_node h
    rw [hkind, Option.getD_none] at hmoved
    exact yields_pure ⟨known, hmoved⟩

/-- Moving a program by an affine map leads to a known program, if the map can be inverted. -/
theorem yields_transformed (m : Affine R) {p : Shared R} (known : p.Known nodes) :
    Yields rel nodes (transformed m p) fun after found ↦ ∀ q, found = .ok q → q.Known after := by
  cases accepted : checkTransform .programTransform m with
  | error cause =>
    rw [transformed, accepted]
    exact yields_pure nofun
  | ok =>
    refine (yields_moved accepted known).imp fun _ _ _ ⟨q, hfound, hq, _⟩ q' hq' ↦ ?_
    rw [hfound] at hq'
    exact Except.ok.inj hq' ▸ hq

end Build

end Shading
