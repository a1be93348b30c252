import Std.Data.HashMap.Lemmas
import Mathlib.Data.List.Forall2
import Shading.Program.Simplify
import Shading.Proofs.Program.Known
import Shading.Proofs.Program.Parts

/-!
# Building known programs

What a computation in a workspace leads to, stated with the nodes that are known before and after
it (`Build.Yields`). The workspace holds (`Workspace.Holds`) if its unused numbers belong to no node
and if what it notes for a node is related to that node.

The relation is a parameter. If every step of the simplifier keeps it (`Simplifying`), it relates a
program to its simplification, whatever was simplified before in the same workspace
(`Build.yields_simplified`).
-/

namespace Shading

/-! ### Lists that are related one by one -/

theorem forall_mem_of_forall₂ {α β : Type} {r : α → β → Prop} {good : β → Prop} {xs : List α}
    {ys : List β} (h : List.Forall₂ r xs ys) (each : ∀ x y, r x y → good y) : ∀ y ∈ ys, good y := by
  induction h with
  | nil => exact nofun
  | cons hr _ ih => exact List.forall_mem_cons.2 ⟨each _ _ hr, ih⟩

theorem map_eq_of_forall₂ {α β γ : Type} {f : α → γ} {g : β → γ} {xs : List α} {ys : List β}
    (h : List.Forall₂ (fun x y ↦ g y = f x) xs ys) : ys.map g = xs.map f := by
  induction h with
  | nil => rfl
  | cons heq _ ih => rw [List.map_cons, List.map_cons, heq, ih]

/-! ### Workspaces -/

variable {R : Type} {rel : Shared R → Shared R → Prop}

/-- A known program is related to the node with the number. -/
def Nodes.Finds (rel : Shared R → Shared R → Prop) (nodes : Nodes R) (n : Nat) (q : Shared R) :
    Prop :=
  ∃ p, nodes n = some p ∧ q.Known nodes ∧ rel p q

/-- What is found for a node stays found when there are more nodes. -/
theorem Nodes.Finds.mono {nodes nodes' : Nodes R} {n : Nat} {q : Shared R}
    (extend : nodes.Extend nodes') (h : nodes.Finds rel n q) : nodes'.Finds rel n q := by
  obtain ⟨p, hp, hq, hrel⟩ := h
  exact ⟨p, extend hp, hq.mono extend, hrel⟩

/-- What is found for a known node is known and related to it. -/
theorem Nodes.Finds.of_known {nodes : Nodes R} {p q : Shared R} (h : nodes.Finds rel p.name q)
    (hp : p.Known nodes) : q.Known nodes ∧ rel p q := by
  obtain ⟨p', hp', hq, hrel⟩ := h
  rw [hp.eq_some] at hp'
  cases hp'
  exact ⟨hq, hrel⟩

/-- New nodes get unused numbers, and simplifications that are noted are related to their nodes. -/
structure Workspace.Holds (rel : Shared R → Shared R → Prop) (nodes : Nodes R)
    (w : Workspace R) : Prop where
  unused : ∀ n, w.next ≤ n → nodes n = none
  settled : ∀ n q, w.settled[n]? = some (.replaced q) → nodes.Finds rel n q

namespace Build

variable {α β : Type} {nodes : Nodes R} {good : Nodes R → α → Prop} {fine : Nodes R → β → Prop}

/-- In any workspace that holds the nodes, the computation at most adds nodes, and its answer is as
stated. -/
def Yields (rel : Shared R → Shared R → Prop) (nodes : Nodes R) (m : Build R α)
    (good : Nodes R → α → Prop) : Prop :=
  ∀ w : Workspace R, w.Holds rel nodes →
    ∃ nodes', nodes.Extend nodes' ∧ (m w).2.Holds rel nodes' ∧ good nodes' (m w).1

theorem yields_pure {a : α} (h : good nodes a) : Yields rel nodes (pure a) good :=
  fun _ hw ↦ ⟨nodes, .refl nodes, hw, h⟩

theorem Yields.bind {m : Build R α} {f : α → Build R β} (hm : Yields rel nodes m good)
    (hf : ∀ nodes' a, nodes.Extend nodes' → good nodes' a → Yields rel nodes' (f a) fine) :
    Yields rel nodes (m >>= f) fine := by
  intro w hw
  obtain ⟨middle, hmiddle, hw', ha⟩ := hm w hw
  obtain ⟨nodes', hnodes', hw'', hb⟩ := hf middle (m w).1 hmiddle ha (m w).2 hw'
  exact ⟨nodes', hmiddle.trans hnodes', hw'', hb⟩

theorem Yields.imp {m : Build R α} {good' : Nodes R → α → Prop} (hm : Yields rel nodes m good)
    (h : ∀ nodes' a, nodes.Extend nodes' → good nodes' a → good' nodes' a) :
    Yields rel nodes m good' := by
  intro w hw
  obtain ⟨nodes', hnodes', hw', ha⟩ := hm w hw
  exact ⟨nodes', hnodes', hw', h nodes' _ hnodes' ha⟩

/-! ### Single operations -/

/-- A new node over known children is known. -/
theorem yields_node (kind : Kind R) {children : List (Shared R)}
    (known : ∀ c ∈ children, c.Known nodes) :
    Yields rel nodes (node kind children) fun after q ↦
      q.Known after ∧ ∃ n, q = .node n kind children := by
  intro w hw
  have hnew := Nodes.extend_update (hw.unused w.next (Nat.le_refl _)) (.node w.next kind children)
  refine ⟨_, hnew, ⟨fun n hn ↦ ?_, fun n q hq ↦ ?_⟩, ?_, w.next, rfl⟩
  · have hnext : w.next + 1 ≤ n := hn
    rw [Function.update_of_ne (by omega)]
    exact hw.unused n (by omega)
  · exact (hw.settled n q hq).mono hnew
  · exact .node (Function.update_self ..) fun c hc ↦ (known c hc).mono hnew

/-- What was settled before is known and related. -/
theorem yields_settled? {p : Shared R} (known : p.Known nodes) :
    Yields rel nodes (settled? p) fun after found ↦
      ∀ q, found = some (.replaced q) → q.Known after ∧ rel p q :=
  fun _ hw ↦ ⟨nodes, .refl nodes, hw, fun q hq ↦ (hw.settled p.name q hq).of_known known⟩

/-- Known and related answers may be settled. -/
theorem yields_settle {p : Shared R} {found : Settled R} (known : p.Known nodes)
    (related : ∀ q, found = .replaced q → q.Known nodes ∧ rel p q) :
    Yields rel nodes (settle p found) fun _ _ ↦ True := by
  refine fun w hw ↦ ⟨nodes, .refl nodes, ⟨hw.unused, fun n q hq ↦ ?_⟩, trivial⟩
  have hfound : (w.settled.insert p.name found)[n]? = some (.replaced q) := hq
  rw [Std.HashMap.getElem?_insert] at hfound
  -- The entry is the new one, or it was there before.
  split at hfound
  · rename_i hname
    obtain ⟨hq, hrel⟩ := related q (Option.some.inj hfound)
    rw [← eq_of_beq hname]
    exact ⟨p, known.eq_some, hq, hrel⟩
  · exact hw.settled n q hfound

/-- Children that are the same nodes one by one are the same. -/
theorem eq_of_unchanged {cs ds : List (Shared R)} (length : cs.length = ds.length)
    (hcs : ∀ c ∈ cs, c.Known nodes) (hds : ∀ d ∈ ds, d.Known nodes)
    (h : rebuild.unchanged cs ds = true) : cs = ds := by
  induction cs generalizing ds with
  | nil => exact (List.length_eq_zero_iff.1 length.symm).symm
  | cons c cs ih =>
    cases ds with
    | nil => cases length
    | cons d ds =>
      rw [List.forall_mem_cons] at hcs hds
      obtain ⟨hc, hrest⟩ := Bool.and_eq_true_iff.1 h
      rw [hcs.1.eq_of_identical hds.1 hc, ih (Nat.succ.inj length) hcs.2 hds.2 hrest]

/-- Children are unchanged if they are the same. -/
theorem unchanged_self (cs : List (Shared R)) : rebuild.unchanged cs cs = true := by
  induction cs with
  | nil => rfl
  | cons c cs ih => exact Bool.and_eq_true_iff.2 ⟨beq_self_eq_true c.name, ih⟩

/-- A node rebuilt over known children has its kind and these children, and over its own children it
stays the same node. -/
theorem yields_rebuild {n : Nat} {k : Kind R} {cs ds : List (Shared R)}
    (known : Shared.Known nodes (.node n k cs)) (hds : ∀ d ∈ ds, d.Known nodes)
    (length : ds.length = cs.length) :
    Yields rel nodes (rebuild (.node n k cs) ds) fun after q ↦
      q.Known after ∧ ∃ m, q = .node m k ds ∧ (ds = cs → m = n) := by
  rw [rebuild]
  split
  · rename_i hunchanged
    have heq := eq_of_unchanged length hds known.of_mem hunchanged
    exact yields_pure ⟨known, n, by rw [heq], fun _ ↦ rfl⟩
  · rename_i hchanged
    refine (yields_node k hds).imp fun _ q _ ⟨hq, m, heq⟩ ↦ ⟨hq, m, heq, ?_⟩
    rintro rfl
    exact absurd (unchanged_self ds) hchanged

/-- What is put in place of a node is known, if its parts are. -/
theorem yields_place {r : Replacement Nat R} (known : r.Each (Shared.Known nodes)) :
    Yields rel nodes (place r) fun after q ↦ q.Known after ∧ ∃ n, q = r.program n := by
  cases r with
  | existing p => exact yields_pure ⟨known, 0, rfl⟩
  | fresh kind children => exact yields_node kind known

/-- An operation on each of several known programs. -/
theorem yields_mapM {f : Shared R → Build R (Shared R)} {out : Shared R → Shared R → Prop}
    {cs : List (Shared R)} (hcs : ∀ c ∈ cs, c.Known nodes)
    (each : ∀ c ∈ cs, ∀ nodes', c.Known nodes' →
      Yields rel nodes' (f c) fun after d ↦ d.Known after ∧ out c d) :
    Yields rel nodes (cs.mapM f) fun after ds ↦
      (∀ d ∈ ds, d.Known after) ∧ List.Forall₂ out cs ds := by
  induction cs generalizing nodes with
  | nil => exact yields_pure ⟨nofun, .nil⟩
  | cons c cs ih =>
    rw [List.forall_mem_cons] at hcs each
    rw [List.mapM_cons]
    refine (each.1 nodes hcs.1).bind fun middle d hmiddle ⟨hd, hout⟩ ↦ ?_
    have hcs' : ∀ c ∈ cs, c.Known middle := fun c hc ↦ (hcs.2 c hc).mono hmiddle
    refine (ih hcs' each.2).bind fun after ds hafter ⟨hds, houts⟩ ↦ ?_
    exact yields_pure ⟨List.forall_mem_cons.2 ⟨hd.mono hafter, hds⟩, .cons hout houts⟩

end Build

/-! ### Simplification -/

variable [ColorModel R]

/-- The relation is kept by every step of the simplifier. -/
structure Simplifying (rel : Shared R → Shared R → Prop) : Prop where
  refl (p : Shared R) : rel p p
  trans {p q r : Shared R} : rel p q → rel q r → rel p r
  /-- Rebuilding a node over related children. -/
  node {n m : Nat} {k : Kind R} {cs ds : List (Shared R)} :
    List.Forall₂ rel cs ds → rel (.node n k cs) (.node m k ds)
  /-- Replacing a node by what it is reduced to. -/
  reduce {nodes : Nodes R} {p : Shared R} {r : Replacement Nat R} {n : Nat} :
    Shared.Known nodes p → reduce? Shared.eq p = some r → rel p (r.program n)

/-- Where nothing is asked of simplifications, every step keeps it. -/
theorem simplifying_true : Simplifying fun _ _ : Shared R ↦ True :=
  ⟨fun _ ↦ trivial, fun _ _ ↦ trivial, fun _ ↦ trivial, fun _ _ ↦ trivial⟩

namespace Build

variable {nodes : Nodes R}

/-- With any bound on nested steps, a program is related to what it is simplified to. -/
theorem yields_simplifyWithin (simplifying : Simplifying rel) (fuel : Nat) {p : Shared R}
    (known : p.Known nodes) :
    Yields rel nodes (simplifyWithin fuel p) fun after q ↦ q.Known after ∧ rel p q := by
  induction fuel generalizing nodes p with
  | zero => exact yields_pure ⟨known, simplifying.refl p⟩
  | succ fuel ih =>
    rw [simplifyWithin]
    -- Every operation may add nodes, so what is known is carried over each of them.
    refine (yields_settled? known).bind fun nodes found extend hfound ↦ ?_
    replace known := known.mono extend
    match found with
    | some .itself => exact yields_pure ⟨known, simplifying.refl p⟩
    | some (.replaced q) => exact yields_pure (hfound q rfl)
    | none =>
      -- The chain of related programs: the node, rebuilt, reduced, and that simplified in turn.
      obtain ⟨n, k, cs⟩ := p
      refine (yields_mapM known.of_mem fun c _ nodes hc ↦ ih hc).bind
        fun nodes ds extend ⟨hds, hrel⟩ ↦ ?_
      replace known := known.mono extend
      refine (yields_rebuild known hds hrel.length_eq.symm).bind
        fun nodes rebuilt extend ⟨hrebuilt, m, heq, _⟩ ↦ ?_
      replace known := known.mono extend
      have hnode : rel (.node n k cs) rebuilt := by
        rw [heq]
        exact simplifying.node hrel
      split
      · rename_i r hreduce
        have hparts : r.Each (Shared.Known nodes) :=
          each_of_reduce? (fun _ _ _ h ↦ h.of_mem) hrebuilt hreduce
        refine (yields_place hparts).bind fun nodes placed extend ⟨hplaced, l, hl⟩ ↦ ?_
        replace known := known.mono extend
        refine (ih hplaced).bind fun nodes q extend ⟨hq, hplace⟩ ↦ ?_
        replace known := known.mono extend
        have hreduced : rel rebuilt placed := hl ▸ simplifying.reduce hrebuilt hreduce
        have hout := simplifying.trans (simplifying.trans hnode hreduced) hplace
        refine (yields_settle known ?_).bind fun nodes _ extend _ ↦ ?_
        · rintro _ ⟨⟩
          exact ⟨hq, hout⟩
        · exact yields_pure ⟨hq.mono extend, hout⟩
      · refine (yields_settle hrebuilt ?_).bind fun nodes _ extend _ ↦ ?_
        · rintro _ ⟨⟩
        replace known := known.mono extend
        replace hrebuilt := hrebuilt.mono extend
        dsimp only
        split
        · exact yields_pure ⟨hrebuilt, hnode⟩
        · refine (yields_settle known ?_).bind fun nodes _ extend _ ↦ ?_
          · rintro _ ⟨⟩
            exact ⟨hrebuilt, hnode⟩
          · exact yields_pure ⟨hrebuilt.mono extend, hnode⟩

/-- A program is related to its simplification. -/
theorem yields_simplified (simplifying : Simplifying rel) {p : Shared R} (known : p.Known nodes) :
    Yields rel nodes (simplified p) fun after q ↦ q.Known after ∧ rel p q :=
  yields_simplifyWithin simplifying _ known

end Build

end Shading
