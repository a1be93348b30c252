import Shading.Proofs.Program.Building
import Shading.Proofs.Program.Weight

/-!
# What a workspace notes

A workspace that simplifies answers once for each node, and keeps the answer. It is coherent
(`Workspace.Coherent`) if what it notes can be trusted: a node that is noted as its own
simplification is irreducible down to its leaves, and any other noted answer is such a node. The
answer for a node is made of answers for the nodes within it, so nothing that is shared gets lost.

While a program is simplified, only lighter nodes and new ones are settled (`Workspace.Progress`).
This is why the node itself is still open when its own answer is noted.
-/

namespace Shading

variable {R : Type}

/-- The parts of a known program are known. -/
theorem Shared.Known.of_part {nodes : Nodes R} {p q : Shared R} (h : p.Known nodes)
    (part : q.Part p) : q.Known nodes :=
  part.of_within (fun _ _ _ hnode ↦ hnode.of_mem) h

/-! ### Answers -/

namespace Workspace

variable {w w' w'' : Workspace R} {p q r : Shared R}

/-- The program is noted as its own simplification. -/
def Final (w : Workspace R) (p : Shared R) : Prop := w.settled[p.name]? = some .itself

/-- Nothing is noted for the program. -/
def Open (w : Workspace R) (p : Shared R) : Prop := w.settled[p.name]? = none

/-- The simplification noted for the first program is the second one. -/
def Answers (w : Workspace R) (p q : Shared R) : Prop :=
  (w.Final p ∧ q = p) ∨ w.settled[p.name]? = some (.replaced q)

/-- What the first workspace notes, the second one notes as well. -/
def Grows (w w' : Workspace R) : Prop :=
  ∀ ⦃n : Nat⦄ ⦃found : Settled R⦄,
    w.settled[n]? = some found → w'.settled[n]? = some found

theorem Grows.refl (w : Workspace R) : w.Grows w := fun _ _ h ↦ h

theorem Grows.trans (h : w.Grows w') (h' : w'.Grows w'') : w.Grows w'' := fun _ _ hf ↦ h' (h hf)

theorem Final.mono (grows : w.Grows w') (h : w.Final p) : w'.Final p := grows h

theorem Answers.mono (grows : w.Grows w') (h : w.Answers p q) : w'.Answers p q :=
  h.imp (fun h ↦ ⟨grows h.1, h.2⟩) fun h ↦ grows h

/-- A final program is the answer for itself. -/
theorem Final.answers (h : w.Final p) : w.Answers p p := .inl ⟨h, rfl⟩

/-- A node has one answer. -/
theorem Answers.unique (h : w.Answers p q) (h' : w.Answers p r) : q = r := by
  rcases h with ⟨h, rfl⟩ | h <;> rcases h' with ⟨h', rfl⟩ | h'
  · rfl
  · cases (show w.settled[q.name]? = _ from h).symm.trans h'
  · cases h.symm.trans (show w.settled[r.name]? = _ from h')
  · cases h.symm.trans h'
    rfl

/-- A program without an answer is open. -/
theorem open_of_forall_not_answers (h : ¬∃ q, w.Answers p q) : w.Open p := by
  rw [Open, Option.eq_none_iff_forall_ne_some]
  rintro (- | q) hfound
  · exact h ⟨p, .inl ⟨hfound, rfl⟩⟩
  · exact h ⟨q, .inr hfound⟩

end Workspace

variable [ColorModel R]

/-- No rule applies to any node of the program. -/
def Shared.Irreducible (p : Shared R) : Prop := ∀ q, q.Part p → reduce? Shared.eq q = none

/-- The relation is kept by every step of the simplifier: a node is made anew only over other
children, and it is reduced only when nothing below it can be. -/
structure Settling (rel : Shared R → Shared R → Prop) : Prop where
  refl (p : Shared R) : rel p p
  trans {p q r : Shared R} : rel p q → rel q r → rel p r
  node {n m : Nat} {k : Kind R} {cs ds : List (Shared R)} :
    List.Forall₂ rel cs ds → (ds = cs → m = n) → rel (.node n k cs) (.node m k ds)
  reduce {nodes : Nodes R} {p : Shared R} {r : Replacement Nat R} {n : Nat} :
    Shared.Known nodes p → (∀ c ∈ p.children, Shared.Irreducible c) →
      reduce? Shared.eq p = some r → rel p (r.program n)

/-- Two relations at once. -/
theorem Settling.and {rel rel' : Shared R → Shared R → Prop} (h : Settling rel)
    (h' : Settling rel') : Settling fun p q ↦ rel p q ∧ rel' p q where
  refl p := ⟨h.refl p, h'.refl p⟩
  trans hpq hqr := ⟨h.trans hpq.1 hqr.1, h'.trans hpq.2 hqr.2⟩
  node hchildren fresh :=
    ⟨h.node (hchildren.imp fun _ _ hc ↦ hc.1) fresh,
      h'.node (hchildren.imp fun _ _ hc ↦ hc.2) fresh⟩
  reduce hp hchildren hreduce :=
    ⟨h.reduce hp hchildren hreduce, h'.reduce hp hchildren hreduce⟩

/-- A program that no rule applies to is left as it is. -/
theorem settling_irreducible :
    Settling fun p q : Shared R ↦ p.Irreducible → q = p where
  refl _ _ := rfl
  trans hpq hqr irreducible := by
    obtain rfl := hpq irreducible
    exact hqr irreducible
  node {_ _ _ cs ds} hchildren fresh irreducible := by
    have hcs : ∀ c ∈ cs, c.Irreducible := fun c hc q hq ↦ irreducible q (.child hc hq)
    have hsame : List.Forall₂ (fun c d ↦ c = d) cs ds :=
      ((List.forall₂_and_left _ _).2 ⟨hcs, hchildren⟩).imp fun _ _ h ↦ (h.2 h.1).symm
    rw [List.forall₂_eq_eq_eq] at hsame
    rw [← hsame, fresh hsame.symm]
  reduce {_ p _ _} _ _ hreduce irreducible := by
    rw [irreducible p (.refl p)] at hreduce
    cases hreduce

/-! ### Coherent workspaces -/

variable {rel : Shared R → Shared R → Prop} {nodes nodes' nodes'' : Nodes R}
  {w w' w'' : Workspace R} {p q r : Shared R}

/-- The answer for the first program is the second one, a lighter or equal one related to it, which
is its own simplification, and each of its parts is the answer for some part of the first. -/
structure Workspace.Resolved (rel : Shared R → Shared R → Prop) (nodes : Nodes R) (w : Workspace R)
    (p q : Shared R) : Prop where
  answers : w.Answers p q
  known : q.Known nodes
  final : w.Final q
  related : rel p q
  weight_le : q.weight ≤ p.weight
  parts : ∀ y, y.Part q → ∃ c, c.Part p ∧ w.Answers c y

/-- What is noted for a node can be trusted, and its children have answers too. -/
inductive Workspace.Sound (rel : Shared R → Shared R → Prop) (nodes : Nodes R) (w : Workspace R)
    (p : Shared R) : Settled R → Prop
  | itself : reduce? Shared.eq p = none → (∀ c ∈ p.children, w.Final c) →
    Sound rel nodes w p .itself
  | replaced {q : Shared R} : (∀ c ∈ p.children, ∃ d, w.Answers c d) → w.Resolved rel nodes p q →
    Sound rel nodes w p (.replaced q)

/-- New nodes get unused numbers, and all that is noted can be trusted. -/
structure Workspace.Coherent (rel : Shared R → Shared R → Prop) (nodes : Nodes R)
    (w : Workspace R) : Prop where
  unused : ∀ n, w.next ≤ n → nodes n = none
  sound : ∀ n found, w.settled[n]? = some found →
    ∃ p : Shared R, p.name = n ∧ p.Known nodes ∧ w.Sound rel nodes p found

namespace Workspace

omit [ColorModel R] in
theorem Resolved.mono (extend : nodes.Extend nodes') (grows : w.Grows w')
    (h : w.Resolved rel nodes p q) : w'.Resolved rel nodes' p q where
  answers := h.answers.mono grows
  known := h.known.mono extend
  final := h.final.mono grows
  related := h.related
  weight_le := h.weight_le
  parts y hy := by
    obtain ⟨c, hc, hanswer⟩ := h.parts y hy
    exact ⟨c, hc, hanswer.mono grows⟩

theorem Sound.mono {found : Settled R} (extend : nodes.Extend nodes') (grows : w.Grows w')
    (h : w.Sound rel nodes p found) : w'.Sound rel nodes' p found := by
  cases h with
  | itself hreduce hchildren => exact .itself hreduce fun c hc ↦ (hchildren c hc).mono grows
  | replaced hchildren h =>
    refine .replaced (fun c hc ↦ ?_) (h.mono extend grows)
    obtain ⟨d, hd⟩ := hchildren c hc
    exact ⟨d, hd.mono grows⟩

namespace Coherent

variable (hw : w.Coherent rel nodes)
include hw

/-- Whatever is settled under the name of a known program is sound. -/
theorem sound_of_known {found : Settled R} (hp : p.Known nodes)
    (h : w.settled[p.name]? = some found) : w.Sound rel nodes p found := by
  obtain ⟨q, hname, hq, hsound⟩ := hw.sound _ _ h
  rwa [hp.eq_of_name_eq hq hname.symm]

/-- A name that was not handed out is open. -/
theorem open_of_unused (h : w.next ≤ p.name) : w.Open p := by
  rw [Open, Option.eq_none_iff_forall_ne_some]
  intro found hfound
  obtain ⟨q, hname, hq, -⟩ := hw.sound _ _ hfound
  have hnone := hw.unused _ h
  rw [← hname, hq.eq_some] at hnone
  cases hnone

/-- With a node, its parts are their own simplifications. -/
theorem final_of_part (hp : p.Known nodes) (h : w.Final p) (part : q.Part p) : w.Final q := by
  induction part with
  | refl => exact h
  | child hc _ ih =>
    have hsound := hw.sound_of_known hp h
    cases hsound with
    | itself _ hchildren => exact ih (hp.of_mem _ hc) (hchildren _ hc)

/-- No rule applies to any part of a final program. -/
theorem irreducible (hp : p.Known nodes) (h : w.Final p) : p.Irreducible := by
  intro q part
  have hsound := hw.sound_of_known (hp.of_part part) (hw.final_of_part hp h part)
  cases hsound with
  | itself hreduce _ => exact hreduce

/-- An answer of a known program is resolved. -/
theorem resolved (settling : Settling rel) (hp : p.Known nodes) (h : w.Answers p q) :
    w.Resolved rel nodes p q := by
  rcases h with ⟨h, rfl⟩ | h
  · exact ⟨h.answers, hp, h, settling.refl q, Nat.le_refl _, fun y hy ↦
      ⟨y, hy, (hw.final_of_part hp h hy).answers⟩⟩
  · have hsound := hw.sound_of_known hp h
    cases hsound with
    | replaced _ h => exact h

/-- With a node, its children have answers. -/
theorem answers_of_mem {n : Nat} {k : Kind R} {cs : List (Shared R)} {c : Shared R}
    (hp : Shared.Known nodes (.node n k cs)) (h : w.Answers (.node n k cs) q) (hc : c ∈ cs) :
    ∃ d, w.Answers c d := by
  rcases h with ⟨h, rfl⟩ | h
  · cases hw.sound_of_known hp h with
    | itself _ hchildren => exact ⟨c, (hchildren c hc).answers⟩
  · cases hw.sound_of_known hp h with
    | replaced hchildren _ => exact hchildren c hc

/-- With a node, its parts have answers. -/
theorem answers_of_part (hp : p.Known nodes) (h : w.Answers p q) {x : Shared R}
    (part : x.Part p) : ∃ y, w.Answers x y := by
  induction part generalizing q with
  | refl => exact ⟨q, h⟩
  | child hc _ ih =>
    obtain ⟨d, hd⟩ := hw.answers_of_mem hp h hc
    exact ih (hp.of_mem _ hc) hd

/-- More nodes, and nothing else noted. -/
theorem of_settled_eq (extend : nodes.Extend nodes') (same : w'.settled = w.settled)
    (unused : ∀ n, w'.next ≤ n → nodes' n = none) : w'.Coherent rel nodes' := by
  have grows : w.Grows w' := fun n found h ↦ by rwa [same]
  refine ⟨unused, fun n found h ↦ ?_⟩
  rw [same] at h
  obtain ⟨p, hname, hp, hsound⟩ := hw.sound n found h
  exact ⟨p, hname, hp.mono extend, hsound.mono extend grows⟩

end Coherent

/-! ### Progress -/

/-- Nodes may have been added, and answers noted for new nodes and for those lighter than the bound;
nodes and answers from before are kept, and the workspace is coherent. -/
structure Progress (rel : Shared R → Shared R → Prop) (bound : Nat) (nodes : Nodes R)
    (w : Workspace R) (nodes' : Nodes R) (w' : Workspace R) : Prop where
  extend : nodes.Extend nodes'
  coherent : w'.Coherent rel nodes'
  grows : w.Grows w'
  still_open : ∀ x : Shared R, x.Known nodes → bound ≤ x.weight → w.Open x → w'.Open x

variable {bound bound' : Nat}

theorem Progress.refl (hw : w.Coherent rel nodes) : Progress rel bound nodes w nodes w :=
  ⟨.refl nodes, hw, .refl w, fun _ _ _ h ↦ h⟩

theorem Progress.trans (h : Progress rel bound nodes w nodes' w')
    (h' : Progress rel bound nodes' w' nodes'' w'') : Progress rel bound nodes w nodes'' w'' where
  extend := h.extend.trans h'.extend
  coherent := h'.coherent
  grows := h.grows.trans h'.grows
  still_open x hx hbound hopen :=
    h'.still_open x (hx.mono h.extend) hbound (h.still_open x hx hbound hopen)

theorem Progress.mono (h : Progress rel bound nodes w nodes' w') (le : bound ≤ bound') :
    Progress rel bound' nodes w nodes' w' :=
  ⟨h.extend, h.coherent, h.grows, fun x hx hbound ↦ h.still_open x hx (Nat.le_trans le hbound)⟩

/-- Adding nodes settles none. -/
theorem Progress.of_settled_eq (hw : w.Coherent rel nodes) (extend : nodes.Extend nodes')
    (same : w'.settled = w.settled) (unused : ∀ n, w'.next ≤ n → nodes' n = none) :
    Progress rel bound nodes w nodes' w' where
  extend := extend
  coherent := hw.of_settled_eq extend same unused
  grows n found h := by rwa [same]
  still_open x _ _ h := by rwa [Open, same]

omit [ColorModel R] in
/-- Settling a node changes what is settled under its name. -/
theorem getElem?_settle (found : Settled R) (n : Nat) :
    (Build.settle p found w).2.settled[n]? =
      if p.name == n then some found else w.settled[n]? := Std.HashMap.getElem?_insert

omit [ColorModel R] in
theorem getElem?_settle_self (found : Settled R) :
    (Build.settle p found w).2.settled[p.name]? = some found := by
  rw [getElem?_settle, if_pos (beq_self_eq_true p.name)]

omit [ColorModel R] in
/-- Settling an open node forgets nothing. -/
theorem grows_settle (found : Settled R) (hopen : w.Open p) :
    w.Grows (Build.settle p found w).2 := by
  intro n noted h
  rw [getElem?_settle, if_neg, h]
  intro hname
  rw [← eq_of_beq hname, show w.settled[p.name]? = none from hopen] at h
  cases h

/-- An answer that can be trusted, for a node that has none. -/
theorem progress_settle (hw : w.Coherent rel nodes) {found : Settled R} (hp : p.Known nodes)
    (hopen : w.Open p) (hfound : (Build.settle p found w).2.Sound rel nodes p found) :
    Progress rel (p.weight + 1) nodes w nodes (Build.settle p found w).2 := by
  have grows := grows_settle found hopen
  refine ⟨.refl nodes, ⟨hw.unused, fun n noted h ↦ ?_⟩, grows, fun x hx hbound h ↦ ?_⟩
  · rw [getElem?_settle] at h
    split at h
    · rename_i hname
      cases h
      exact ⟨p, eq_of_beq hname, hp, hfound⟩
    · obtain ⟨q, hname, hq, hsound⟩ := hw.sound n noted h
      exact ⟨q, hname, hq, hsound.mono (.refl nodes) grows⟩
  · rw [Open, getElem?_settle, if_neg, h]
    intro hname
    rw [hp.eq_of_name_eq hx (eq_of_beq hname)] at hbound
    omega

end Workspace

end Shading
