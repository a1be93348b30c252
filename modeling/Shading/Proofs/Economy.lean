import Shading.Proofs.Device.Compiled
import Shading.Proofs.Program.Demand
import Shading.Proofs.WellFormed

/-!
# Simplification asks for no more

A program of a session and its simplification: the simplification fits into the same stacks, has no
more nodes, needs nothing from its context that the program does not need, and is compiled wherever
the program is (`simplified_economical`).

No number is looked at. What takes the place of a node is a part of it, or else a constant, a stack
of some of its layers, or a factor in place of two; so a condition on kinds that holds of constants
and does not depend on factors is never lost (`Kind.Lasting`). Whether the program can be written at
all is such a condition, and so is that it has no need of its context.
-/

namespace Shading

variable {ι R : Type} [ColorModel R]

open Program

/-! ### Conditions on kinds -/

/-- The condition holds of the constants that the simplifier makes, and does not depend on
factors. -/
structure Kind.Lasting (fits : Kind R → Prop) : Prop where
  color (c : Vec4 R) : c = .zero ∨ c.isFinite = true → fits (.color c)
  alpha (a b : R) : fits (.alpha a) → fits (.alpha b)

variable {same : Program ι R → Program ι R → Bool} {p : Program ι R} {r : Replacement ι R}
  {cs ds : List (Program ι R)} {fits : Kind R → Prop}

/-- What lasts in a reduction and holds of all kinds of a program holds of all kinds of what it is
reduced to. -/
theorem everywhere_of_reduce? (lasting : Kind.Lasting fits) (h : reduce? same p = some r) (m : ι)
    (everywhere : p.Everywhere fits) : (r.program m).Everywhere fits := by
  have hparts := everywhere_iff_forall_part.1 everywhere
  have hchild : ∀ q : Program ι R, (∃ c ∈ p.children, q.Part c) → fits q.kind := by
    rintro q ⟨c, hc, part⟩
    obtain ⟨n, k, cs⟩ := p
    exact hparts q (.child hc part)
  refine everywhere_iff_forall_part.2 fun q part ↦ ?_
  rcases part_of_reduce? h part with rfl | hq
  · cases r with
    | existing q => exact hchild q (parts_of_reduce? h)
    | fresh k ds =>
      have hown := hparts p (.refl p)
      rcases fresh_of_reduce? h with ⟨color, rfl, -, hcolor⟩ | ⟨rfl, hkind, -⟩ |
        ⟨outer, inner, l, rfl, hkind, -⟩
      · exact lasting.color color hcolor
      · exact hkind ▸ hown
      · exact lasting.alpha outer _ (hkind ▸ hown)
  · exact hchild q hq

/-- A need of a program is one of the kinds in it. -/
theorem need_eq_false_iff {need : Flags → Bool} {own : Kind R → Bool}
    (h : ∀ k fs, need (Kind.flags k fs) = (own k || fs.any need)) :
    need p.flags = false ↔ p.Everywhere fun k ↦ own k = false := by
  induction p using Program.induct with
  | node n k cs ih =>
    rw [flags_node, h, Bool.or_eq_false_iff, List.any_map, List.any_eq_false]
    refine ⟨fun ⟨hk, hcs⟩ ↦ .node hk fun c hc ↦ (ih c hc).1 (Bool.eq_false_iff.2 (hcs c hc)),
      fun ⟨hk, hcs⟩ ↦ ⟨hk, fun c hc ↦ Bool.eq_false_iff.1 ((ih c hc).2 (hcs c hc))⟩⟩

/-! ### Resources and sizes -/

/-- A stack is reduced to some of its layers, in their order. -/
theorem sublist_of_simplifyStack? (h : simplifyStack? cs = some (.fresh .stack ds)) :
    ds.Sublist (flattenLayers cs) := by
  have hsub := (visibleLayers_sublist ((flattenLayers cs).filter (!·.isTransparent))).trans
    List.filter_sublist
  rw [simplifyStack?] at h
  generalize visibleLayers ((flattenLayers cs).filter (!·.isTransparent)) = layers at *
  rcases layers with - | ⟨first, - | ⟨second, layers⟩⟩
  · cases h
  · cases h
  · dsimp only at h
    split at h
    · cases h
      exact hsub
    · cases h

/-- What takes the place of a node is less demanding. -/
theorem resources_le_of_reduce? (formed : p.Formed) (h : reduce? same p = some r) (m : ι) :
    (r.program m).resources.Le p.resources := by
  have hparts := parts_of_reduce? h
  have hvalue := value_le_resources formed
  obtain ⟨n, k, cs⟩ := p
  cases r with
  | existing q =>
    obtain ⟨c, hc, part⟩ := hparts
    exact Part.resources_le (.child hc part) formed
  | fresh k ds =>
    rcases fresh_of_reduce? h with ⟨color, rfl, rfl, -⟩ | ⟨rfl, rfl, hstack⟩ |
      ⟨outer, inner, l, rfl, rfl, rfl, -⟩
    · exact hvalue
    · exact resources_stack_le_of_sublist formed (sublist_of_simplifyStack? hstack)
    -- Factors demand what is demanded for the factored program.
    · show (node m (.alpha (outer * inner)) ds).resources.Le _
      have hinner : (node m (.alpha (outer * inner)) ds).resources =
          (node l (.alpha inner) ds).resources := by
        rw [resources_node, resources_node]
        rfl
      rw [hinner]
      exact resources_le_of_mem formed List.mem_cons_self

omit [ColorModel R] in
/-- A node counts one more than its children. -/
theorem nodeCount_node {n : ι} {k : Kind R} :
    (node n k cs).nodeCount = 1 + sizes (fun _ ↦ 1) cs :=
  fold_node ..

/-- What takes the place of a node has no more nodes. -/
theorem nodeCount_le_of_reduce? (h : reduce? same p = some r) (m : ι) :
    (r.program m).nodeCount ≤ p.nodeCount := by
  have hparts := parts_of_reduce? h
  obtain ⟨n, k, cs⟩ := p
  cases r with
  | existing q =>
    obtain ⟨c, hc, part⟩ := hparts
    exact Part.size_le (fun _ ↦ 1) (.child hc part)
  | fresh k ds =>
    show (node m k ds).nodeCount ≤ _
    rw [nodeCount_node, nodeCount_node]
    rcases fresh_of_reduce? h with ⟨color, rfl, rfl, -⟩ | ⟨rfl, rfl, hstack⟩ |
      ⟨outer, inner, l, rfl, rfl, rfl, -⟩
    · exact Nat.le_add_right ..
    · have hflat := sizes_flattenLayers (fun _ ↦ 1) cs
      have hsub := sizes_add_length_le (fun _ ↦ Nat.one_pos) (sublist_of_simplifyStack? hstack)
      dsimp only [children] at hsub
      omega
    · rw [sizes_cons, size_node]
      omega

/-! ### Simplification -/

/-- The second program asks for no more than the first one. -/
structure Modest (p q : Program ι R) : Prop where
  formed : q.Formed
  resources : q.resources.Le p.resources
  nodeCount : q.nodeCount ≤ p.nodeCount
  everywhere {fits : Kind R → Prop} :
    Kind.Lasting fits → p.Everywhere fits → q.Everywhere fits

/-- A node over children that became no larger is no larger. -/
theorem modest_node {n m : ι} {k : Kind R} (formed : (node n k cs).Formed)
    (h : List.Forall₂ Modest cs ds) : Modest (node n k cs) (node m k ds) := by
  obtain ⟨haccepts, -⟩ := formed
  constructor
  · exact .node (h.length_eq ▸ haccepts) (forall_mem_of_forall₂ h fun _ _ hd ↦ hd.formed)
  · rw [resources_node, resources_node]
    refine Kind.resources_mono (by rwa [List.length_map]) ?_
    rw [List.forall₂_map_left_iff, List.forall₂_map_right_iff]
    exact h.flip.imp fun _ _ hd ↦ hd.resources
  · rw [nodeCount_node, nodeCount_node]
    exact Nat.add_le_add_left (sizes_le_of_forall₂ _ (h.imp fun _ _ hd ↦ hd.nodeCount)) 1
  · rintro fits lasting ⟨hk, hcs⟩
    have hall := (List.forall₂_and_left _ _).2 ⟨hcs, h⟩
    exact .node hk (forall_mem_of_forall₂ hall fun _ _ hd ↦ hd.2.everywhere lasting hd.1)

/-- No step of the simplifier asks for more. -/
theorem simplifying_modest : Simplifying fun p q : Shared R ↦ p.Formed → Modest p q where
  refl p formed := ⟨formed, .refl p.resources, Nat.le_refl _, fun _ h ↦ h⟩
  trans hpq hqr formed := by
    have hq := hpq formed
    have hr := hqr hq.formed
    exact ⟨hr.formed, hr.resources.trans hq.resources, Nat.le_trans hr.nodeCount hq.nodeCount,
      fun lasting h ↦ hr.everywhere lasting (hq.everywhere lasting h)⟩
  node h formed := by
    have hall := (List.forall₂_and_left _ _).2 ⟨fun c hc ↦ formed.of_mem hc, h⟩
    exact modest_node formed (hall.imp fun _ _ hd ↦ hd.2 hd.1)
  reduce _ h formed :=
    ⟨formed_of_reduce? formed h, resources_le_of_reduce? formed h _, nodeCount_le_of_reduce? h _,
      fun lasting ↦ everywhere_of_reduce? lasting h _⟩

/-- What a modest simplification needs was needed before. -/
theorem Modest.need {q : Program ι R} (h : Modest p q) (need : Flags → Bool) {own : Kind R → Bool}
    (hneed : ∀ k fs, need (Kind.flags k fs) = (own k || fs.any need))
    (lasting : Kind.Lasting fun k : Kind R ↦ own k = false) (hq : need q.flags = true) :
    need p.flags = true := by
  by_contra hp
  have hall := (need_eq_false_iff hneed).1 (Bool.eq_false_iff.2 hp)
  exact Bool.eq_false_iff.1 ((need_eq_false_iff hneed).2 (h.everywhere lasting hall)) hq

variable [Rounding R Single]

/-- A program is written under limits exactly if it fits them and each of its nodes can be
written. -/
theorem exists_writtenWithin_iff {p : Shared R} (formed : p.Formed) {limits : Limits} :
    (∃ lines, p.writtenWithin limits = .ok lines) ↔
      (p.resources.stackDepth ≤ limits.stackDepth ∧
        p.resources.returnDepth ≤ limits.returnDepth) ∧ p.Everywhere Kind.Writable := by
  rw [← Resources.check_eq_ok_iff, ← exists_instructions_iff formed, writtenWithin]
  cases p.resources.check limits with
  | error cause => exact ⟨nofun, nofun⟩
  | ok => cases p.instructions <;> simp [Except.mapError]

omit [Rounding R Single] in
/-- A program that can be written keeps being so, if zero is a finite number. -/
theorem lasting_writable (finite : (Vec4.zero : Vec4 R).isFinite = true) :
    Kind.Lasting (R := R) Kind.Writable where
  color c h := by
    rcases h with rfl | h
    · exact finite
    · exact h
  alpha _ _ _ := trivial

/-- The simplification of a program of a session asks for no more than the program: of the stacks,
in nodes, and of the context. So it is compiled under any limits that the program is compiled under
as it is; for this, zero has to count as finite, as it takes the place of what is transparent. -/
theorem simplified_economical {w : Workspace R} {ps : List (Shared R)} (session : Session w ps)
    {p : Shared R} (mem : p ∈ ps) (formed : p.Formed) :
    let q := (Build.simplified p w).1
    (q.resources.stackDepth ≤ p.resources.stackDepth ∧
        q.resources.returnDepth ≤ p.resources.returnDepth) ∧
      q.nodeCount ≤ p.nodeCount ∧
      (q.flags.needsFace = true → p.flags.needsFace = true) ∧
      (q.flags.needsArea = true → p.flags.needsArea = true) ∧
      (q.flags.needsCentroid = true → p.flags.needsCentroid = true) ∧
      ((Vec4.zero : Vec4 R).isFinite = true → ∀ limits : Limits,
        (∃ lines, (compile ⟨false, limits⟩ p w).1 = .ok lines) →
          ∃ lines, (compile ⟨true, limits⟩ p w).1 = .ok lines) := by
  obtain ⟨nodes, hw, known⟩ := session.allKnown simplifying_modest
  obtain ⟨_, -, -, -, hmodest⟩ := Build.yields_simplified simplifying_modest (known p mem) w hw
  have modest := hmodest formed
  have hface : Kind.Lasting fun k : Kind R ↦
      (k.isPathBoolean || k.accuracy?.any Accuracy.needsFace) = false :=
    ⟨fun _ _ ↦ rfl, fun _ _ _ ↦ rfl⟩
  have hcentroid : Kind.Lasting fun k : Kind R ↦ k.accuracy?.any Accuracy.readsCentroid = false :=
    ⟨fun _ _ ↦ rfl, fun _ _ _ ↦ rfl⟩
  refine ⟨modest.resources, modest.nodeCount, ?_, ?_, ?_, fun finite limits h ↦ ?_⟩
  · exact modest.need Flags.needsFace (fun k fs ↦ by cases k <;> rfl) hface
  · exact modest.need Flags.needsArea (fun _ _ ↦ rfl) hcentroid
  · exact modest.need Flags.needsCentroid (fun _ _ ↦ rfl) hcentroid
  · rw [compile_eq] at h ⊢
    obtain ⟨⟨hstack, hreturns⟩, hwritable⟩ := (exists_writtenWithin_iff formed).1 h
    refine (exists_writtenWithin_iff modest.formed).2 ⟨⟨?_, ?_⟩, ?_⟩
    · exact Nat.le_trans modest.resources.1 hstack
    · exact Nat.le_trans modest.resources.2 hreturns
    · exact modest.everywhere (lasting_writable finite) hwritable

/-! ### A blend within two stacks -/

def blackInk : Shared Float := .node 0 (.color ⟨0, 0, 0, 1⟩) []

def noInk : Shared Float := .node 1 (.color .zero) []

def inkBlend : Shared Float := .node 2 (.linearBlend ⟨⟨1, 0⟩, 0⟩ .splitCentroid) [noInk, blackInk]

def inkLayers : Shared Float := .node 3 .stack [noInk, inkBlend]

def inkStack : Shared Float := .node 4 .stack [blackInk, inkLayers]

theorem session_inkStack : Session ⟨5, {}⟩ [inkStack, inkLayers, inkBlend, noInk, blackInk] := by
  have hblack : Session ⟨1, {}⟩ [blackInk] := .node (.color ⟨0, 0, 0, 1⟩) .start nofun
  have hnone : Session ⟨2, {}⟩ [noInk, blackInk] := .node (.color .zero) hblack nofun
  have hblend : Session ⟨3, {}⟩ [inkBlend, noInk, blackInk] :=
    .node (.linearBlend ⟨⟨1, 0⟩, 0⟩ .splitCentroid) hnone (by simp)
  have hlayers : Session ⟨4, {}⟩ [inkLayers, inkBlend, noInk, blackInk] :=
    .node .stack hblend (by simp)
  exact .node .stack hlayers (by simp)

theorem formed_inkStack : inkStack.Formed := by
  have hblack : blackInk.Formed := .node rfl nofun
  have hnone : noInk.Formed := .node rfl nofun
  have hblend : inkBlend.Formed := .node rfl (by simp [hblack, hnone])
  have hlayers : inkLayers.Formed := .node trivial (by simp [hnone, hblend])
  exact .node trivial (by simp [hblack, hlayers])

/-- Two stacks, with a layer that cannot be seen, become no larger in any respect. -/
theorem simplified_inkStack_economical :
    Session ⟨5, {}⟩ [inkStack, inkLayers, inkBlend, noInk, blackInk] ∧ inkStack.Formed ∧
    let q := (Build.simplified inkStack ⟨5, {}⟩).1
    (q.resources.stackDepth ≤ inkStack.resources.stackDepth ∧
        q.resources.returnDepth ≤ inkStack.resources.returnDepth) ∧
      q.nodeCount ≤ inkStack.nodeCount ∧
      (q.flags.needsFace = true → inkStack.flags.needsFace = true) ∧
      (q.flags.needsArea = true → inkStack.flags.needsArea = true) ∧
      (q.flags.needsCentroid = true → inkStack.flags.needsCentroid = true) ∧
      ∀ limits : Limits, (∃ lines, (compile ⟨false, limits⟩ inkStack ⟨5, {}⟩).1 = .ok lines) →
        ∃ lines, (compile ⟨true, limits⟩ inkStack ⟨5, {}⟩).1 = .ok lines := by
  obtain ⟨hresources, hcount, hface, harea, hcentroid, hcompiled⟩ :=
    simplified_economical session_inkStack List.mem_cons_self formed_inkStack
  exact ⟨session_inkStack, formed_inkStack, hresources, hcount, hface, harea, hcentroid,
    hcompiled rfl⟩

end Shading
