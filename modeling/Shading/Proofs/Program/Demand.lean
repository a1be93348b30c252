import Mathlib.Data.List.Forall2
import Shading.Program.Resources
import Shading.Proofs.Program.Parts
import Shading.Proofs.Program.Shape

/-!
# What a program demands

The resources of a node are the least that leave room for each of its children, on top of the values
and return addresses that lie below it while it runs (`Kind.resources_le_iff`). What lies below a
child depends on its position alone, so a node demands no less than any of its children, and
replacing children by less demanding ones makes it less demanding.

The layers of a stack all run on top of one value but for the first one to run, which is at the top.
So fewer layers demand less, and a stack that is a layer may be dissolved
(`resources_stack_le_of_sublist`).
-/

namespace Shading

/-! ### Comparing resources -/

namespace Resources

/-- The resources suffice wherever the others do. -/
def Le (r s : Resources) : Prop := r.stackDepth ≤ s.stackDepth ∧ r.returnDepth ≤ s.returnDepth

variable {r s t : Resources} {rs : List Resources}

theorem Le.refl (r : Resources) : r.Le r := ⟨Nat.le_refl _, Nat.le_refl _⟩

theorem Le.trans (h : r.Le s) (h' : s.Le t) : r.Le t :=
  ⟨Nat.le_trans h.1 h'.1, Nat.le_trans h.2 h'.2⟩

/-- More values and returns below change no comparison. -/
theorem Le.above (h : r.Le s) (values returns : Nat) :
    (r.above values returns).Le (s.above values returns) :=
  ⟨Nat.add_le_add_right h.1 _, Nat.add_le_add_right h.2 _⟩

/-- On top of others, at least as much is needed. -/
theorem le_above (r : Resources) (values returns : Nat) : r.Le (r.above values returns) :=
  ⟨Nat.le_add_right .., Nat.le_add_right ..⟩

theorem le_max_left (r s : Resources) : r.Le (r.max s) :=
  ⟨Nat.le_max_left .., Nat.le_max_left ..⟩

theorem le_max_right (r s : Resources) : s.Le (r.max s) :=
  ⟨Nat.le_max_right .., Nat.le_max_right ..⟩

/-- A maximum is bounded by what bounds both. -/
theorem max_le_iff : (r.max s).Le t ↔ r.Le t ∧ s.Le t :=
  ⟨fun h ↦ ⟨(le_max_left r s).trans h, (le_max_right r s).trans h⟩,
    fun ⟨h, h'⟩ ↦ ⟨Nat.max_le.2 ⟨h.1, h'.1⟩, Nat.max_le.2 ⟨h.2, h'.2⟩⟩⟩

/-- A maximum over a list is bounded by what bounds all. -/
theorem foldl_max_le_iff {α : Type} (f : α → Resources) (xs : List α) (r : Resources) :
    (xs.foldl (fun s x ↦ s.max (f x)) r).Le t ↔ r.Le t ∧ ∀ x ∈ xs, (f x).Le t := by
  induction xs generalizing r with
  | nil => simp
  | cons y xs ih => rw [List.foldl_cons, ih, max_le_iff, List.forall_mem_cons, and_assoc]

/-- A maximum over a list bounds all. -/
theorem le_foldl_max {α : Type} (f : α → Resources) (xs : List α) (r : Resources) :
    r.Le (xs.foldl (fun s x ↦ s.max (f x)) r) ∧
      ∀ x ∈ xs, (f x).Le (xs.foldl (fun s x ↦ s.max (f x)) r) :=
  (foldl_max_le_iff f xs r).1 (.refl _)

/-- The greatest need is bounded by what bounds all needs. -/
theorem greatest_le_iff : (greatest rs).Le t ↔ ∀ r ∈ rs, r.Le t := by
  rw [greatest, foldl_max_le_iff (fun s ↦ s)]
  exact and_iff_right ⟨Nat.zero_le _, Nat.zero_le _⟩

/-- The greatest need bounds all needs. -/
theorem le_greatest (h : r ∈ rs) : r.Le (greatest rs) :=
  greatest_le_iff.1 (.refl _) r h

/-- Each with as many values below it as there are others before it. -/
theorem sequential_le_iff :
    (sequential rs).Le t ↔ ∀ (i : Nat) (r : Resources), rs[i]? = some r → (r.above i 0).Le t := by
  rw [sequential, greatest_le_iff, List.forall_mem_map]
  exact ⟨fun h i r hr ↦ h (r, i) (List.mem_zipIdx_iff_getElem?.2 hr),
    fun h x hx ↦ h x.2 x.1 (List.mem_zipIdx_iff_getElem?.1 hx)⟩

/-- The resource with an index, on top of the values before it. -/
theorem le_sequential {i : Nat} (h : rs[i]? = some r) : (r.above i 0).Le (sequential rs) :=
  sequential_le_iff.1 (.refl _) i r h

/-- Resources pass the check exactly if both stacks have room. -/
theorem check_eq_ok_iff {limits : Limits} : r.check limits = .ok () ↔
    r.stackDepth ≤ limits.stackDepth ∧ r.returnDepth ≤ limits.returnDepth := by
  rw [check]
  split
  · exact ⟨nofun, fun h ↦ by omega⟩
  · split
    · exact ⟨nofun, fun h ↦ by omega⟩
    · exact iff_of_true rfl ⟨by omega, by omega⟩

end Resources

/-! ### Lists by index -/

section

variable {α : Type} {xs : List α}

theorem forall_getElem?_cons {fits : Nat → α → Prop} {x : α} :
    (∀ (i : Nat) (y : α), (x :: xs)[i]? = some y → fits i y) ↔
      fits 0 x ∧ ∀ (i : Nat) (y : α), xs[i]? = some y → fits (i + 1) y := by
  refine ⟨fun h ↦ ⟨h 0 x rfl, fun i y hy ↦ h (i + 1) y hy⟩, fun ⟨hx, h⟩ i y hy ↦ ?_⟩
  cases i with
  | zero =>
    cases hy
    exact hx
  | succ i => exact h i y hy

theorem forall_getElem?_nil {fits : Nat → α → Prop} :
    ∀ (i : Nat) (y : α), ([] : List α)[i]? = some y → fits i y :=
  nofun

theorem forall_getElem?_iff_forall_mem {fits : α → Prop} :
    (∀ (i : Nat) (y : α), xs[i]? = some y → fits y) ↔ ∀ y ∈ xs, fits y := by
  refine ⟨fun h y hy ↦ ?_, fun h i y hy ↦ h y (List.mem_of_getElem? hy)⟩
  obtain ⟨i, hi⟩ := List.mem_iff_getElem?.1 hy
  exact h i y hi

/-- All elements but the last are those with an index behind which there is another one. -/
theorem mem_dropLast_iff {y : α} :
    y ∈ xs.dropLast ↔ ∃ i : Nat, i + 1 < xs.length ∧ xs[i]? = some y := by
  rw [List.mem_iff_getElem?]
  refine exists_congr fun i ↦ ?_
  rw [List.getElem?_dropLast]
  split
  · exact (and_iff_right (by omega)).symm
  · exact ⟨nofun, fun h ↦ by omega⟩

end

/-! ### Nodes -/

open Resources

variable {ι R : Type} {t : Resources} {rs : List Resources}

/-- The layers below the top of a stack run on top of one value. -/
theorem resources_stack_le_iff : ((Kind.stack : Kind R).resources rs).Le t ↔
    (rs = [] → value.Le t) ∧ (∀ r ∈ rs, r.Le t) ∧ ∀ r ∈ rs.dropLast, (r.above 1 0).Le t := by
  rw [Kind.resources]
  rcases h : rs.reverse with - | ⟨top, below⟩
  · obtain rfl := List.reverse_eq_nil_iff.1 h
    simp
  · obtain rfl : rs = below.reverse ++ [top] := by
      rw [← List.reverse_reverse rs, h, List.reverse_cons]
    have hbelow : ∀ r ∈ below.reverse, (r.above 1 0).Le t → r.Le t :=
      fun r _ hr ↦ (le_above r 1 0).trans hr
    rw [foldl_max_le_iff, List.dropLast_concat, List.forall_mem_append, List.forall_mem_singleton]
    refine ⟨fun ⟨htop, hall⟩ ↦ ⟨by simp, ⟨fun r hr ↦ hbelow r hr (hall r hr), htop⟩, hall⟩,
      fun ⟨_, ⟨_, htop⟩, hall⟩ ↦ ⟨htop, hall⟩⟩

namespace Kind

/-- The values and the return addresses below a child while it runs, by its index among a number of
children. -/
def below (count i : Nat) : Kind R → Nat × Nat
  | .phong _ | .blendCompose .. | .barycentricBlend .. => (i, 0)
  | .linearBlend .. | .radialBlend .. => if i = 0 then (1, 2) else (2, 1)
  | .linearGradient .. | .radialGradient .. => (2, 2)
  | .stack => (if i + 1 < count then 1 else 0, 0)
  | _ => (0, 0)

/-- The resources of a node are the least that suffice for each of its children where it runs, and
for a value if there are no children. -/
theorem resources_le_iff {kind : Kind R} (accepts : kind.Accepts rs.length) :
    (kind.resources rs).Le t ↔ (rs = [] → value.Le t) ∧
      ∀ (i : Nat) (r : Resources), rs[i]? = some r →
        (r.above (kind.below rs.length i).1 (kind.below rs.length i).2).Le t := by
  cases kind with
  | color c =>
    obtain rfl := List.length_eq_zero_iff.1 accepts
    exact ⟨fun h ↦ ⟨fun _ ↦ h, forall_getElem?_nil⟩, fun h ↦ h.1 rfl⟩
  | premultiply | unpremultiply | convert | alpha | normalize | filter =>
    obtain ⟨r, rfl⟩ := List.length_eq_one_iff.1 accepts
    rw [forall_getElem?_cons]
    exact ⟨fun h ↦ ⟨nofun, h, forall_getElem?_nil⟩, fun h ↦ h.2.1⟩
  | linearBlend | radialBlend | pathBoolean =>
    obtain ⟨r, s, rfl⟩ := List.length_eq_two.1 accepts
    rw [forall_getElem?_cons, forall_getElem?_cons]
    exact max_le_iff.trans
      ⟨fun h ↦ ⟨nofun, h.1, h.2, forall_getElem?_nil⟩, fun h ↦ ⟨h.2.1, h.2.2.1⟩⟩
  | linearGradient | radialGradient =>
    have hne : rs ≠ [] := List.ne_nil_of_length_pos accepts.2.1
    refine greatest_le_iff.trans ?_
    rw [List.forall_mem_map, ← forall_getElem?_iff_forall_mem]
    exact ⟨fun h ↦ ⟨fun hnil ↦ absurd hnil hne, h⟩, fun h ↦ h.2⟩
  | phong | blendCompose | barycentricBlend =>
    have hne : rs ≠ [] := by
      rintro rfl
      simp [Accepts] at accepts
    exact sequential_le_iff.trans ⟨fun h ↦ ⟨fun hnil ↦ absurd hnil hne, h⟩, fun h ↦ h.2⟩
  | stack =>
    refine resources_stack_le_iff.trans (and_congr_right fun _ ↦ ?_)
    refine ⟨?_, fun h ↦ ⟨fun r hr ↦ ?_, fun r hr ↦ ?_⟩⟩
    · rintro ⟨hall, hlayers⟩ i r hr
      by_cases hlast : i + 1 < rs.length
      · rw [below, if_pos hlast]
        exact hlayers r (mem_dropLast_iff.2 ⟨i, hlast, hr⟩)
      · rw [below, if_neg hlast]
        exact hall r (List.mem_of_getElem? hr)
    · obtain ⟨i, hi⟩ := List.mem_iff_getElem?.1 hr
      exact (le_above ..).trans (h i r hi)
    · obtain ⟨i, hlast, hi⟩ := mem_dropLast_iff.1 hr
      have hle := h i r hi
      rwa [below, if_pos hlast] at hle

/-- A node over less demanding children is less demanding. -/
theorem resources_mono {kind : Kind R} {ss : List Resources} (accepts : kind.Accepts ss.length)
    (h : List.Forall₂ Le rs ss) : (kind.resources rs).Le (kind.resources ss) := by
  have hlength := h.length_eq
  obtain ⟨hvalue, hall⟩ := (resources_le_iff accepts).1 (.refl _)
  refine (resources_le_iff (hlength ▸ accepts)).2 ⟨fun hnil ↦ hvalue ?_, fun i r hr ↦ ?_⟩
  · subst hnil
    exact List.eq_nil_of_length_eq_zero hlength.symm
  · obtain ⟨hi, rfl⟩ := List.getElem?_eq_some_iff.1 hr
    have hle := h.get hi (hlength ▸ hi)
    rw [hlength]
    exact (hle.above _ _).trans (hall i _ (List.getElem?_eq_getElem _))

end Kind

/-! ### Programs -/

namespace Program

variable {n m : ι} {k : Kind R} {cs ds : List (Program ι R)} {p q : Program ι R}

/-- The needs of a node are those of its kind over the needs of its children. -/
theorem resources_node : (node n k cs).resources = k.resources (cs.map resources) :=
  fold_node ..

/-- What a formed node demands for each of its children. -/
theorem resources_le_of_mem (formed : (node n k cs).Formed) {c : Program ι R} (hc : c ∈ cs) :
    c.resources.Le (node n k cs).resources := by
  obtain ⟨haccepts, -⟩ := formed
  rw [← List.length_map resources] at haccepts
  obtain ⟨i, hi⟩ := List.mem_iff_getElem?.1 (List.mem_map_of_mem (f := resources) hc)
  rw [resources_node]
  exact (le_above ..).trans (((Kind.resources_le_iff haccepts).1 (.refl _)).2 i _ hi)

/-- No part of a program needs more than the program. -/
theorem Part.resources_le (h : q.Part p) (formed : p.Formed) : q.resources.Le p.resources := by
  induction h with
  | refl => exact .refl _
  | child hc _ ih =>
    have hle := resources_le_of_mem formed hc
    obtain ⟨-, hformed⟩ := formed
    exact (ih (hformed _ hc)).trans hle

/-- Every formed program demands room for its value. -/
theorem value_le_resources (formed : p.Formed) : value.Le p.resources := by
  induction p using Program.induct with
  | node n k cs ih =>
    have hchild : ∀ c ∈ cs, c.resources.Le (node n k cs).resources :=
      fun c hc ↦ resources_le_of_mem formed hc
    obtain ⟨haccepts, hformed⟩ := formed
    cases cs with
    | nil =>
      have hnone : k.Accepts ([] : List Resources).length := haccepts
      exact ((Kind.resources_le_iff hnone).1 (.refl _)).1 rfl
    | cons c cs => exact (ih c (by simp) (hformed c (by simp))).trans (hchild c (by simp))

/-! ### Layers -/

/-- There is room for the programs as layers of a stack. -/
def Layered (t : Resources) (cs : List (Program ι R)) : Prop :=
  (∀ c ∈ cs, c.resources.Le t) ∧ ∀ c ∈ cs.dropLast, (c.resources.above 1 0).Le t

/-- A stack has room exactly if its layers have, or if there are none, a value has. -/
theorem resources_stack_le_iff :
    (node n .stack cs).resources.Le t ↔ (cs = [] → value.Le t) ∧ Layered t cs := by
  rw [resources_node, Shading.resources_stack_le_iff, ← List.map_dropLast, List.forall_mem_map,
    List.forall_mem_map, List.map_eq_nil_iff, Layered]

/-- Fewer layers need no more. -/
theorem Layered.of_sublist (h : Layered t cs) (sub : ds.Sublist cs) : Layered t ds := by
  have hlast : ds.dropLast.Sublist cs.dropLast := by
    simpa [← List.dropLast_reverse] using sub.reverse.tail.reverse
  exact ⟨fun c hc ↦ h.1 c (sub.subset hc), fun c hc ↦ h.2 c (hlast.subset hc)⟩

/-- Layers on top of others. Those are below the top then. -/
theorem Layered.append (hcs : Layered t cs) (hds : Layered t ds)
    (hbelow : ds ≠ [] → ∀ c ∈ cs, (c.resources.above 1 0).Le t) : Layered t (cs ++ ds) := by
  refine ⟨List.forall_mem_append.2 ⟨hcs.1, hds.1⟩, ?_⟩
  rcases eq_or_ne ds [] with rfl | hne
  · rw [List.append_nil]
    exact hcs.2
  · rw [List.dropLast_append_of_ne_nil hne]
    exact List.forall_mem_append.2 ⟨hbelow hne, hds.2⟩

theorem Layered.singleton {c : Program ι R} (h : c.resources.Le t) : Layered t [c] :=
  ⟨List.forall_mem_singleton.2 h, List.forall_mem_nil _⟩

/-- Room for layers is room for the layers of the stacks among them. -/
theorem Layered.flattenLayers (h : Layered t cs) : Layered t (flattenLayers cs) := by
  induction cs with
  | nil => exact h
  | cons c cs ih =>
    have hrest := ih (h.of_sublist (List.sublist_cons_self c cs))
    have hc : c.resources.Le t := h.1 c List.mem_cons_self
    have hbelow : Shading.flattenLayers cs ≠ [] → (c.resources.above 1 0).Le t := by
      intro hne
      refine h.2 c ?_
      cases cs with
      | nil => exact absurd rfl hne
      | cons d cs => exact List.mem_cons_self
    cases hkind : c.kind.isStack with
    | true =>
      have hlayers {u : Resources} (hle : c.resources.Le u) : Layered u c.children :=
        (resources_stack_le_iff.1 (kind_eq_stack hkind ▸ hle)).2
      rw [flattenLayers_stack hkind]
      refine (hlayers hc).append hrest fun hne d hd ↦ ?_
      exact (((hlayers (.refl _)).1 d hd).above 1 0).trans (hbelow hne)
    | false =>
      rw [flattenLayers_layer hkind]
      exact (Layered.singleton hc).append hrest fun hne ↦ List.forall_mem_singleton.2 (hbelow hne)

/-- A stack of some of the layers, with nested stacks dissolved, is less demanding. -/
theorem resources_stack_le_of_sublist (formed : (node n .stack cs).Formed)
    (sub : ds.Sublist (flattenLayers cs)) :
    (node m .stack ds).resources.Le (node n .stack cs).resources := by
  have hlayered := (resources_stack_le_iff.1 (Le.refl (node n .stack cs).resources)).2
  exact resources_stack_le_iff.2
    ⟨fun _ ↦ value_le_resources formed, hlayered.flattenLayers.of_sublist sub⟩

end Program

end Shading
