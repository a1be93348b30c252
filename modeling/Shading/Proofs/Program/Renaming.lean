import Shading.Proofs.Program.Parts

/-!
# Reducing renamed programs

A reduction step does not look at names, except where it compares two children. If a comparison of
renamed children agrees with that of the children themselves, reducing the renamed node gives the
renamed replacement (`reduce?_rename`).
-/

namespace Shading

variable {ι κ R : Type} (f : ι → κ)

namespace Program

theorem renameEach_eq_map (cs : List (Program ι R)) : renameEach f cs = cs.map (rename f) := by
  induction cs with
  | nil => rfl
  | cons c cs ih => rw [renameEach, ih, List.map_cons]

/-- Renaming a node renames its children. -/
theorem rename_node (n : ι) (k : Kind R) (cs : List (Program ι R)) :
    (node n k cs).rename f = .node (f n) k (cs.map (rename f)) := by
  rw [rename, renameEach_eq_map]

@[simp] theorem kind_rename (p : Program ι R) : (p.rename f).kind = p.kind := by
  obtain ⟨n, k, cs⟩ := p
  rfl

theorem children_rename (p : Program ι R) :
    (p.rename f).children = p.children.map (rename f) := by
  obtain ⟨n, k, cs⟩ := p
  exact congrArg children (rename_node f n k cs)

@[simp] theorem color?_rename (p : Program ι R) : (p.rename f).color? = p.color? :=
  congrArg Kind.color? (kind_rename f p)

/-- Analyses do not look at names. -/
@[simp] theorem fold_rename {α : Type} (g : Kind R → List α → α) (p : Program ι R) :
    (p.rename f).fold g = p.fold g := by
  induction p using Program.induct with
  | node n k cs ih =>
    have hmap : (cs.map (rename f)).map (fold g) = cs.map (fold g) := by
      rw [List.map_map]
      exact List.map_congr_left ih
    rw [rename_node, fold_node, fold_node, hmap]

variable [Scalar R]

@[simp] theorem isTransparent_rename (p : Program ι R) :
    (p.rename f).isTransparent = p.isTransparent := congrArg Flags.transparent (fold_rename f _ p)

@[simp] theorem isOpaque_rename (p : Program ι R) : (p.rename f).isOpaque = p.isOpaque :=
  congrArg Flags.covers (fold_rename f _ p)

end Program

open Program

/-- The same replacement with other names. -/
def Replacement.rename : Replacement ι R → Replacement κ R
  | .existing p => .existing (p.rename f)
  | .fresh kind children => .fresh kind (children.map (Program.rename f))

/-- What is put in place of a node is renamed with it. -/
theorem Replacement.program_rename (r : Replacement ι R) (n : ι) :
    (r.rename f).program (f n) = (r.program n).rename f := by
  cases r with
  | existing p => rfl
  | fresh kind children => exact (rename_node f n kind children).symm

variable [ColorModel R] {cs : List (Program ι R)}

/-! ### Stacks -/

omit [ColorModel R] in
/-- Stacks are taken apart under any names. -/
theorem flattenLayers_rename (cs : List (Program ι R)) :
    flattenLayers (cs.map (rename f)) = (flattenLayers cs).map (rename f) := by
  induction cs with
  | nil => rfl
  | cons c cs ih =>
    have hkind : (c.rename f).kind.isStack = c.kind.isStack := by rw [kind_rename]
    rw [List.map_cons]
    cases h : c.kind.isStack with
    | true =>
      rw [flattenLayers_stack (hkind.trans h), flattenLayers_stack h, ih, children_rename,
        List.map_append]
    | false =>
      rw [flattenLayers_layer (hkind.trans h), flattenLayers_layer h, ih, List.map_cons]

theorem uncovered_rename (cs : List (Program ι R)) :
    uncovered (cs.map (rename f)) = (uncovered cs).map (rename f) := by
  induction cs with
  | nil => rfl
  | cons c cs ih =>
    rw [List.map_cons, uncovered, uncovered, isOpaque_rename, ih]
    split <;> rfl

theorem visibleLayers_rename (cs : List (Program ι R)) :
    visibleLayers (cs.map (rename f)) = (visibleLayers cs).map (rename f) := by
  rw [visibleLayers, visibleLayers, ← List.map_reverse, uncovered_rename, List.map_reverse]

/-- A stack is reduced alike under any names. -/
theorem simplifyStack?_rename (cs : List (Program ι R)) :
    simplifyStack? (cs.map (rename f)) = (simplifyStack? cs).map (Replacement.rename f) := by
  have hstacks : (cs.map (rename f)).any (·.kind.isStack) = cs.any (·.kind.isStack) := by
    simp [List.any_map, Function.comp_def]
  have hfilter : ((flattenLayers cs).map (rename f)).filter (!·.isTransparent) =
      ((flattenLayers cs).filter (!·.isTransparent)).map (rename f) := by
    simp [List.filter_map, Function.comp_def]
  rw [simplifyStack?, simplifyStack?, hstacks, flattenLayers_rename, hfilter, visibleLayers_rename,
    List.length_map, List.length_map]
  rcases visibleLayers ((flattenLayers cs).filter (!·.isTransparent)) with
    - | ⟨first, - | ⟨second, layers⟩⟩
  · rfl
  · rfl
  · cases cs.any (·.kind.isStack) ||
      (first :: second :: layers).length != (flattenLayers cs).length <;> rfl

/-! ### Single kinds -/

/-- The comparison agrees with that of the same programs under other names. -/
def Agree (f : ι → κ) (same : Program ι R → Program ι R → Bool)
    (same' : Program κ R → Program κ R → Bool) (cs : List (Program ι R)) : Prop :=
  ∀ a ∈ cs, ∀ b ∈ cs, same' (a.rename f) (b.rename f) = same a b

variable {f} {same : Program ι R → Program ι R → Bool} {same' : Program κ R → Program κ R → Bool}

omit [ColorModel R] in
/-- Children are alike under any names, if they are compared alike. -/
theorem allAlike_rename (h : Agree f same same' cs) :
    allAlike same' (cs.map (rename f)) = allAlike same cs := by
  induction cs with
  | nil => rfl
  | cons a cs ih =>
    rcases cs with - | ⟨b, cs⟩
    · rfl
    · have hrest : Agree f same same' (b :: cs) := fun x hx y hy ↦
        h x (List.mem_cons_of_mem _ hx) y (List.mem_cons_of_mem _ hy)
      have hpair := h a List.mem_cons_self b (List.mem_cons_of_mem _ List.mem_cons_self)
      rw [List.map_cons] at ih
      rw [List.map_cons, List.map_cons, allAlike, allAlike, ih hrest, hpair]

omit [ColorModel R] in
/-- Children collapse alike under any names, if they are compared alike. -/
theorem collapseAlike?_rename (h : Agree f same same' cs) :
    collapseAlike? same' (cs.map (rename f)) =
      (collapseAlike? same cs).map (Replacement.rename f) := by
  rcases cs with - | ⟨c, cs⟩
  · rfl
  · have halike := allAlike_rename h
    rw [List.map_cons] at halike
    rw [List.map_cons, collapseAlike?, collapseAlike?, halike]
    split <;> rfl

/-- Constants are folded alike under any names. -/
theorem foldConstant?_rename (kind : Kind R) (cs : List (Program ι R)) :
    kind.foldConstant? (cs.map (rename f)) = kind.foldConstant? cs := by
  have hcolors : (cs.map (rename f)).mapM Program.color? = cs.mapM Program.color? := by
    induction cs with
    | nil => rfl
    | cons c cs ih => rw [List.map_cons, List.mapM_cons, List.mapM_cons, color?_rename, ih]
  rw [Kind.foldConstant?, Kind.foldConstant?, hcolors]

/-- A node is reduced alike under any names, if its children are compared alike. -/
theorem reduceKind?_rename (kind : Kind R) (h : Agree f same same' cs) :
    reduceKind? same' kind (cs.map (rename f)) =
      (reduceKind? same kind cs).map (Replacement.rename f) := by
  cases kind with
  | linearBlend | radialBlend | barycentricBlend | linearGradient => exact collapseAlike?_rename h
  | radialGradient =>
    rw [reduceKind?, reduceKind?]
    split
    · exact collapseAlike?_rename h
    · rfl
  | stack => exact simplifyStack?_rename f cs
  | alpha factor =>
    rcases cs with - | ⟨⟨n, k, gs⟩, - | ⟨d, cs⟩⟩
    · rfl
    · rw [List.map_cons, List.map_nil, rename_node]
      show (if factor == 1 then some (Replacement.existing _) else _) =
        Option.map _ (if factor == 1 then some (Replacement.existing (node n k gs)) else _)
      split
      · exact congrArg (fun p ↦ some (Replacement.existing p)) (rename_node f n k gs).symm
      · cases k <;> rfl
    · rfl
  | convert outer =>
    rcases cs with - | ⟨⟨n, k, gs⟩, cs⟩
    · rfl
    · rw [List.map_cons, rename_node]
      cases k with
      | convert inner =>
        rcases gs with - | ⟨g, - | ⟨g', gs⟩⟩
        · rfl
        · rcases cs with - | ⟨d, cs⟩
          · show (if _ then some (Replacement.existing (g.rename f)) else none) =
              Option.map _ (if _ then some (Replacement.existing g) else none)
            split <;> rfl
          · rfl
        · rfl
      | _ => rfl
  | blendCompose compose blend =>
    cases compose with
    | «over» =>
      cases blend with
      | normal =>
        rcases cs with - | ⟨a, - | ⟨b, - | ⟨c, cs⟩⟩⟩
        · rfl
        · rfl
        · rw [List.map_cons, List.map_cons, List.map_nil, reduceKind?, reduceKind?,
            isTransparent_rename, isTransparent_rename, isOpaque_rename]
          split
          · rfl
          · split <;> rfl
        · rfl
      | _ => rfl
    | _ => rfl
  | pathBoolean path =>
    rcases cs with - | ⟨a, - | ⟨b, - | ⟨c, cs⟩⟩⟩
    · rfl
    · rfl
    · have hpair := h a List.mem_cons_self b (List.mem_cons_of_mem _ List.mem_cons_self)
      rw [List.map_cons, List.map_cons, List.map_nil, reduceKind?, reduceKind?, hpair]
      split <;> rfl
    · rfl
  | color | premultiply | unpremultiply | normalize | filter | phong => rfl

/-- Reducing a node and renaming can be done in either order. -/
theorem reduce?_rename {p : Program ι R} (h : Agree f same same' p.children) :
    reduce? same' (p.rename f) = (reduce? same p).map (Replacement.rename f) := by
  rw [reduce?, reduce?, color?_rename, isTransparent_rename, kind_rename, children_rename,
    foldConstant?_rename, reduceKind?_rename _ h]
  split
  · rfl
  · split
    · rfl
    · split <;> rfl

end Shading
