import Shading.Program.Reduce

/-!
# What replacements are made of

A reduction step only uses programs that are part of the node it reduces (`parts_of_reduce?`). A
condition that passes from a program to its children therefore holds of all programs in a
replacement, whatever it is (`each_of_reduce?`).

Few rules make a new node: it is a constant, or a stack, or combines two nested factors
(`fresh_of_reduce?`).
-/

namespace Shading

variable {ι R : Type}

namespace Program

/-- The first program occurs in the second one, or is the second one. -/
inductive Part : Program ι R → Program ι R → Prop
  | refl (p : Program ι R) : Part p p
  | child {q c : Program ι R} {n : ι} {k : Kind R} {cs : List (Program ι R)} :
    c ∈ cs → Part q c → Part q (.node n k cs)

variable {p q r : Program ι R}

theorem Part.trans (h : Part p q) (h' : Part q r) : Part p r := by
  induction h' with
  | refl => exact h
  | child hc _ ih => exact .child hc ih

/-- What passes on to children passes on to parts. -/
theorem Part.of_within {fits : Program ι R → Prop}
    (within : ∀ n k cs, fits (.node n k cs) → ∀ c ∈ cs, fits c) (h : Part q p) (hp : fits p) :
    fits q := by
  induction h with
  | refl => exact hp
  | child hc _ ih => exact ih (within _ _ _ hp _ hc)

/-- The parts of a node are the node itself and the parts of its children. -/
theorem part_node {n : ι} {k : Kind R} {cs : List (Program ι R)} :
    Part q (.node n k cs) ↔ q = .node n k cs ∨ ∃ c ∈ cs, Part q c := by
  refine ⟨fun h ↦ ?_, fun h ↦ ?_⟩
  · cases h with
    | refl => exact .inl rfl
    | child hc h => exact .inr ⟨_, hc, h⟩
  · rcases h with rfl | ⟨c, hc, h⟩
    · exact .refl _
    · exact .child hc h

theorem part_leaf {n : ι} {k : Kind R} : Part q (.node n k []) ↔ q = .node n k [] := by
  simp [part_node]

theorem part_pair {n : ι} {k : Kind R} {c d : Program ι R} :
    Part q (.node n k [c, d]) ↔ q = .node n k [c, d] ∨ Part q c ∨ Part q d := by
  simp [part_node]

end Program

/-! ### Nested stacks -/

section

variable {c : Program ι R} {cs : List (Program ι R)}

/-- A layer that is a stack is made of its children. -/
theorem kind_eq_stack (h : c.kind.isStack = true) : c = .node c.name .stack c.children := by
  obtain ⟨n, k, layers⟩ := c
  cases k with
  | stack => rfl
  | _ => cases h

/-- A stack among layers is replaced by its own layers. -/
theorem flattenLayers_stack (h : c.kind.isStack = true) :
    flattenLayers (c :: cs) = c.children ++ flattenLayers cs := by
  rw [kind_eq_stack h]
  rfl

/-- A layer that is no stack is kept. -/
theorem flattenLayers_layer (h : c.kind.isStack = false) :
    flattenLayers (c :: cs) = c :: flattenLayers cs := by
  refine flattenLayers.eq_3 c cs ?_
  rintro n layers rfl
  cases h

end

/-! ### What a replacement is made of -/

/-- The condition holds of the programs that the replacement is made of. -/
def Replacement.Each (fits : Program ι R → Prop) : Replacement ι R → Prop
  | .existing p => fits p
  | .fresh _ children => ∀ c ∈ children, fits c

/-- The program that takes the place of a node, with a name if it is a new one. -/
def Replacement.program (n : ι) : Replacement ι R → Program ι R
  | .existing p => p
  | .fresh kind children => .node n kind children

variable [ColorModel R] {same : Program ι R → Program ι R → Bool} {fits : Program ι R → Prop}
  {kind : Kind R} {cs : List (Program ι R)}

/-- Uncovered layers are among the layers. -/
theorem mem_uncovered {c : Program ι R} (h : c ∈ uncovered cs) : c ∈ cs := by
  induction cs with
  | nil => exact h
  | cons layer cs ih =>
    rw [uncovered] at h
    split at h
    · rw [List.mem_singleton.1 h]
      exact List.mem_cons_self
    · rcases List.mem_cons.1 h with rfl | h
      · exact List.mem_cons_self
      · exact List.mem_cons_of_mem _ (ih h)

/-- Visible layers are among the layers. -/
theorem mem_visibleLayers {c : Program ι R} (h : c ∈ visibleLayers cs) : c ∈ cs :=
  List.mem_reverse.1 (mem_uncovered (List.mem_reverse.1 h))

omit [ColorModel R] in
/-- What passes on to children also holds of layers taken out of nested stacks. -/
theorem forall_mem_flattenLayers (within : ∀ n k cs, fits (.node n k cs) → ∀ c ∈ cs, fits c)
    (h : ∀ c ∈ cs, fits c) : ∀ c ∈ flattenLayers cs, fits c := by
  induction cs with
  | nil => exact h
  | cons c cs ih =>
    rw [List.forall_mem_cons] at h
    have hrest := ih h.2
    obtain ⟨n, k, layers⟩ := c
    cases k with
    | stack =>
      rw [flattenLayers, List.forall_mem_append]
      exact ⟨within _ _ _ h.1, hrest⟩
    | _ => exact List.forall_mem_cons.2 ⟨h.1, hrest⟩

/-- What holds of layers, and of the layers of stacks among them, holds of what a stack is reduced
to. -/
theorem each_of_simplifyStack? {r : Replacement ι R}
    (within : ∀ n k cs, fits (.node n k cs) → ∀ c ∈ cs, fits c) (h : ∀ c ∈ cs, fits c)
    (hr : simplifyStack? cs = some r) : r.Each fits := by
  have hlayers : ∀ c ∈ visibleLayers ((flattenLayers cs).filter (!·.isTransparent)), fits c := by
    intro c hc
    have hfilter := List.mem_filter.1 (mem_visibleLayers hc)
    exact forall_mem_flattenLayers within h c hfilter.1
  rw [simplifyStack?] at hr
  generalize visibleLayers ((flattenLayers cs).filter (!·.isTransparent)) = layers at *
  match layers with
  | [] =>
    cases hr
    exact nofun
  | [layer] =>
    cases hr
    exact hlayers layer List.mem_cons_self
  | first :: second :: layers =>
    dsimp only at hr
    split at hr
    · cases hr
      exact hlayers
    · cases hr

omit [ColorModel R] in
/-- What holds of children holds of what they collapse to. -/
theorem each_of_collapseAlike? {r : Replacement ι R} (h : ∀ c ∈ cs, fits c)
    (hr : collapseAlike? same cs = some r) : r.Each fits := by
  rw [collapseAlike?.eq_def] at hr
  split at hr
  · split at hr
    · cases hr
      exact h _ List.mem_cons_self
    · cases hr
  · cases hr

/-- What holds of children, and of their children, holds of what a node is reduced to. -/
theorem each_of_reduceKind? {r : Replacement ι R}
    (within : ∀ n k cs, fits (.node n k cs) → ∀ c ∈ cs, fits c) (h : ∀ c ∈ cs, fits c)
    (hr : reduceKind? same kind cs = some r) : r.Each fits := by
  unfold reduceKind? at hr
  -- The rules in the order of their definition, the four that collapse alike children one by one.
  split at hr
  · have hchild := h _ List.mem_cons_self
    split at hr
    · cases hr
      exact hchild
    · split at hr
      · cases hr
        exact within _ _ _ hchild
      · cases hr
  · split at hr
    · cases hr
      exact within _ _ _ (h _ List.mem_cons_self) _ List.mem_cons_self
    · cases hr
  · exact each_of_collapseAlike? h hr
  · exact each_of_collapseAlike? h hr
  · exact each_of_collapseAlike? h hr
  · exact each_of_collapseAlike? h hr
  · split at hr
    · exact each_of_collapseAlike? h hr
    · cases hr
  · exact each_of_simplifyStack? within h hr
  · split at hr
    · cases hr
      exact h _ (List.mem_cons_of_mem _ List.mem_cons_self)
    · split at hr
      · cases hr
        exact h _ List.mem_cons_self
      · cases hr
  · split at hr
    · cases hr
      exact h _ List.mem_cons_self
    · cases hr
  · cases hr

/-- What passes on to children also holds of what a node is reduced to. -/
theorem each_of_reduce? {p : Program ι R} {r : Replacement ι R}
    (within : ∀ n k cs, fits (.node n k cs) → ∀ c ∈ cs, fits c) (h : fits p)
    (hr : reduce? same p = some r) : r.Each fits := by
  obtain ⟨n, kind, cs⟩ := p
  rw [reduce?] at hr
  split at hr
  · cases hr
  · split at hr
    · cases hr
      exact nofun
    · split at hr
      · cases hr
        exact nofun
      · exact each_of_reduceKind? within (within _ _ _ h) hr

/-- A replacement is made of parts of the children. -/
theorem parts_of_reduce? {p : Program ι R} {r : Replacement ι R} (h : reduce? same p = some r) :
    r.Each fun q ↦ ∃ c ∈ p.children, q.Part c := by
  obtain ⟨n, kind, cs⟩ := p
  have within : ∀ n k ds, (∃ c ∈ cs, (Program.node n k ds).Part c) →
      ∀ d ∈ ds, ∃ c ∈ cs, d.Part c := by
    intro n k ds hnode d hd
    obtain ⟨c, hc, hpart⟩ := hnode
    exact ⟨c, hc, (Program.Part.child hd (.refl d)).trans hpart⟩
  rw [reduce?] at h
  split at h
  · cases h
  · split at h
    · cases h
      exact nofun
    · split at h
      · cases h
        exact nofun
      · exact each_of_reduceKind? within (fun c hc ↦ ⟨c, hc, .refl c⟩) h

/-- A part of what takes the place of a node is all of it, or part of a child. -/
theorem part_of_reduce? {p q : Program ι R} {r : Replacement ι R} {n : ι}
    (h : reduce? same p = some r) (part : q.Part (r.program n)) :
    q = r.program n ∨ ∃ c ∈ p.children, q.Part c := by
  have hparts := parts_of_reduce? h
  cases r with
  | existing x =>
    obtain ⟨c, hc, hx⟩ := hparts
    exact .inr ⟨c, hc, part.trans hx⟩
  | fresh kind children =>
    rcases Program.part_node.1 part with rfl | ⟨d, hd, hq⟩
    · exact .inl rfl
    · obtain ⟨c, hc, hdc⟩ := hparts d hd
      exact .inr ⟨c, hc, hq.trans hdc⟩

/-! ### New nodes -/

variable {k : Kind R} {ds : List (Program ι R)}

/-- A stack is reduced to the transparent color or to another stack, if to a new node. -/
theorem fresh_of_simplifyStack? (h : simplifyStack? cs = some (.fresh k ds)) :
    (k = .color .zero ∧ ds = []) ∨ k = .stack := by
  rw [simplifyStack?] at h
  generalize visibleLayers ((flattenLayers cs).filter (!·.isTransparent)) = layers at *
  rcases layers with - | ⟨first, - | ⟨second, layers⟩⟩
  · cases h
    exact .inl ⟨rfl, rfl⟩
  · cases h
  · dsimp only at h
    split at h
    · cases h
      exact .inr rfl
    · cases h

omit [ColorModel R] in
/-- Children that are all alike collapse to one of them, never to a new node. -/
theorem collapseAlike?_ne_fresh : collapseAlike? same cs ≠ some (.fresh k ds) := by
  intro h
  rw [collapseAlike?.eq_def] at h
  split at h
  · split at h <;> cases h
  · cases h

/-- Of the rules of single kinds, two make a new node. -/
theorem fresh_of_reduceKind? (h : reduceKind? same kind cs = some (.fresh k ds)) :
    (kind = .stack ∧ simplifyStack? cs = some (.fresh k ds)) ∨
      ∃ outer inner m, kind = .alpha outer ∧ cs = [.node m (.alpha inner) ds] ∧
        k = .alpha (outer * inner) := by
  unfold reduceKind? at h
  split at h
  · split at h
    · cases h
    · split at h
      · cases h
        exact .inr ⟨_, _, _, rfl, rfl, rfl⟩
      · cases h
  · split at h <;> cases h
  · exact absurd h collapseAlike?_ne_fresh
  · exact absurd h collapseAlike?_ne_fresh
  · exact absurd h collapseAlike?_ne_fresh
  · exact absurd h collapseAlike?_ne_fresh
  · split at h
    · exact absurd h collapseAlike?_ne_fresh
    · cases h
  · exact .inl ⟨rfl, h⟩
  · split at h
    · cases h
    · split at h <;> cases h
  · split at h <;> cases h
  · cases h

/-- A constant is only folded if it is finite. -/
theorem isFinite_of_foldConstant? {value : Vec4 R} (h : kind.foldConstant? cs = some value) :
    value.isFinite = true := by
  obtain ⟨inputs, -, h⟩ := Option.bind_eq_some_iff.1 h
  obtain ⟨found, -, h⟩ := Option.bind_eq_some_iff.1 h
  split at h
  · rename_i hfinite
    cases h
    exact hfinite
  · cases h

/-- A new node that takes the place of a node is a constant without infinities, a stack in place of
a stack, or a product in place of two nested factors. -/
theorem fresh_of_reduce? {p : Program ι R} (h : reduce? same p = some (.fresh k ds)) :
    (∃ color, k = .color color ∧ ds = [] ∧ (color = .zero ∨ color.isFinite = true)) ∨
      (k = .stack ∧ p.kind = .stack ∧ simplifyStack? p.children = some (.fresh k ds)) ∨
      ∃ outer inner m, k = .alpha (outer * inner) ∧ p.kind = .alpha outer ∧
        p.children = [.node m (.alpha inner) ds] ∧ p.isTransparent = false := by
  rw [reduce?] at h
  split at h
  · cases h
  · split at h
    · cases h
      exact .inl ⟨_, rfl, rfl, .inl rfl⟩
    · rename_i htransparent
      split at h
      · rename_i value hvalue
        cases h
        exact .inl ⟨value, rfl, rfl, .inr (isFinite_of_foldConstant? hvalue)⟩
      · rcases fresh_of_reduceKind? h with ⟨hkind, hstack⟩ | ⟨outer, inner, m, hkind, hcs, rfl⟩
        · rcases fresh_of_simplifyStack? hstack with ⟨rfl, rfl⟩ | rfl
          · exact .inl ⟨_, rfl, rfl, .inl rfl⟩
          · exact .inr (.inl ⟨rfl, hkind, hstack⟩)
        · exact .inr (.inr ⟨outer, inner, m, rfl, hkind, hcs, Bool.eq_false_iff.2 htransparent⟩)

/-- Constants are not reduced. -/
theorem color?_of_reduce? {p : Program ι R} {r : Replacement ι R} (h : reduce? same p = some r) :
    p.color? = none := by
  rw [reduce?] at h
  split at h
  · cases h
  · rename_i hcolor
    exact Option.not_isSome_iff_eq_none.1 hcolor

end Shading
