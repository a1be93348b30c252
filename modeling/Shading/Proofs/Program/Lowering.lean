import Shading.Proofs.Machine.Calls
import Shading.Proofs.Program.Shape

/-!
# Lowering is correct

What the writer puts down for a valid program without paths is a block that delivers the color of
the program, evaluated with its operands stored and its values kept as the machine keeps them
(`Program.exists_lowered`). The proof follows the program: each kind is one of the shapes of blocks,
and `Lowered` holds of a node because it holds of its children.

Nothing is assumed of the numbers. The evaluator and the machine apply the same operations to the
same operands in the same order, so equality is exact whatever these operations do.
-/

namespace Shading

open Machine

variable {ι R : Type} [ColorModel R]

/-! ### Selections -/

/-- The side of a blend that a ratio falls on, or both. -/
def blendSelection (t : R) : Selection R :=
  if t ≤ 0 then .single 0 else if 1 ≤ t then .single 1 else .between 0 t

/-- A blend selects from two stops. -/
theorem blendSelection_inside (t : R) : (blendSelection t).Inside 2 := by
  rw [blendSelection]
  split
  · exact Nat.two_pos
  · split
    · exact Nat.one_lt_two
    · exact Nat.one_lt_two

/-- A blend chooses as its selection says. -/
theorem blendBetweenIn_eq_chosenIn (pr : Precision R) (kind : Kind R) (answers : List (Answer R))
    (t : R) :
    blendBetweenIn pr t (answerAt kind answers 0) (answerAt kind answers 1) =
      chosenIn pr.keep kind answers (some (blendSelection t)) := by
  rw [blendBetweenIn, blendSelection]
  by_cases h : t ≤ 0
  · rw [if_pos h, if_pos h]
    rfl
  · rw [if_neg h, if_neg h]
    by_cases h' : 1 ≤ t
    · rw [if_pos h', if_pos h']
      rfl
    · rw [if_neg h', if_neg h']
      rfl

/-- A gradient chooses as its selection says. -/
theorem gradientIn_eq_chosenIn (pr : Precision R) (kind : Kind R) (answers : List (Answer R))
    (ratios : List R) (t : R) :
    gradientIn pr kind answers ratios t =
      chosenIn pr.keep kind answers (some (Selection.select ratios t)) := by
  rw [gradientIn]
  cases Selection.select ratios t <;> rfl

namespace Machine

variable {limits : Limits} {env : Environment R} {resolve : Nat → Nat} {vs : List (Vec4 R)}
  {rs : List Nat}

/-- The dispatch of a blend enters the block that its selection says. -/
theorem dispatchBlend_eq_entered (room : vs.length < limits.stackDepth)
    (room' : rs.length + 1 < limits.returnDepth) (t : R) (lo : Nat) :
    let s := entered env resolve lo 2 vs rs (some (blendSelection t))
    dispatchBlend limits env t (Branches.map resolve ⟨lo, lo + 1, lo + 2, lo + 3⟩) ⟨vs, rs⟩ =
      (.ok (.jump s.index), s.store) := by
  rw [blendSelection]
  by_cases h : t ≤ 0
  · rw [if_pos h]
    exact dispatchBlend_zero h (by omega)
  · rw [if_neg h]
    by_cases h' : 1 ≤ t
    · rw [if_pos h']
      exact dispatchBlend_one h h' (by omega)
    · rw [if_neg h']
      exact dispatchBlend_both h h' room room'

variable [Rounding R Single]

/-- The stops of the table of a dispatch of `n` blocks. -/
theorem stops_range' (ratios : List Single) (lo : Nat) {n i : Nat} (h : i < n) :
    (StopTable.map resolve ⟨ratios, List.range' lo n, lo + n, lo + n + 1⟩).stops[i]? =
      some (resolve (lo + i)) := by
  show ((List.range' lo n).map resolve)[i]? = _
  rw [List.getElem?_map, List.getElem?_range' h, Nat.one_mul]
  rfl

/-- The dispatch of a gradient enters the block that its selection says. -/
theorem dispatchGradient_eq_entered (room : vs.length < limits.stackDepth)
    (room' : rs.length + 1 < limits.returnDepth) (t : Option R) (extend : Extend)
    {ratios : List Single} (nonempty : ratios ≠ []) (lo : Nat) :
    let s := entered env resolve lo ratios.length vs rs
      (t.map fun t ↦ Selection.select (ratios.map widen) (extend.apply t))
    dispatchGradient limits env t extend
        (StopTable.map resolve ⟨ratios, List.range' lo ratios.length, lo + ratios.length,
          lo + ratios.length + 1⟩) ⟨vs, rs⟩ =
      (.ok (.jump s.index), s.store) := by
  rcases t with - | t
  · exact dispatchGradient_none room
  · have hne : ratios.map (widen (R := R)) ≠ [] := by simpa using nonempty
    have hinside := Selection.select_inside (extend.apply t) hne
    rw [List.length_map] at hinside
    rw [Option.map_some]
    rcases hselect : Selection.select (ratios.map widen) (extend.apply t) with i | ⟨i, ratio⟩
    · rw [hselect] at hinside
      exact dispatchGradient_single hselect (stops_range' ratios lo hinside) (by omega)
    · rw [hselect] at hinside
      exact dispatchGradient_between hselect
        (stops_range' ratios lo (Nat.lt_of_succ_lt hinside)) (stops_range' ratios lo hinside)
        room room'

end Machine

/-! ### Values of all children -/

omit [ColorModel R] in
/-- If all answers are there, so is the first, and so are the others. -/
theorem allAnswers_cons {answer : Answer R} {answers : List (Answer R)} {v : Vec4 R}
    {vs : List (Vec4 R)} (h : allAnswers (answer :: answers) = .ok (v :: vs)) :
    answer () = .ok v ∧ allAnswers answers = .ok vs := by
  rw [allAnswers] at h
  rcases ha : answer () with cause | x
  · rw [ha] at h
    cases h
  · rcases hrest : allAnswers answers with cause | xs
    · rw [ha, hrest] at h
      cases h
    · rw [ha, hrest] at h
      cases h
      exact ⟨rfl, rfl⟩

theorem Triangle.map_map {K L M : Type} (g : L → M) (f : K → L) (t : Triangle K) :
    (t.map f).map g = t.map fun a ↦ g (f a) := by
  obtain ⟨corners, i, - | z⟩ := t <;> rfl

/-- The evaluation of a kind that computes from the values of all its children. -/
def pointwiseIn (pr : Precision R) (kind : Kind R) (answers : List (Answer R)) :
    Except EvaluationError (Vec4 R) := do
  match (kind.withOperands pr.store).pointwise? (← allAnswers answers) with
  | some value => return pr.keep value
  | none => throw (.malformed kind.name)

/-- What is pointwise and has all its operands has a value, kept as it is stored. -/
theorem pointwiseIn_of_allAnswers {pr : Precision R} {kind : Kind R} {answers : List (Answer R)}
    {values : List (Vec4 R)} {v : Vec4 R} (h : allAnswers answers = .ok values)
    (hv : (kind.withOperands pr.store).pointwise? values = some v) :
    pointwiseIn pr kind answers = .ok (pr.keep v) := by
  rw [pointwiseIn, h]
  show (match (kind.withOperands pr.store).pointwise? values with
    | some value => _
    | none => _) = _
  rw [hv]
  rfl

/-! ### What holds of a lowered program -/

variable [Rounding R Single]

namespace Program

/-- The color of a program with its operands stored and its values kept by the machine. -/
def answerIn (p : Program ι R) : Outlook R := fun env ↦
  p.evaluateAtIn ⟨Precision.stored.store, env.keep⟩ env.sample

/-- From the unused location `lo` on, the program is written as the block, which keeps its jumps to
itself and delivers the color of the program. -/
structure Lowered (p : Program ι R) (lo : Nat) (block : List Line) (hi : Nat) : Prop where
  writes : p.write.Writes lo block hi
  marked : Marked lo block hi
  delivers : Delivers block p.resources p.answerIn

variable {n : ι} {k : Kind R} {c : Program ι R} {cs : List (Program ι R)} {lo hi : Nat}
  {b : List Line} {bs : List (List Line)}

theorem write_node : (node n k cs).write = k.write (cs.map write) :=
  fold_node ..

theorem answerIn_node :
    (node n k cs).answerIn = fun env ↦
      k.evaluateIn ⟨Precision.stored.store, env.keep⟩ env.sample
        (cs.map fun c _ ↦ c.answerIn env) :=
  funext fun _ ↦ evaluateAtIn_node _ _ n k cs

/-- What the blocks of some programs deliver. -/
abbrev deliveries (cs : List (Program ι R)) : List (Resources × Outlook R) :=
  cs.map fun c ↦ (c.resources, c.answerIn)

/-- The blocks of children deliver what the children answer. -/
theorem deliverEach_of_lowered (h : Chain Lowered cs lo bs hi) :
    DeliverEach bs (deliveries cs) := by
  induction h with
  | nil => exact .nil
  | cons hb _ ih => exact .cons hb.delivers ih

/-- The answers of what is delivered are those of the children. -/
theorem answers_deliveries (env : Environment R) :
    ((deliveries cs).map fun d _ ↦ d.2 env : List (Answer R)) =
      cs.map fun c _ ↦ c.answerIn env :=
  List.map_map

/-- The blocks of children are what is written for them. -/
theorem chain_writes (h : Chain Lowered cs lo bs hi) :
    Chain Emit.Writes (cs.map write) lo bs hi :=
  h.map write fun _ _ _ _ hb ↦ hb.writes

/-- The blocks of children mark distinct locations. -/
theorem chain_marked (h : Chain Lowered cs lo bs hi) :
    Chain (fun _ : Program ι R ↦ Marked) cs lo bs hi := by
  have hmap := h.map (Q := fun _ : Program ι R ↦ Marked) id fun _ _ _ _ hb ↦ hb.marked
  rwa [List.map_id] at hmap

/-! ### One kind after the other -/

/-- A kind with one child is the block of the child and an operation. -/
theorem lowered_unary (h : c.Lowered lo b hi) {i : Instruction Nat} {f : Vec4 R → Vec4 R}
    (hwrite : k.write [c.write] = Kind.write.unary c.write i) (htargets : i.targets = [])
    (hmap : ∀ resolve, i.map resolve = i)
    (hstep : ∀ limits env, step limits env i = Machine.unary limits env f)
    (hresources : k.resources [c.resources] = c.resources)
    (heval : ∀ pr sample answers, k.evaluateIn pr sample answers = pointwiseIn pr k answers)
    (hvalue : ∀ v, (k.withOperands Precision.stored.store).pointwise? [v] = some (f v)) :
    (node n k [c]).Lowered lo (b ++ [.op i]) hi where
  writes := by
    rw [write_node, List.map_singleton, hwrite]
    exact h.writes.bind (Emit.writes_line _ _)
  marked := h.marked.append (.op htargets hi)
  delivers := by
    rw [resources_node, List.map_singleton, hresources, answerIn_node]
    have hanswer : ∀ env : Environment R,
        k.evaluateIn ⟨Precision.stored.store, env.keep⟩ env.sample [fun _ ↦ c.answerIn env] =
          do return env.keep (f (← c.answerIn env)) := by
      intro env
      rw [heval]
      rcases c.answerIn env with cause | v
      · rfl
      · exact pointwiseIn_of_allAnswers rfl (hvalue v)
    simp only [List.map_singleton, hanswer]
    exact h.delivers.unary hmap hstep

/-- A kind that computes from all of its children is their blocks and an operation. -/
theorem lowered_sequence (h : Chain Lowered cs lo bs hi) (nonempty : cs ≠ []) {i : Instruction Nat}
    (hwrite : k.write (cs.map write) =
      do Emit.sequence (cs.map write); Emit.op i) (htargets : i.targets = [])
    (hmap : ∀ resolve, i.map resolve = i)
    (hstep : ∀ ⦃limits⦄ ⦃env : Environment R⦄ ⦃values⦄ ⦃vs : List (Vec4 R)⦄ (rs),
      allAnswers (cs.map fun c _ ↦ c.answerIn env) = .ok values → values.length = cs.length →
        vs.length < limits.stackDepth → ∃ v, (node n k cs).answerIn env = .ok v ∧
          step limits env i ⟨values.reverse ++ vs, rs⟩ = (.ok .next, ⟨v :: vs, rs⟩))
    (hresources : k.resources (cs.map resources) = .sequential (cs.map resources)) :
    (node n k cs).Lowered lo (bs.flatten ++ [.op i]) hi where
  writes := by
    rw [write_node, hwrite]
    exact (Emit.writes_sequence (chain_writes h)).bind (Emit.writes_line _ _)
  marked := (Marked.flatten (chain_marked h)).append (.op htargets hi)
  delivers := by
    have hne : bs ≠ [] := by
      intro hbs
      have hlength := h.length_eq
      rw [hbs] at hlength
      exact nonempty (List.eq_nil_of_length_eq_zero hlength.symm)
    have hresources' : (node n k cs).resources = .sequential ((deliveries cs).map (·.1)) := by
      rw [resources_node, hresources, List.map_map]
      rfl
    rw [hresources']
    refine delivers_sequence (deliverEach_of_lowered h) hne hmap
      fun limits env values vs rs hvalues hlength room ↦ ?_
    rw [answers_deliveries] at hvalues
    rw [h.length_eq] at hlength
    exact hstep rs hvalues hlength room

/-- A kind that chooses among its children is a dispatch of their blocks. -/
theorem lowered_dispatch (i : Instruction Nat) (choice : Environment R → Option (Selection R))
    (h : Chain Lowered cs (lo + cs.length + 2) bs hi)
    (hwrite : (k.write (cs.map write)).Writes lo (dispatch i lo bs) hi)
    (htargets : i.targets = List.range' lo (cs.length + 2))
    (inside : ∀ env s, choice env = some s → s.Inside cs.length)
    (hroom : Suffices (k.resources (cs.map resources)) (deliveries cs))
    (hstep : ∀ ⦃limits⦄ (env : Environment R) ⦃resolve⦄ ⦃vs : List (Vec4 R)⦄ ⦃rs⦄,
      vs.length < limits.stackDepth → rs.length + 1 < limits.returnDepth →
        step limits env (i.map resolve) ⟨vs, rs⟩ =
          (.ok (.jump (entered env resolve lo cs.length vs rs (choice env)).index),
            (entered env resolve lo cs.length vs rs (choice env)).store))
    (heval : ∀ (env : Environment R) answers,
      k.evaluateIn ⟨Precision.stored.store, env.keep⟩ env.sample answers =
        chosenIn env.keep k answers (choice env)) :
    (node n k cs).Lowered lo (dispatch i lo bs) hi where
  writes := by
    rw [write_node]
    exact hwrite
  marked := .dispatch (h.length_eq ▸ chain_marked h) (h.length_eq ▸ htargets)
  delivers := by
    rw [resources_node, answerIn_node]
    simp only [heval, ← answers_deliveries]
    exact delivers_dispatch (deliverEach_of_lowered h) k (h.length_eq ▸ inside) hroom
      (h.length_eq ▸ hstep)

/-- The needs of a blend suffice for its branches, with a ratio below them and the first value below
the second one. -/
theorem suffices_blend (zero one : Program ι R) :
    Suffices ((zero.resources.above 1 2).max (one.resources.above 2 1))
      (deliveries [zero, one]) := by
  have hfirst := Resources.le_max_left (zero.resources.above 1 2) (one.resources.above 2 1)
  have hsecond := Resources.le_max_right (zero.resources.above 1 2) (one.resources.above 2 1)
  refine ⟨?_, fun j d hd ↦ ?_, fun j d hd hj ↦ ?_, fun j d hd ↦ ?_⟩
  · exact .trans ⟨Nat.le_add_left 1 _, Nat.le_add_left 2 _⟩ hfirst
  · rcases j with - | - | j
    · cases hd
      exact .trans ⟨by simp [Resources.above], by simp [Resources.above]⟩ hfirst
    · cases hd
      exact .trans ⟨by simp [Resources.above], by simp [Resources.above]⟩ hsecond
    · cases hd
  · rcases j with - | j
    · cases hd
      exact hfirst
    · exact absurd hj (by simp)
  · rcases j with - | j
    · cases hd
      exact hsecond
    · cases hd

/-- A blend, given how its instruction and its evaluation use the ratio. -/
theorem lowered_blend {zero one : Program ι R} (h : Chain Lowered [zero, one] (lo + 4) bs hi)
    (instruction : Branches Nat → Instruction Nat) (ratio : Environment R → R)
    (hwrite : k.write [zero.write, one.write] = Emit.blend instruction zero.write one.write)
    (htargets : ∀ branches, (instruction branches).targets = branches.targets)
    (hmap : ∀ branches resolve,
      (instruction branches).map resolve = instruction (branches.map resolve))
    (hresources : ∀ r s, k.resources [r, s] = (r.above 1 2).max (s.above 2 1))
    (hstep : ∀ limits env branches,
      step limits env (instruction branches) = dispatchBlend limits env (ratio env) branches)
    (heval : ∀ (env : Environment R) answers,
      k.evaluateIn ⟨Precision.stored.store, env.keep⟩ env.sample answers =
        blendBetweenIn ⟨Precision.stored.store, env.keep⟩ (ratio env) (answerAt k answers 0)
          (answerAt k answers 1)) :
    ∃ block, (node n k [zero, one]).Lowered lo block hi := by
  have hroom : Suffices (k.resources ([zero, one].map resources)) (deliveries [zero, one]) := by
    rw [show [zero, one].map resources = [zero.resources, one.resources] from rfl, hresources]
    exact suffices_blend zero one
  refine ⟨_, lowered_dispatch (instruction ⟨lo, lo + 1, lo + 2, lo + 3⟩)
    (fun env ↦ some (blendSelection (ratio env))) h ?_ (htargets _) ?_ hroom ?_ ?_⟩
  · exact hwrite ▸ Emit.writes_blend (chain_writes h)
  · rintro env s ⟨⟩
    exact blendSelection_inside (ratio env)
  · intro limits env resolve vs rs room room'
    rw [hmap, hstep]
    exact dispatchBlend_eq_entered room room' (ratio env) lo
  · intro env answers
    rw [heval, blendBetweenIn_eq_chosenIn]

/-- The needs of a gradient suffice for any two of its stops, with a ratio below them. -/
theorem suffices_gradient (nonempty : cs ≠ []) :
    Suffices (.greatest ((cs.map resources).map (·.above 2 2))) (deliveries cs) := by
  have hle : ∀ r ∈ cs.map resources,
      (r.above 2 2).Le (.greatest ((cs.map resources).map (·.above 2 2))) :=
    fun r hr ↦ Resources.le_greatest (List.mem_map_of_mem hr)
  have hmem : ∀ (j : Nat) d, (deliveries cs)[j]? = some d → d.1 ∈ cs.map resources := by
    intro j d hd
    obtain ⟨c, hc, rfl⟩ := List.mem_map.1 (List.mem_of_getElem? hd)
    exact List.mem_map_of_mem hc
  refine ⟨?_, fun j d hd ↦ ?_, fun j d hd _ ↦ ?_, fun j d hd ↦ ?_⟩
  · obtain ⟨c, cs, rfl⟩ := List.exists_cons_of_ne_nil nonempty
    exact .trans ⟨by simp [Resources.above], by simp [Resources.above]⟩
      (hle c.resources List.mem_cons_self)
  · exact .trans ⟨by simp [Resources.above], by simp [Resources.above]⟩ (hle _ (hmem j d hd))
  · exact .trans ⟨by simp [Resources.above], by simp [Resources.above]⟩ (hle _ (hmem j d hd))
  · exact .trans ⟨by simp [Resources.above], by simp [Resources.above]⟩
      (hle _ (hmem (j + 1) d hd))

/-- A gradient, given how its instruction and its evaluation use the ratio. -/
theorem lowered_gradient (h : Chain Lowered cs (lo + cs.length + 2) bs hi) (nonempty : cs ≠ [])
    (instruction : StopTable Nat → Instruction Nat) (ratio : Environment R → Option R)
    {extend : Extend} {ratios : List R} (hlength : cs.length = ratios.length)
    (hwrite : k.write (cs.map write) =
      Emit.gradient instruction (ratios.map narrow) (cs.map write))
    (htargets : ∀ table, (instruction table).targets = table.targets)
    (hmap : ∀ table resolve, (instruction table).map resolve = instruction (table.map resolve))
    (hresources : ∀ rs, k.resources rs = .greatest (rs.map (·.above 2 2)))
    (hstep : ∀ limits env table,
      step limits env (instruction table) = dispatchGradient limits env (ratio env) extend table)
    (heval : ∀ (env : Environment R) answers,
      k.evaluateIn ⟨Precision.stored.store, env.keep⟩ env.sample answers =
        chosenIn env.keep k answers ((ratio env).map fun t ↦
          Selection.select ((ratios.map narrow).map (widen (S := Single))) (extend.apply t))) :
    ∃ block, (node n k cs).Lowered lo block hi := by
  have hne : ratios.map (narrow (S := Single)) ≠ [] := by
    intro hnil
    rw [List.map_eq_nil_iff] at hnil
    exact nonempty (List.eq_nil_of_length_eq_zero (hlength.trans (congrArg List.length hnil)))
  have hcount : (ratios.map (narrow (S := Single))).length = cs.length := by
    rw [List.length_map, hlength]
  have hroom : Suffices (k.resources (cs.map resources)) (deliveries cs) := by
    rw [hresources]
    exact suffices_gradient nonempty
  refine ⟨_, lowered_dispatch (instruction ⟨ratios.map narrow, List.range' lo bs.length,
    lo + bs.length, lo + bs.length + 1⟩) _ h ?_ ?_ ?_ hroom ?_ heval⟩
  · rw [hwrite]
    exact Emit.writes_gradient (by rw [List.length_map]; exact chain_writes h)
  · rw [htargets, h.length_eq]
    show List.range' lo cs.length ++ [lo + cs.length, lo + cs.length + 1] = _
    rw [List.range'_concat, List.range'_concat]
    simp [Nat.add_assoc]
  · intro env s hs
    obtain ⟨t, -, rfl⟩ := Option.map_eq_some_iff.1 hs
    have hinside := Selection.select_inside (extend.apply t)
      (show (ratios.map (narrow (S := Single))).map (widen (R := R)) ≠ [] by simpa using hne)
    rwa [List.length_map, hcount] at hinside
  · intro limits env resolve vs rs room room'
    rw [hmap, hstep, h.length_eq, ← hcount]
    exact dispatchGradient_eq_entered room room' (ratio env) extend hne lo

/-- A stack of one layer is that layer. -/
theorem lowered_layer {top : Program ι R} (hcs : cs.reverse = [top]) (h : top.Lowered lo b hi) :
    (node n .stack cs).Lowered lo b hi := by
  obtain rfl : cs = [top] := by rw [← List.reverse_reverse cs, hcs]; rfl
  refine ⟨?_, h.marked, ?_⟩
  · rw [write_node]
    exact h.writes
  · have hanswer : (node n (.stack : Kind R) [top]).answerIn = top.answerIn := by
      funext env
      rw [answerIn_node]
      show (do coverLayersIn _ (← top.answerIn env) []) = _
      rcases top.answerIn env with - | v <;> rfl
    rw [resources_node, hanswer]
    exact h.delivers

/-- A stack of some layers, which are written from the top. -/
theorem lowered_stack {top : Program ι R} {below : List (Program ι R)} {mid : Nat}
    (hcs : cs.reverse = top :: below) (nonempty : below ≠ []) (htop : top.Lowered lo b mid)
    (hbelow : Chain Lowered below (mid + 1) bs hi) :
    (node n .stack cs).Lowered lo (b ++ (layers mid bs ++ [.mark mid])) hi where
  writes := by
    obtain ⟨c, below, rfl⟩ := List.exists_cons_of_ne_nil nonempty
    rw [write_node]
    show (Emit.stack (cs.map write).reverse).Writes _ _ _
    rw [← List.map_reverse, hcs]
    refine htop.writes.bind (Emit.writes_newLocation ?_)
    exact (Emit.writes_layersBelow (chain_writes hbelow) mid).bind (Emit.writes_line _ _)
  marked := htop.marked.append (.layers (chain_marked hbelow))
  delivers := by
    -- Resources and evaluation of a stack start from the end of the list, as its code does.
    have hresources : (node n (.stack : Kind R) cs).resources =
        (below.map resources).reverse.foldl (fun r s ↦ r.max (s.above 1 0)) top.resources := by
      rw [resources_node]
      simp only [Kind.resources]
      rw [← List.map_reverse, hcs]
      rfl
    have hanswer : (node n (.stack : Kind R) cs).answerIn = (fun env ↦ do
        coverLayersIn ⟨Precision.stored.store, env.keep⟩ (← top.answerIn env)
          ((deliveries below).map fun d _ ↦ d.2 env)) := by
      funext env
      rw [answerIn_node, answers_deliveries]
      simp only [Kind.evaluateIn]
      rw [← List.map_reverse, hcs]
      rfl
    obtain ⟨hle, hles⟩ := Resources.le_foldl_max (fun r : Resources ↦ r.above 1 0)
      (below.map resources).reverse top.resources
    rw [hresources, hanswer]
    refine htop.delivers.stack _ (deliverEach_of_lowered hbelow) mid hle fun d hd ↦ ?_
    obtain ⟨c, hc, rfl⟩ := List.mem_map.1 hd
    exact hles c.resources (List.mem_reverse.2 (List.mem_map_of_mem hc))

/-! ### Any kind -/

/-- A finite constant is written as one push. -/
theorem lowered_color {value : Vec4 R} (finite : value.isFinite = true) :
    (node n (.color value) []).Lowered lo [.op (.pushColor (value.map narrow))] lo := by
  refine ⟨?_, .op rfl lo, delivers_pushColor _⟩
  rw [write_node]
  show Emit.Writes (if value.isFinite then _ else _) _ _ _
  rw [if_pos finite]
  exact Emit.writes_line _ _

theorem lowered_linearGradient {transform : Affine R} {start stop : Point R} {ratios : List R}
    {extend : Extend} {accuracy : Accuracy} (nonempty : cs ≠ [])
    (hlength : cs.length = ratios.length)
    (h : Chain Lowered cs (lo + cs.length + 2) bs hi) :
    ∃ block, (node n (.linearGradient transform start stop ratios extend accuracy) cs).Lowered
      lo block hi := by
  let axis := Kind.linearAxis transform start stop
  refine lowered_gradient h nonempty (.linearGradientRatio (axis.map narrow) accuracy extend)
    (fun env ↦ some ((axis.map Precision.stored.store).ratio (env.sample accuracy))) hlength rfl
    (fun _ ↦ rfl) (fun _ _ ↦ rfl) (fun _ ↦ rfl) (fun _ _ _ ↦ rfl) fun env answers ↦ ?_
  rw [List.map_map]
  exact gradientIn_eq_chosenIn ..

theorem lowered_radialGradient {transform : Affine R} {start stop : Point R}
    {startRadius stopRadius : R} {ratios : List R} {extend : Extend} {accuracy : Accuracy}
    (nonempty : cs ≠ []) (hlength : cs.length = ratios.length)
    (h : Chain Lowered cs (lo + cs.length + 2) bs hi) :
    ∃ block, (node n (.radialGradient transform start startRadius stop stopRadius ratios extend
      accuracy) cs).Lowered lo block hi := by
  let circles := Kind.circlePair transform start startRadius stop stopRadius
  refine lowered_gradient h nonempty (.radialGradientRatio (circles.map narrow) accuracy extend)
    (fun env ↦ (circles.map Precision.stored.store).ratio? (env.sample accuracy)) hlength rfl
    (fun _ ↦ rfl) (fun _ _ ↦ rfl) (fun _ ↦ rfl) (fun _ _ _ ↦ rfl) fun env answers ↦ ?_
  rw [List.map_map]
  simp only [Kind.evaluateIn]
  rcases (circles.map Precision.stored.store).ratio? (env.sample accuracy) with - | t
  · rfl
  · exact gradientIn_eq_chosenIn ..

/-- Three children and an instruction that weighs them. -/
theorem lowered_barycentricBlend {a b c : Program ι R} {corners : Triple (Point R)}
    {depths : Option (Triple R)} {accuracy : Accuracy} (h : Chain Lowered [a, b, c] lo bs hi) :
    ∃ block, (node n (.barycentricBlend corners depths accuracy) [a, b, c]).Lowered
      lo block hi := by
  refine ⟨_, lowered_sequence h (List.cons_ne_nil _ _)
    (i := .barycentricBlend ((Triangle.ofCorners corners depths).map narrow) accuracy) rfl rfl
    (fun _ ↦ rfl) (fun limits env values vs rs hvalues hlength room ↦ ?_) rfl⟩
  obtain ⟨x, y, z, rfl⟩ := List.length_eq_three.1 hlength
  refine ⟨_, ?_, step_barycentricBlend room _ accuracy x y z⟩
  obtain ⟨ha, hrest⟩ := allAnswers_cons hvalues
  obtain ⟨hb, hrest⟩ := allAnswers_cons hrest
  obtain ⟨hc, -⟩ := allAnswers_cons hrest
  rw [answerIn_node, Triangle.map_map]
  simp only [List.map_cons, List.map_nil, Kind.evaluateIn]
  rw [answerAt_of_getElem? rfl, answerAt_of_getElem? rfl, answerAt_of_getElem? rfl]
  rw [show a.answerIn env = .ok x from ha, show b.answerIn env = .ok y from hb,
    show c.answerIn env = .ok z from hc]
  rfl

/-- The inputs of lighting in their order, and an instruction that takes all of them. -/
theorem lowered_phong {shininess : R} (atLeast : 5 ≤ cs.length) (even : (cs.length - 5) % 2 = 0)
    (h : Chain Lowered cs lo bs hi) :
    ∃ block, (node n (.phong shininess) cs).Lowered lo block hi := by
  refine ⟨_, lowered_sequence h (List.ne_nil_of_length_pos (by omega))
    (i := .phong (narrow shininess) ((cs.length - 5) / 2)) ?_ rfl (fun _ ↦ rfl)
    (fun limits env values vs rs hvalues hlength room ↦ ?_) rfl⟩
  · show (do Emit.sequence _; Emit.op (.phong _ (((cs.map write).length - 5) / 2))) = _
    rw [List.length_map]
  · have hcount : values.length = 5 + 2 * ((cs.length - 5) / 2) := by omega
    have hvalue : 5 ≤ values.length := by omega
    obtain ⟨v, hv⟩ := exists_phong (widen (narrow shininess : Single)) hvalue
    refine ⟨env.keep v, ?_, step_phong room (narrow shininess) hcount hv⟩
    rw [answerIn_node]
    exact pointwiseIn_of_allAnswers hvalues hv

/-- Two children and an instruction that composes them. -/
theorem lowered_blendCompose {a b : Program ι R} {compose : Compose} {blend : Blend}
    (h : Chain Lowered [a, b] lo bs hi) :
    ∃ block, (node n (.blendCompose compose blend) [a, b]).Lowered lo block hi := by
  refine ⟨_, lowered_sequence h (List.cons_ne_nil _ _) (i := .blendCompose compose blend) rfl
    rfl (fun _ ↦ rfl) (fun limits env values vs rs hvalues hlength room ↦ ?_) rfl⟩
  obtain ⟨x, y, rfl⟩ := List.length_eq_two.1 hlength
  refine ⟨env.keep (Shading.blendCompose x y compose blend), ?_, ?_⟩
  · rw [answerIn_node]
    exact pointwiseIn_of_allAnswers hvalues rfl
  · exact step_blendCompose room compose blend x y

/-- A stack is lowered to the code of an empty one, of its only layer, or of its layers from the
top. -/
theorem exists_lowered_stack (each : ∀ c ∈ cs, ∀ lo, ∃ b hi, c.Lowered lo b hi) (lo : Nat) :
    ∃ block hi, (node n .stack cs).Lowered lo block hi := by
  rcases hcs : cs.reverse with - | ⟨top, below⟩
  · obtain rfl := List.reverse_eq_nil_iff.1 hcs
    refine ⟨[.op (.pushColor (Vec4.zero.map (narrow (R := R))))], lo, ⟨?_, .op rfl lo,
      delivers_pushColor _⟩⟩
    rw [write_node]
    exact Emit.writes_line _ _
  · have hmem : ∀ c ∈ top :: below, c ∈ cs := fun c hc ↦ List.mem_reverse.1 (hcs ▸ hc)
    obtain ⟨b, mid, htop⟩ := each top (hmem top List.mem_cons_self) lo
    by_cases hne : below = []
    · exact ⟨b, mid, lowered_layer (hne ▸ hcs) htop⟩
    · obtain ⟨bs, hi, hbelow⟩ := Chain.exists_of_forall
        (fun c hc ↦ each c (hmem c (List.mem_cons_of_mem _ hc))) (mid + 1)
      exact ⟨_, hi, lowered_stack hcs hne htop hbelow⟩

/-- A node is lowered if all of its children are. -/
theorem exists_lowered_node (haccepts : k.Accepts cs.length) (hwritable : k.Writable)
    (each : ∀ c ∈ cs, ∀ lo, ∃ b hi, c.Lowered lo b hi) (lo : Nat) :
    ∃ block hi, (node n k cs).Lowered lo block hi := by
  have hchain : ∀ lo, ∃ bs hi, Chain Lowered cs lo bs hi := Chain.exists_of_forall each
  have hone : cs.length = 1 → ∃ c b hi, cs = [c] ∧ c.Lowered lo b hi := by
    intro hlength
    obtain ⟨c, rfl⟩ := List.length_eq_one_iff.1 hlength
    obtain ⟨b, hi, h⟩ := each c List.mem_cons_self lo
    exact ⟨c, b, hi, rfl, h⟩
  cases k with
  | color value =>
    obtain rfl := List.eq_nil_of_length_eq_zero haccepts
    exact ⟨_, lo, lowered_color hwritable⟩
  | premultiply =>
    obtain ⟨c, b, hi, rfl, h⟩ := hone haccepts
    exact ⟨_, _, lowered_unary h (f := premultiply) rfl rfl (fun _ ↦ rfl) (fun _ _ ↦ rfl) rfl
      (fun _ _ _ ↦ rfl) fun _ ↦ rfl⟩
  | unpremultiply =>
    obtain ⟨c, b, hi, rfl, h⟩ := hone haccepts
    exact ⟨_, _, lowered_unary h (f := unpremultiply) rfl rfl (fun _ ↦ rfl) (fun _ _ ↦ rfl) rfl
      (fun _ _ _ ↦ rfl) fun _ ↦ rfl⟩
  | convert conversion =>
    obtain ⟨c, b, hi, rfl, h⟩ := hone haccepts
    exact ⟨_, _, lowered_unary h (f := ColorModel.convert conversion) rfl rfl (fun _ ↦ rfl)
      (fun _ _ ↦ rfl) rfl (fun _ _ _ ↦ rfl) fun _ ↦ rfl⟩
  | alpha factor =>
    obtain ⟨c, b, hi, rfl, h⟩ := hone haccepts
    exact ⟨_, _, lowered_unary h (f := fun v ↦ v * Precision.stored.store factor) rfl rfl
      (fun _ ↦ rfl) (fun _ _ ↦ rfl) rfl (fun _ _ _ ↦ rfl) fun _ ↦ rfl⟩
  | normalize =>
    obtain ⟨c, b, hi, rfl, h⟩ := hone haccepts
    exact ⟨_, _, lowered_unary h (f := Vec4.normalized) rfl rfl (fun _ ↦ rfl) (fun _ _ ↦ rfl) rfl
      (fun _ _ _ ↦ rfl) fun _ ↦ rfl⟩
  | filter m =>
    obtain ⟨c, b, hi, rfl, h⟩ := hone haccepts
    exact ⟨_, _, lowered_unary h (f := (m.map Precision.stored.store).apply) rfl rfl (fun _ ↦ rfl)
      (fun _ _ ↦ rfl) rfl (fun _ _ _ ↦ rfl) fun _ ↦ rfl⟩
  | linearBlend ramp accuracy =>
    obtain ⟨zero, one, rfl⟩ := List.length_eq_two.1 haccepts
    obtain ⟨bs, hi, h⟩ := hchain (lo + 4)
    obtain ⟨block, hblock⟩ := lowered_blend (n := n) (k := .linearBlend ramp accuracy) h
      (.linearBlendRatio (ramp.map narrow) accuracy)
      (fun env ↦ (ramp.map Precision.stored.store).ratio (env.sample accuracy)) rfl
      (fun _ ↦ rfl) (fun _ _ ↦ rfl) (fun _ _ ↦ rfl) (fun _ _ _ ↦ rfl) fun _ _ ↦ rfl
    exact ⟨block, hi, hblock⟩
  | radialBlend transform radius0 radius1 accuracy =>
    obtain ⟨zero, one, rfl⟩ := List.length_eq_two.1 haccepts
    obtain ⟨bs, hi, h⟩ := hchain (lo + 4)
    obtain ⟨block, hblock⟩ := lowered_blend (n := n)
      (k := .radialBlend transform radius0 radius1 accuracy) h
      (.radialBlendRatio ((RadialRamp.mk transform.inverse radius0 radius1).map narrow) accuracy)
      (fun env ↦ ((RadialRamp.mk transform.inverse radius0 radius1).map
        Precision.stored.store).ratio (env.sample accuracy)) rfl
      (fun _ ↦ rfl) (fun _ _ ↦ rfl) (fun _ _ ↦ rfl) (fun _ _ _ ↦ rfl) fun _ _ ↦ rfl
    exact ⟨block, hi, hblock⟩
  | linearGradient =>
    obtain ⟨hlength, hpos, -⟩ := haccepts
    obtain ⟨bs, hi, h⟩ := hchain (lo + cs.length + 2)
    obtain ⟨block, hblock⟩ := lowered_linearGradient (List.ne_nil_of_length_pos hpos) hlength h
    exact ⟨block, hi, hblock⟩
  | radialGradient =>
    obtain ⟨hlength, hpos, -⟩ := haccepts
    obtain ⟨bs, hi, h⟩ := hchain (lo + cs.length + 2)
    obtain ⟨block, hblock⟩ := lowered_radialGradient (List.ne_nil_of_length_pos hpos) hlength h
    exact ⟨block, hi, hblock⟩
  | barycentricBlend =>
    obtain ⟨a, b, c, rfl⟩ := List.length_eq_three.1 haccepts
    obtain ⟨bs, hi, h⟩ := hchain lo
    obtain ⟨block, hblock⟩ := lowered_barycentricBlend h
    exact ⟨block, hi, hblock⟩
  | phong =>
    obtain ⟨bs, hi, h⟩ := hchain lo
    obtain ⟨block, hblock⟩ := lowered_phong haccepts.1 haccepts.2 h
    exact ⟨block, hi, hblock⟩
  | blendCompose =>
    obtain ⟨a, b, rfl⟩ := List.length_eq_two.1 haccepts
    obtain ⟨bs, hi, h⟩ := hchain lo
    obtain ⟨block, hblock⟩ := lowered_blendCompose h
    exact ⟨block, hi, hblock⟩
  | stack => exact exists_lowered_stack each lo
  | pathBoolean path => cases hwritable

/-- Nothing else is needed of a program to be lowered than that it can be written. -/
theorem exists_lowered_of_writable {p : Program ι R} (formed : p.Formed)
    (writable : p.Everywhere Kind.Writable) (lo : Nat) : ∃ block hi, p.Lowered lo block hi := by
  induction formed generalizing lo with
  | node haccepts _ ih =>
    obtain ⟨hkind, hcs⟩ := writable
    exact exists_lowered_node haccepts hkind (fun c hc lo ↦ ih c hc (hcs c hc) lo) lo

/-- A valid program without paths is written, wherever its locations start. -/
theorem exists_lowered {p : Program ι R} (h : p.Valid) (hpath : p.PathFree) (lo : Nat) :
    ∃ block hi, p.Lowered lo block hi :=
  exists_lowered_of_writable h.formed (h.writable hpath) lo

end Program

end Shading
