import Mathlib.Data.List.Nodup
import Shading.Proofs.Program.Coherence

/-!
# Depth-first visits

The nodes of a program in the order in which a depth-first search is done with them for the first
time: the walk over all occurrences, children before parents (`Program.postorder`), from which every
node is dropped that was met before (`Shared.firsts`). Of a known program these are all of its nodes
(`mem_visits`), each of them once (`nodup_visits`), and children come before their parents
(`childrenFirst_visits`).

What was met before is told by numbers. That the same number is the same node is only asked where
the nodes themselves matter.
-/

namespace Shading

variable {ι R : Type}

/-! ### The walk -/

namespace Program

mutual

/-- Every occurrence of a node, after those of its children. -/
def postorder : Program ι R → List (Program ι R)
  | .node n k cs => postorderEach cs ++ [.node n k cs]

def postorderEach : List (Program ι R) → List (Program ι R)
  | [] => []
  | c :: cs => postorder c ++ postorderEach cs

end

/-- Every node of the list comes after its children. -/
inductive ChildrenFirst : List (Program ι R) → Prop
  | nil : ChildrenFirst []
  | snoc {order : List (Program ι R)} {q : Program ι R} :
    ChildrenFirst order → (∀ c ∈ q.children, c ∈ order) → ChildrenFirst (order ++ [q])

variable {p q : Program ι R} {cs order : List (Program ι R)}

/-- A list of programs is visited one after the other. -/
theorem mem_postorderEach : q ∈ postorderEach cs ↔ ∃ c ∈ cs, q ∈ c.postorder := by
  induction cs with
  | nil => simp [postorderEach]
  | cons c cs ih => simp [postorderEach, ih]

theorem mem_postorder_self (p : Program ι R) : p ∈ p.postorder := by
  obtain ⟨n, k, cs⟩ := p
  exact List.mem_append_right _ (List.mem_singleton_self _)

/-- The walk comes to all parts. -/
theorem mem_postorder : q ∈ p.postorder ↔ q.Part p := by
  induction p using Program.induct with
  | node n k cs ih =>
    rw [postorder, List.mem_append, List.mem_singleton, mem_postorderEach, part_node, or_comm]
    refine or_congr_right ⟨?_, ?_⟩
    · rintro ⟨c, hc, h⟩
      exact ⟨c, hc, (ih c hc).1 h⟩
    · rintro ⟨c, hc, h⟩
      exact ⟨c, hc, (ih c hc).2 h⟩

/-- Visiting children in turn keeps children in front of their parents. -/
theorem ChildrenFirst.append_postorderEach (h : ChildrenFirst order)
    (each : ∀ c ∈ cs, ∀ order, ChildrenFirst order → ChildrenFirst (order ++ c.postorder)) :
    ChildrenFirst (order ++ postorderEach cs) := by
  induction cs generalizing order with
  | nil => rwa [postorderEach, List.append_nil]
  | cons c cs ih =>
    rw [List.forall_mem_cons] at each
    rw [postorderEach, ← List.append_assoc]
    exact ih (each.1 order h) each.2

/-- Visiting another program keeps children in front of their parents. -/
theorem ChildrenFirst.append_postorder (h : ChildrenFirst order) (p : Program ι R) :
    ChildrenFirst (order ++ p.postorder) := by
  induction p using Program.induct generalizing order with
  | node n k cs ih =>
    rw [postorder, ← List.append_assoc]
    refine .snoc (h.append_postorderEach fun c hc _ h ↦ ih c hc h) fun c hc ↦ ?_
    exact List.mem_append_right _ (mem_postorderEach.2 ⟨c, hc, mem_postorder_self c⟩)

/-- In postorder, children come before their parents. -/
theorem childrenFirst_postorder (p : Program ι R) : ChildrenFirst p.postorder :=
  ChildrenFirst.nil.append_postorder p

/-- With a node, the list holds its children, and so all of its parts. -/
theorem ChildrenFirst.mem_of_part (h : ChildrenFirst order) (hp : p ∈ order) (part : q.Part p) :
    q ∈ order := by
  have hchild : ∀ p ∈ order, ∀ c ∈ p.children, c ∈ order := by
    clear hp
    induction h with
    | nil => exact nofun
    | @snoc order r _ hr ih =>
      intro p hp c hc
      rcases List.mem_append.1 hp with hp | hp
      · exact List.mem_append_left _ (ih p hp c hc)
      · rw [List.mem_singleton.1 hp] at hc
        exact List.mem_append_left _ (hr c hc)
  induction part with
  | refl => exact hp
  | child hc _ ih => exact ih (hchild _ hp _ hc)

end Program

/-! ### First occurrences -/

namespace Shared

/-- The nodes of a list whose numbers were not seen before, each at its first occurrence. -/
def firsts (seen : List Nat) : List (Shared R) → List (Shared R)
  | [] => []
  | p :: ps =>
    if p.name ∈ seen then firsts seen ps else p :: firsts (seen ++ [p.name]) ps

/-- The nodes of a program in the order in which a depth-first search is done with them for the
first time. -/
def visits (p : Shared R) : List (Shared R) := firsts [] p.postorder

variable {seen : List Nat} {p q : Shared R} {xs ys : List (Shared R)} {nodes : Nodes R}

/-- The first visits of two parts are those of the first, and of the second what is new. -/
theorem firsts_append (seen : List Nat) (xs ys : List (Shared R)) :
    firsts seen (xs ++ ys) =
      firsts seen xs ++ firsts (seen ++ (firsts seen xs).map Program.name) ys := by
  induction xs generalizing seen with
  | nil => simp [firsts]
  | cons x xs ih =>
    rw [List.cons_append, firsts, firsts]
    split
    · exact ih seen
    · rw [ih, List.map_cons, List.append_assoc, List.singleton_append, List.cons_append]

/-- First visits are among all visits. -/
theorem firsts_sublist (seen : List Nat) (xs : List (Shared R)) : (firsts seen xs).Sublist xs := by
  induction xs generalizing seen with
  | nil => exact .slnil
  | cons x xs ih =>
    rw [firsts]
    split
    · exact (ih seen).cons x
    · exact (ih _).cons_cons x

/-- Nothing is new if all names were seen. -/
theorem firsts_eq_nil (h : ∀ x ∈ xs, x.name ∈ seen) : firsts seen xs = [] := by
  induction xs with
  | nil => rfl
  | cons x xs ih =>
    rw [List.forall_mem_cons] at h
    rw [firsts, if_pos h.1, ih h.2]

/-- Every number is seen in the end. -/
theorem name_mem_firsts (hx : q ∈ xs) :
    q.name ∈ seen ++ (firsts seen xs).map Program.name := by
  induction xs generalizing seen with
  | nil => cases hx
  | cons x xs ih =>
    rw [firsts]
    split
    · rename_i hseen
      rcases List.mem_cons.1 hx with rfl | hx
      · exact List.mem_append_left _ hseen
      · exact ih hx
    · rw [List.map_cons, ← List.singleton_append, ← List.append_assoc]
      rcases List.mem_cons.1 hx with rfl | hx
      · exact List.mem_append_left _ (List.mem_append_right _ (List.mem_singleton_self _))
      · exact ih hx

/-- No name is visited twice. -/
theorem nodup_firsts (h : seen.Nodup) : (seen ++ (firsts seen xs).map Program.name).Nodup := by
  induction xs generalizing seen with
  | nil => simpa [firsts] using h
  | cons x xs ih =>
    rw [firsts]
    split
    · exact ih h
    · rename_i hnew
      rw [List.map_cons, ← List.singleton_append, ← List.append_assoc]
      refine ih ?_
      rw [← List.concat_eq_append]
      exact List.Nodup.concat hnew h

/-- Of known nodes, each one was met before or is met for the first time. -/
theorem mem_append_firsts (known : ∀ x ∈ xs ++ ys, x.Known nodes) (hq : q ∈ ys) :
    q ∈ xs ++ firsts (xs.map Program.name) ys := by
  have hname : q.name ∈ (xs ++ firsts (xs.map Program.name) ys).map Program.name := by
    rw [List.map_append]
    exact name_mem_firsts hq
  obtain ⟨x, hx, heq⟩ := List.mem_map.1 hname
  have hmem : x ∈ xs ++ ys :=
    ((List.Sublist.refl xs).append (firsts_sublist _ ys)).subset hx
  rwa [← (known x hmem).eq_of_name_eq (known q (List.mem_append_right _ hq)) heq]

/-- Nodes that were met before are dropped, but children stay before their parents. -/
theorem childrenFirst_firsts (hx : Program.ChildrenFirst xs) (hy : Program.ChildrenFirst ys)
    (known : ∀ x ∈ xs ++ ys, x.Known nodes) :
    Program.ChildrenFirst (xs ++ firsts (xs.map Program.name) ys) := by
  induction hy with
  | nil => rwa [firsts, List.append_nil]
  | @snoc ys q _ hq ih =>
    have hys : ∀ x ∈ xs ++ ys, x.Known nodes := fun x h ↦
      known x (by rw [← List.append_assoc]; exact List.mem_append_left _ h)
    rw [firsts_append, ← List.append_assoc, firsts]
    split
    · rw [firsts, List.append_nil]
      exact ih hys
    · exact .snoc (ih hys) fun c hc ↦ mem_append_firsts hys (hq c hc)

/-- The walk comes to a node only once its children are done. -/
theorem name_notMem_postorderEach {n : Nat} {k : Kind R} {cs : List (Shared R)}
    (known : Shared.Known nodes (.node n k cs)) :
    n ∉ (Program.postorderEach cs).map Program.name := by
  intro h
  obtain ⟨q, hq, hname⟩ := List.mem_map.1 h
  obtain ⟨c, hc, hq⟩ := Program.mem_postorderEach.1 hq
  have part := Program.mem_postorder.1 hq
  obtain rfl := (known.of_part (.child hc part)).eq_of_name_eq known hname
  exact Nat.lt_irrefl _ (Nat.lt_of_le_of_lt part.weight_le (Program.weight_lt_of_mem hc))

/-- Each node is visited once. -/
theorem nodup_visits (p : Shared R) : p.visits.Nodup :=
  List.Nodup.of_map Program.name (nodup_firsts List.nodup_nil)

/-- Whatever is visited in a known program is known. -/
theorem known_of_mem_postorder (known : p.Known nodes) (hq : q ∈ p.postorder) : q.Known nodes :=
  known.of_part (Program.mem_postorder.1 hq)

/-- The nodes that are visited are the parts of the program. -/
theorem mem_visits (known : p.Known nodes) : q ∈ p.visits ↔ q.Part p := by
  rw [← Program.mem_postorder]
  refine ⟨fun h ↦ (firsts_sublist _ _).subset h, fun h ↦ ?_⟩
  have hknown : ∀ x : Shared R, x ∈ [] ++ p.postorder → x.Known nodes :=
    fun _ ↦ known_of_mem_postorder known
  exact mem_append_firsts hknown h

/-- First visits keep children before their parents. -/
theorem childrenFirst_visits (known : p.Known nodes) : Program.ChildrenFirst p.visits :=
  childrenFirst_firsts .nil (Program.childrenFirst_postorder p)
    fun _ ↦ known_of_mem_postorder known

end Shared

end Shading
