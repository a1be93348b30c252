import Mathlib.Data.List.Perm.Subperm
import Std.Data.HashSet.Lemmas
import Shading.Proofs.Program.Coherence

/-!
# Counting nodes

The nodes of a program are collected by a search that leaves out what it has seen. Of a known
program it finds the numbers of all parts (`mem_collect_empty`): a node is seen before its parts,
but the parts of lighter nodes that were seen have been seen as well (`SeenThrough`), and the
search only ever comes to lighter nodes.

So a program has at most as many nodes as another one, if each of its parts is found from the
number of a part of the other (`distinctCount_le`).
-/

namespace Shading

variable {R : Type}

namespace Shared

variable {nodes : Nodes R} {seen : Std.HashSet Nat} {bound : Nat} {p : Shared R}
  {cs : List (Shared R)}

/-- With each node lighter than the bound, all its parts have been seen. -/
def SeenThrough (nodes : Nodes R) (bound : Nat) (seen : Std.HashSet Nat) : Prop :=
  ∀ x : Shared R, x.Known nodes → x.weight < bound → x.name ∈ seen →
    ∀ q : Shared R, q.Part x → q.name ∈ seen

/-- Seeing a program with all its parts keeps it so. -/
theorem SeenThrough.of_parts {seen' : Std.HashSet Nat} (h : SeenThrough nodes bound seen)
    (hp : p.Known nodes)
    (hseen : ∀ n, n ∈ seen' ↔ n ∈ seen ∨ ∃ q : Shared R, q.Part p ∧ q.name = n) :
    SeenThrough nodes bound seen' := by
  intro x hx hlight hname q part
  rw [hseen] at hname ⊢
  rcases hname with hname | ⟨y, hy, hname⟩
  · exact .inl (h x hx hlight hname q part)
  · cases (hp.of_part hy).eq_of_name_eq hx hname
    exact .inr ⟨q, part.trans hy, rfl⟩

/-- Collecting from children adds the names of their parts to those that were seen. -/
theorem mem_collectEach
    (each : ∀ c ∈ cs, ∀ seen, SeenThrough nodes bound seen → ∀ n,
      n ∈ collect seen c ↔ n ∈ seen ∨ ∃ q : Shared R, q.Part c ∧ q.name = n)
    (known : ∀ c ∈ cs, c.Known nodes) (h : SeenThrough nodes bound seen) (n : Nat) :
    n ∈ collectEach seen cs ↔ n ∈ seen ∨ ∃ c ∈ cs, ∃ q : Shared R, q.Part c ∧ q.name = n := by
  induction cs generalizing seen with
  | nil => simp [collectEach]
  | cons c cs ih =>
    rw [List.forall_mem_cons] at each known
    have hfirst := each.1 seen h
    have hrest := ih each.2 known.2 (h.of_parts known.1 hfirst)
    rw [collectEach, hrest, hfirst, or_assoc]
    simp only [List.exists_mem_cons_iff]

/-- The search adds the numbers of all parts. -/
theorem mem_collect (hp : p.Known nodes) (hlight : p.weight < bound)
    (h : SeenThrough nodes bound seen) (n : Nat) :
    n ∈ collect seen p ↔ n ∈ seen ∨ ∃ q : Shared R, q.Part p ∧ q.name = n := by
  induction p using Program.induct generalizing bound seen n with
  | node m k cs ih =>
    rw [collect]
    split
    · rename_i hseen
      have hall := h _ hp hlight (Std.HashSet.mem_iff_contains.2 hseen)
      refine ⟨.inl, ?_⟩
      rintro (hn | ⟨q, part, rfl⟩)
      · exact hn
      · exact hall q part
    · rename_i hseen
      -- The node itself is too heavy to be asked for its parts while they are searched.
      have hchildren : SeenThrough nodes (Program.node m k cs).weight (seen.insert m) := by
        intro x hx hlighter hname q part
        rw [Std.HashSet.mem_insert] at hname ⊢
        rcases hname with hname | hname
        · cases hp.eq_of_name_eq hx (eq_of_beq hname)
          exact absurd hlighter (Nat.lt_irrefl _)
        · exact .inr (h x hx (Nat.lt_trans hlighter hlight) hname q part)
      rw [mem_collectEach (fun c hc seen hseen n ↦
          ih c hc (hp.of_mem c hc) (Program.weight_lt_of_mem hc) hseen n) hp.of_mem hchildren,
        Std.HashSet.mem_insert, beq_iff_eq, or_comm (a := m = n), or_assoc]
      refine or_congr_right ⟨?_, ?_⟩
      · rintro (rfl | ⟨c, hc, q, part, rfl⟩)
        · exact ⟨_, .refl _, rfl⟩
        · exact ⟨q, .child hc part, rfl⟩
      · rintro ⟨q, part, rfl⟩
        rcases Program.part_node.1 part with rfl | ⟨c, hc, part⟩
        · exact .inl rfl
        · exact .inr ⟨c, hc, q, part, rfl⟩

/-- Collecting from a program finds the names of its parts. -/
theorem mem_collect_empty (hp : p.Known nodes) (n : Nat) :
    n ∈ collect {} p ↔ ∃ q : Shared R, q.Part p ∧ q.name = n := by
  have hempty : SeenThrough nodes (p.weight + 1) {} := fun _ _ _ h ↦
    absurd h Std.HashSet.not_mem_empty
  rw [mem_collect hp (Nat.lt_succ_self _) hempty]
  simp

/-- A program whose nodes are all found from the nodes of another one has no more of them. -/
theorem distinctCount_le {q : Shared R} (hp : p.Known nodes) (hq : q.Known nodes)
    (found : Shared R → Shared R)
    (h : ∀ y : Shared R, y.Part q → ∃ c : Shared R, c.Part p ∧ found c = y) :
    q.distinctCount ≤ p.distinctCount := by
  -- Numbers tell known nodes apart, so what is found from a node is found from its number.
  let number (n : Nat) : Nat := ((nodes n).map fun c ↦ (found c).name).getD n
  have hnodup : (collect {} q).toList.Nodup :=
    Std.HashSet.distinct_toList.imp fun hne ↦ ne_of_beq_false hne
  have hsubset : (collect {} q).toList ⊆ (collect {} p).toList.map number := by
    intro n hn
    obtain ⟨y, hy, rfl⟩ := (mem_collect_empty hq n).1 (Std.HashSet.mem_toList.1 hn)
    obtain ⟨c, hc, rfl⟩ := h y hy
    have hnumber : number c.name = (found c).name := by
      simp only [number, (hp.of_part hc).eq_some, Option.map_some, Option.getD_some]
    exact List.mem_map.2
      ⟨c.name, Std.HashSet.mem_toList.2 ((mem_collect_empty hp _).2 ⟨c, hc, rfl⟩), hnumber⟩
  have hlength := (List.subperm_of_subset hnodup hsubset).length_le
  rwa [List.length_map, Std.HashSet.length_toList, Std.HashSet.length_toList] at hlength

end Shared

end Shading
