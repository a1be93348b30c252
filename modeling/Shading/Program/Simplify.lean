import Shading.Program.Reduce
import Shading.Program.Workspace

/-!
# Simplification

A program is simplified from its leaves: first the children of a node, then the node rebuilt over
them, and what a reduction step puts in its place once more. What is found for a node is noted in
the workspace, so a node is looked at once, always has the same answer, and an answer is its own
simplification.

Shape decisions: the recursion is bounded by `weight`, which a step always lowers, since a node
counts for more than a constant. The bound never cuts a simplification short.
-/

namespace Shading

variable {R : Type} [ColorModel R]

/-- Two for each node that is not a constant, one for a constant. -/
def Program.weight {ι : Type} : Program ι R → Nat :=
  fold fun kind weights ↦ (if kind.color?.isSome then 1 else 2) + total weights

namespace Build

/-- The program that takes the place of a node. -/
def place : Replacement Nat R → Build R (Shared R)
  | .existing p => return p
  | .fresh kind children => node kind children

/-- The node itself if its children are the given ones, else a new node of its kind over them. -/
def rebuild (p : Shared R) (children : List (Shared R)) : Build R (Shared R) :=
  if unchanged children p.children then return p else node p.kind children
where
  unchanged : List (Shared R) → List (Shared R) → Bool
    | c :: cs, d :: ds => c.identical d && unchanged cs ds
    | _, _ => true

/-- The simplification of a program, by no more than the given number of nested steps. -/
def simplifyWithin : Nat → Shared R → Build R (Shared R)
  | 0, p => return p
  | fuel + 1, p => do
    match ← settled? p with
    | some .itself => return p
    | some (.replaced q) => return q
    | none =>
      let children ← p.children.mapM (simplifyWithin fuel)
      let rebuilt ← rebuild p children
      match reduce? Shared.eq rebuilt with
      | some replacement =>
        let q ← simplifyWithin fuel (← place replacement)
        settle p (.replaced q)
        return q
      | none =>
        settle rebuilt .itself
        unless rebuilt.identical p do settle p (.replaced rebuilt)
        return rebuilt

/-- The simplification of a program. -/
def simplified (p : Shared R) : Build R (Shared R) := simplifyWithin (p.weight + 1) p

/-- The program is known to be its own simplification. -/
def isSimplified (p : Shared R) : Build R Bool := do
  match ← settled? p with
  | some .itself => return true
  | _ => return false

end Build

end Shading
