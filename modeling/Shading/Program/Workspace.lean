import Std.Data.HashMap
import Shading.Program.Valid

/-!
# Workspaces

Programs that share nodes are built in a workspace, which numbers each new node and remembers what
the simplifier found for it. Building is a computation with a workspace as its state (`Build`).

Shape decisions: the only thing a number is good for is to tell nodes apart, so every node made by
`Build.node` gets the next unused one, and a node that is passed around keeps its own. The memory of
the simplifier belongs to the workspace and not to the nodes, which stay plain data.
-/

namespace Shading

/-- What the simplifier found for a node. -/
inductive Settled (R : Type) where
  /-- The node is its own simplification. -/
  | itself
  | replaced (by' : Shared R)

/-- The next unused number, and what is known of the simplification of numbered nodes. -/
structure Workspace (R : Type) where
  next : Nat := 0
  settled : Std.HashMap Nat (Settled R) := {}

/-- A computation that builds programs in a workspace. -/
abbrev Build (R : Type) := StateM (Workspace R)

namespace Build

variable {R : Type}

/-- A new node, unlike any other. -/
def node (kind : Kind R) (children : List (Shared R)) : Build R (Shared R) :=
  fun w ↦ (.node w.next kind children, { w with next := w.next + 1 })

/-- What the simplifier found for a node, if it has looked at it. -/
def settled? (p : Shared R) : Build R (Option (Settled R)) :=
  fun w ↦ (w.settled[p.name]?, w)

/-- Notes what the simplifier found for a node. -/
def settle (p : Shared R) (found : Settled R) : Build R Unit :=
  fun w ↦ ((), { w with settled := w.settled.insert p.name found })

def color (c : Vec4 R) : Build R (Shared R) := node (.color c) []

variable [Scalar R]

/-- The program without any color. -/
def transparent : Build R (Shared R) := color .zero

/-- A new node, if its kind accepts its parameters and the number of its children. -/
def checked (kind : Kind R) (children : List (Shared R)) :
    Build R (Except ValidationError (Shared R)) :=
  match kind.validate children.length with
  | .ok () => return .ok (← node kind children)
  | .error cause => return .error cause

/-- A linear blend that shows its first child at `start` and its second at `stop`. -/
def linearBlendBetween (start stop : Point R) (accuracy : Accuracy) (zero one : Shared R) :
    Build R (Except ValidationError (Shared R)) :=
  let delta := stop - start
  let len := delta.normSq
  if len ≤ Scalar.doubleEpsilon ∨ !Scalar.isFinite len then return .error .endpoints
  else
    let normal := delta.divide len
    checked (.linearBlend ⟨normal, normal.dot start⟩ accuracy) [zero, one]

end Build

end Shading
