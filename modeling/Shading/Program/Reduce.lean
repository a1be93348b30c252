import Shading.Program.Evaluate
import Shading.Program.Flags

/-!
# Reducing a node

One step of simplification, at a node whose children are simplified already: a node that is known to
be transparent, or whose children are all constants, becomes a constant; an operation that does
nothing is left out; nested stacks become one, without layers that cannot be seen.

Shape decisions: a step does not build anything. It answers either with a program that is there
already or with the kind and children of a node yet to be made, so the same steps serve shared
programs, where a node has to be numbered, and plain trees. It is told how programs are compared.
-/

namespace Shading

variable {ι R : Type}

/-- What a node is replaced by. -/
inductive Replacement (ι R : Type) where
  | existing (p : Program ι R)
  | fresh (kind : Kind R) (children : List (Program ι R))

variable [ColorModel R]

/-- The constant transparent program. -/
def Replacement.transparent : Replacement ι R := .fresh (.color .zero) []

/-- The constant that a kind makes of constant children, if it is finite. -/
def Kind.foldConstant? (kind : Kind R) (children : List (Program ι R)) : Option (Vec4 R) := do
  let inputs ← children.mapM Program.color?
  let value ← kind.pointwise? inputs
  if value.isFinite then some value else none

/-- Neighbouring elements agree. -/
def allAlike {α : Type} (same : α → α → Bool) : List α → Bool
  | a :: b :: rest => same a b && allAlike same (b :: rest)
  | _ => true

/-- The layers of a stack with the layers of the stacks among them in place of those. -/
def flattenLayers : List (Program ι R) → List (Program ι R)
  | [] => []
  | .node _ .stack layers :: rest => layers ++ flattenLayers rest
  | layer :: rest => layer :: flattenLayers rest

/-- The layers, given from the top, down to the first opaque one. -/
def uncovered : List (Program ι R) → List (Program ι R)
  | [] => []
  | layer :: below => if layer.isOpaque then [layer] else layer :: uncovered below

/-- The layers, given from the bottom, that no opaque layer lies on top of. -/
def visibleLayers (layers : List (Program ι R)) : List (Program ι R) :=
  (uncovered layers.reverse).reverse

/-- A stack without nested stacks, transparent layers and layers below an opaque one. -/
def simplifyStack? (children : List (Program ι R)) : Option (Replacement ι R) :=
  let flat := flattenLayers children
  let layers := visibleLayers (flat.filter (!·.isTransparent))
  let changed := children.any (·.kind.isStack) || layers.length != flat.length
  match layers with
  | [] => some .transparent
  | [layer] => some (.existing layer)
  | _ => if changed then some (.fresh .stack layers) else none

/-- The first of some children, if they all agree. -/
def collapseAlike? (same : Program ι R → Program ι R → Bool) (children : List (Program ι R)) :
    Option (Replacement ι R) :=
  match children with
  | first :: _ => if allAlike same children then some (.existing first) else none
  | [] => none

/-- The rules of single kinds. -/
def reduceKind? (same : Program ι R → Program ι R → Bool) (kind : Kind R)
    (children : List (Program ι R)) : Option (Replacement ι R) :=
  match kind, children with
  | .alpha factor, [child] =>
    if factor == 1 then some (.existing child)
    else match child with
      | .node _ (.alpha inner) grandchildren =>
        some (.fresh (.alpha (factor * inner)) grandchildren)
      | _ => none
  | .convert outer, [.node _ (.convert inner) [grandchild]] =>
    if inner.inverse = outer then some (.existing grandchild) else none
  | .linearBlend .., _ | .radialBlend .., _ | .barycentricBlend .., _ | .linearGradient .., _ =>
    collapseAlike? same children
  | .radialGradient transform start startRadius stop stopRadius _ _ _, _ =>
    if (Kind.circlePair transform start startRadius stop stopRadius).coversPlane then
      collapseAlike? same children
    else none
  | .stack, _ => simplifyStack? children
  | .blendCompose .over .normal, [a, b] =>
    if a.isTransparent then some (.existing b)
    else if b.isTransparent || a.isOpaque then some (.existing a)
    else none
  | .pathBoolean _, [inside, outside] =>
    if same inside outside then some (.existing inside) else none
  | _, _ => none

/-- What a node is replaced by, if any rule applies to it. -/
def reduce? (same : Program ι R → Program ι R → Bool) (p : Program ι R) :
    Option (Replacement ι R) :=
  if p.color?.isSome then none
  else if p.isTransparent then some .transparent
  else match p.kind.foldConstant? p.children with
    | some value => some (.fresh (.color value) [])
    | none => reduceKind? same p.kind p.children

end Shading
