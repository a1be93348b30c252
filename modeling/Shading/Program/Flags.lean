import Shading.Program.Basic

/-!
# Flags

Facts about a program that follow from its structure alone: whether it is transparent or opaque
everywhere, and what it may read from its context. The flags of a node depend on its kind and on the
flags of its children.
-/

namespace Shading

/-- What is known of a program without evaluating it. -/
structure Flags where
  /-- Zero everywhere. -/
  transparent : Bool := false
  /-- Of alpha one everywhere. -/
  covers : Bool := false
  /-- Faces have to be supplied. -/
  needsFace : Bool := false
  /-- Areas have to be supplied. -/
  needsArea : Bool := false
  /-- Centroids have to be supplied. -/
  needsCentroid : Bool := false
  /-- The node itself is a choice between the sides of a path. -/
  pathBoolean : Bool := false
deriving DecidableEq, Repr, Inhabited

/-- Whether a program is transparent, and whether it is opaque. -/
structure Coverage where
  transparent : Bool
  covers : Bool
deriving DecidableEq, Repr

/-- The coverage of a composition from the flags of source and backdrop. -/
def Compose.coverage (a b : Flags) : Compose → Coverage
  | .over | .plusLighter => ⟨a.transparent && b.transparent, a.covers || b.covers⟩
  | .inside => ⟨a.transparent || b.transparent, a.covers && b.covers⟩
  | .outside => ⟨a.transparent || b.covers, a.covers && b.transparent⟩
  | .atop => ⟨b.transparent, b.covers⟩
  | .xor =>
    ⟨(a.transparent && b.transparent) || (a.covers && b.covers),
      (a.covers && b.transparent) || (a.transparent && b.covers)⟩
  | .plus =>
    ⟨a.transparent && b.transparent,
      (a.covers && b.transparent) || (a.transparent && b.covers)⟩

namespace Kind

variable {R : Type} [Scalar R]

/-- The coverage of a node from its kind and the flags of its children. -/
def coverage (kind : Kind R) (children : List Flags) : Coverage :=
  let child (i : Nat) : Flags := children[i]?.getD {}
  let allTransparent := children.all (·.transparent)
  let allOpaque := children.all (·.covers)
  match kind with
  | .color c => ⟨c.eq .zero, c.w == 1⟩
  | .premultiply | .unpremultiply | .convert _ => ⟨(child 0).transparent, (child 0).covers⟩
  | .alpha factor =>
    ⟨factor == 0 || (child 0).transparent, factor == 1 && (child 0).covers⟩
  | .normalize => ⟨(child 0).transparent, false⟩
  | .filter _ => ⟨false, false⟩
  | .linearBlend .. | .radialBlend .. | .barycentricBlend .. | .linearGradient ..
  | .pathBoolean _ => ⟨allTransparent, allOpaque⟩
  | .radialGradient transform start startRadius stop stopRadius _ _ _ =>
    ⟨allTransparent,
      allOpaque && (circlePair transform start startRadius stop stopRadius).coversPlane⟩
  | .phong _ => ⟨false, (child 0).covers⟩
  | .blendCompose compose _ => compose.coverage (child 0) (child 1)
  | .stack => ⟨allTransparent, children.any (·.covers)⟩

/-- The flags of a node from its kind and the flags of its children. -/
def flags (kind : Kind R) (children : List Flags) : Flags :=
  let coverage := kind.coverage children
  let pathBoolean := match kind with
    | .pathBoolean _ => true
    | _ => false
  let readsCentroid := kind.accuracy?.any Accuracy.readsCentroid
  { transparent := coverage.transparent
    covers := coverage.covers
    needsFace :=
      pathBoolean || kind.accuracy?.any Accuracy.needsFace || children.any (·.needsFace)
    needsArea := readsCentroid || children.any (·.needsArea)
    needsCentroid := readsCentroid || children.any (·.needsCentroid)
    pathBoolean := pathBoolean }

end Kind

namespace Program

variable {ι R : Type} [Scalar R]

def flags : Program ι R → Flags := fold Kind.flags

theorem flags_node (n : ι) (k : Kind R) (cs : List (Program ι R)) :
    (node n k cs).flags = k.flags (cs.map flags) := fold_node ..

/-- Known to be zero everywhere. -/
def isTransparent (p : Program ι R) : Bool := p.flags.transparent

/-- Known to have alpha one everywhere. -/
def isOpaque (p : Program ι R) : Bool := p.flags.covers

end Program

end Shading
