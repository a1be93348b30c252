import Shading.Program.Simplify

/-!
# Replacement

The nodes of a whole program replaced, from its leaves, by a rule that may have effects. The rule
sees each node once, with its children already replaced; nodes that are shared stay shared, and
where nothing is replaced the nodes stay the same. Choosing the sides of paths and moving a program
by an affine map are two such rules.
-/

namespace Shading

variable {R : Type}

/-- What has been put in the place of numbered nodes so far. -/
abbrev Memo (R : Type) := Std.HashMap Nat (Shared R)

/-- Replacing, with the state of the rule on top of the workspace. -/
abbrev Replacing (σ R : Type) := StateT (Memo R) (StateT σ (Build R))

variable {σ : Type}

mutual

/-- The program that replaces a node, from the memo or by the rule. -/
def replaceNode (rule : Shared R → StateT σ (Build R) (Option (Shared R))) :
    Shared R → Replacing σ R (Shared R)
  | .node n k cs => do
    match (← get)[n]? with
    | some done => return done
    | none =>
      let children ← replaceEach rule cs
      let rebuilt ← (Build.rebuild (.node n k cs) children : Build R (Shared R))
      let out := (← (rule rebuilt : StateT σ (Build R) _)).getD rebuilt
      modify (·.insert n out)
      return out

def replaceEach (rule : Shared R → StateT σ (Build R) (Option (Shared R))) :
    List (Shared R) → Replacing σ R (List (Shared R))
  | [] => return []
  | c :: cs => do
    let c ← replaceNode rule c
    return c :: (← replaceEach rule cs)

end

namespace Build

/-- The program with every node replaced by the rule, children first. -/
def replace (rule : Shared R → StateT σ (Build R) (Option (Shared R))) (p : Shared R) :
    StateT σ (Build R) (Shared R) := do
  let (out, _) ← (replaceNode rule p).run {}
  return out

/-- The program with every node replaced by a rule without a state. -/
def replaceBy (rule : Shared R → Build R (Option (Shared R))) (p : Shared R) :
    Build R (Shared R) := do
  let (out, _) ← (replace (fun q ↦ (rule q : StateT Unit (Build R) _)) p).run ()
  return out

/-- The program with the side of every path chosen. -/
def withPathInclusion (isInside : Path → Bool) (p : Shared R) : Build R (Shared R) :=
  replaceBy (fun q ↦ match q with
    | .node _ (.pathBoolean path) children => return children[if isInside path then 0 else 1]?
    | _ => return none) p

end Build

variable [Scalar R]

/-- A position dependent kind that samples the preimage of where it sampled before. -/
def Kind.transformed? (m : Affine R) : Kind R → Option (Kind R)
  | .linearBlend ramp accuracy =>
    let i := m.inverse
    let n := ramp.normal
    some (.linearBlend
      ⟨⟨i.a * n.x + i.b * n.y, i.c * n.x + i.d * n.y⟩, ramp.offset - n.dot ⟨i.e, i.f⟩⟩ accuracy)
  | .radialBlend transform radius0 radius1 accuracy =>
    some (.radialBlend (m.compose transform) radius0 radius1 accuracy)
  | .barycentricBlend corners depths accuracy =>
    some (.barycentricBlend (corners.map m.apply) depths accuracy)
  | .linearGradient transform start stop ratios extend accuracy =>
    some (.linearGradient (m.compose transform) start stop ratios extend accuracy)
  | .radialGradient transform start startRadius stop stopRadius ratios extend accuracy =>
    some (.radialGradient (m.compose transform) start startRadius stop stopRadius ratios extend
      accuracy)
  | _ => none

/-- The program moved by an affine map. -/
def Build.transformed (m : Affine R) (p : Shared R) :
    Build R (Except ValidationError (Shared R)) :=
  match checkTransform .programTransform m with
  | .error cause => return .error cause
  | .ok () => return .ok (← replaceBy (fun q ↦ do
      match q.kind.transformed? m with
      | some kind => return some (← Build.node kind q.children)
      | none => return none) p)

mutual

/-- The plain tree with every node replaced by the rule, children first. -/
def Program.replaceBottomUp (rule : Tree R → Option (Tree R)) : Tree R → Tree R
  | .node n k cs =>
    let rebuilt := .node n k (replaceBottomUpEach rule cs)
    (rule rebuilt).getD rebuilt

def Program.replaceBottomUpEach (rule : Tree R → Option (Tree R)) : List (Tree R) → List (Tree R)
  | [] => []
  | c :: cs => replaceBottomUp rule c :: replaceBottomUpEach rule cs

end

end Shading
