import Shading.Code.Basic
import Shading.Validation

/-!
# Linking

A list of instructions with its marks resolved: jumps refer to indices of instructions, and all of
them go forward. What is linked is executed without looking at locations again.
-/

namespace Shading

/-- Instructions whose references are indices. -/
structure Linked where
  code : Array (Instruction Nat)
deriving Repr

/-- The indices that the locations of a list mark, the latest first, given the marks before it and
the index that comes next. -/
def markedIndices (next : Nat) (table : List (Nat × Nat)) :
    List Line → Except ValidationError (List (Nat × Nat))
  | [] => .ok table
  | .mark location :: rest =>
    if (table.lookup location).isSome then .error (.declaredTwice location)
    else markedIndices next ((location, next) :: table) rest
  | .op _ :: rest => markedIndices (next + 1) table rest

/-- The targets of the instruction at an index are marked ahead of it. -/
def checkForward (table : List (Nat × Nat)) (index : Nat) :
    List Nat → Except ValidationError Unit
  | [] => .ok ()
  | location :: rest =>
    match table.lookup location with
    | none => .error (.undeclared location)
    | some target =>
      if target ≤ index then .error (.backwardJump index location)
      else checkForward table index rest

/-- Instructions from an index on, with indices in place of locations. -/
def linkFrom (table : List (Nat × Nat)) (index : Nat) :
    List (Instruction Nat) → Except ValidationError (List (Instruction Nat))
  | [] => .ok []
  | i :: rest => do
    checkForward table index i.targets
    return i.map (fun l ↦ (table.lookup l).getD 0) :: (← linkFrom table (index + 1) rest)

/-- A list with its marks resolved. -/
def link (lines : List Line) : Except ValidationError Linked := do
  let table ← markedIndices 0 [] lines
  let code ← linkFrom table 0 (Line.instructions lines)
  return ⟨code.toArray⟩

end Shading
