/-!
# Settings

The bounds of an execution, the choices of a compilation, and how much work is done at a time. The
default bounds are the fixed sizes of the device.
-/

namespace Shading

/-- How deep the stacks of an execution may grow and how many steps it may take. -/
structure Limits where
  stackDepth : Nat := 16
  returnDepth : Nat := 16
  iterations : Nat := 100000
deriving DecidableEq, Repr, Inhabited

structure CompileOptions where
  /-- Simplify a program before writing its instructions. -/
  simplify : Bool := true
  limits : Limits := {}
deriving DecidableEq, Repr, Inhabited

/-- How many samples are taken together, and by how many workers. -/
structure Threading where
  parallel : Bool := false
  chunkSize : Nat := 256
  /-- The number of workers; by default as many as there are processors. -/
  threads : Option Nat := none
deriving DecidableEq, Repr, Inhabited

end Shading
