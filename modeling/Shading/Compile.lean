import Shading.Error
import Shading.Machine.Executable
import Shading.Program.Simplify

/-!
# Compilation

From a program to instructions under the limits of an execution, and from there, or from a stream of
words, to what is executed: a program with its table of locations, or linked code.
-/

namespace Shading

variable {R : Type}

/-- The instructions of a program, simplified first if asked for, within the limits. -/
def compile [ColorModel R] [Rounding R Single] (options : CompileOptions) (p : Shared R) :
    Build R (Except (Error R) (List Line)) := do
  let p ← if options.simplify then Build.simplified p else pure p
  match p.resources.check options.limits with
  | .error cause => return .error (.limits cause)
  | .ok () => return (p.instructions).mapError .lowering

/-- A list of instructions, ready for execution. -/
def Executable.ofLines (lines : List Line) : Except (Error R) Executable :=
  (load lines).mapError .validation

/-- The stream that starts at an address of a buffer, ready for execution. -/
def Executable.ofWords (words : List UInt32) (offset : Nat) : Except (Error R) Executable := do
  Executable.ofLines (← (decode words offset).mapError .decode)

/-- A list of instructions, linked. -/
def Linked.ofLines (lines : List Line) : Except (Error R) Linked :=
  (link lines).mapError .validation

/-- The stream that starts at an address of a buffer, linked. -/
def Linked.ofWords (words : List UInt32) (offset : Nat) : Except (Error R) Linked := do
  Linked.ofLines (← (decode words offset).mapError .decode)

end Shading
