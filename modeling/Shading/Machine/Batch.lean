import Shading.Error
import Shading.Machine.Executor

/-!
# Batches

One program for many samples. How the samples are spread over workers does not change the colors;
only the request for no worker at all is refused.
-/

namespace Shading

variable {R : Type}

/-- The settings name a possible number of workers, if workers are asked for. -/
def Threading.check (threading : Threading) : Except ValidationError Unit :=
  require (!(threading.parallel && threading.threads == some 0)) .noThreads

namespace Machine

variable [ColorModel R] [Rounding R Single]

/-- The colors of all contexts, in order, or the first failure. -/
def executeAll (limits : Limits) (program : Linked) :
    List (Context R) → Except ExecutionError (List (Vec4 R))
  | [] => .ok []
  | ctx :: rest => do
    return (← execute limits program ctx) :: (← executeAll limits program rest)

/-- The colors of all contexts by workers as the settings say. -/
def evaluateBatch (limits : Limits) (threading : Threading) (program : Linked)
    (contexts : List (Context R)) : Except (Error R) (List (Vec4 R)) := do
  threading.check.mapError .validation
  (executeAll limits program contexts).mapError .execution

end Machine

end Shading
