import Shading.Settings
import Shading.Vec4

/-!
# Stacks

The two stacks of the machine, one of values and one of return addresses, neither deeper than its
limit. Both are lists with the top in front.

An operation is a function from stacks to stacks that may fail (`StackM`); one that fails leaves
what it did before failing.
-/

namespace Shading

/-- Why an execution stops without an answer. -/
inductive ExecutionError where
  | stackOverflow (limit : Nat)
  | stackUnderflow
  | emptyStack
  | returnOverflow (limit : Nat)
  | noPendingCall
  /-- At the exit there is not exactly one value, or there are pending returns. -/
  | unfinished (values returns : Nat)
  | iterationCap (limit : Nat)
  | ranPastEnd (index : Nat)
  | phongOperands (needed available : Nat)
  | missingStop (index : Nat)
  | unresolved (location : Nat)
deriving DecidableEq, Repr

def ExecutionError.message : ExecutionError → String
  | .stackOverflow limit => s!"operand stack overflow (limit {limit})"
  | .stackUnderflow => "operand stack underflow"
  | .emptyStack => "operand stack is empty"
  | .returnOverflow limit => s!"return stack overflow (limit {limit})"
  | .noPendingCall => "return without a pending call"
  | .unfinished values returns => s!"exit with {values} values and {returns} pending returns"
  | .iterationCap limit => s!"iteration cap of {limit} reached"
  | .ranPastEnd index => s!"instruction pointer {index} ran past the end"
  | .phongOperands needed available => s!"phong needs {needed} operands, stack has {available}"
  | .missingStop index => s!"gradient stop {index} is missing"
  | .unresolved location => s!"unresolved location L{location}"

/-- The values and the return addresses of an execution, each with the top in front. -/
structure Stacks (R : Type) where
  values : List (Vec4 R) := []
  returns : List Nat := []
deriving Repr, Inhabited

/-- An operation on stacks. -/
abbrev StackM (R : Type) := ExceptT ExecutionError (StateM (Stacks R))

namespace Stacks

variable {R : Type}

def fail {α : Type} (cause : ExecutionError) : StackM R α := fun s ↦ (.error cause, s)

def push (limits : Limits) (value : Vec4 R) : StackM R Unit := fun s ↦
  if s.values.length < limits.stackDepth then (.ok (), { s with values := value :: s.values })
  else (.error (.stackOverflow limits.stackDepth), s)

def pop : StackM R (Vec4 R) := fun s ↦
  match s.values with
  | [] => (.error .stackUnderflow, s)
  | value :: rest => (.ok value, { s with values := rest })

/-- The topmost values, as many as asked for, the deepest first. -/
def popMany : Nat → StackM R (List (Vec4 R))
  | 0 => return []
  | n + 1 => do
    let last ← pop
    return (← popMany n) ++ [last]

/-- The topmost value, which stays. -/
def peek : StackM R (Vec4 R) := fun s ↦
  match s.values with
  | [] => (.error .emptyStack, s)
  | value :: _ => (.ok value, s)

def pushReturn (limits : Limits) (address : Nat) : StackM R Unit := fun s ↦
  if s.returns.length < limits.returnDepth then (.ok (), { s with returns := address :: s.returns })
  else (.error (.returnOverflow limits.returnDepth), s)

def popReturn : StackM R Nat := fun s ↦
  match s.returns with
  | [] => (.error .noPendingCall, s)
  | address :: rest => (.ok address, { s with returns := rest })

/-- The single value that is left when nothing is pending. -/
def finish (s : Stacks R) : Except ExecutionError (Vec4 R) :=
  match s.values, s.returns with
  | [value], [] => .ok value
  | values, returns => .error (.unfinished values.length returns.length)

end Stacks

end Shading
