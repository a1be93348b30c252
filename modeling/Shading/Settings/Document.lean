import Shading.Json.Fields
import Shading.Json.Reader
import Shading.Settings

/-!
# Settings as documents

Limits, options and threading as JSON documents. Every field may be left out.
-/

namespace Shading

/-- The greatest count of a machine word. -/
def wordBound : Nat := 18446744073709551615

namespace Json

def limits? (j : Json) : Option Limits := do
  let s ← slots? ["max_stack_depth", "max_return_depth", "max_iterations"] j
  let standard : Limits := {}
  return ⟨← s.defaulted 0 standard.stackDepth (natural? wordBound),
    ← s.defaulted 1 standard.returnDepth (natural? wordBound),
    ← s.defaulted 2 standard.iterations (natural? wordBound)⟩

def options? (j : Json) : Option CompileOptions := do
  let s ← slots? ["simplify", "limits"] j
  return ⟨← s.defaulted 0 true bool?, ← s.defaulted 1 {} limits?⟩

def threading? (j : Json) : Option Threading := do
  let s ← slots? ["parallel", "chunk_size", "threads"] j
  let standard : Threading := {}
  return ⟨← s.defaulted 0 standard.parallel bool?,
    ← s.defaulted 1 standard.chunkSize (natural? wordBound),
    ← s.defaulted 2 standard.threads (Slots.orNull (natural? wordBound))⟩

end Json

/-- The limits of a document. -/
def Limits.ofText? (text : String) : Option Limits := do Json.limits? (← Json.parse? text)

/-- The options of a document. -/
def CompileOptions.ofText? (text : String) : Option CompileOptions := do
  Json.options? (← Json.parse? text)

/-- The threading of a document. -/
def Threading.ofText? (text : String) : Option Threading := do
  Json.threading? (← Json.parse? text)

end Shading
