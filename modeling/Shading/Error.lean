import Shading.Code.Decode
import Shading.Code.Encode
import Shading.Code.Writer
import Shading.Decimal.Layout
import Shading.Machine.Stack
import Shading.Program.Evaluate
import Shading.Program.Resources
import Shading.Validation

/-!
# Errors

The causes of failure of all parts of the library under one type, and their wording.
-/

namespace Shading

/-- A cause of failure. -/
inductive Error (R : Type) where
  | validation (cause : ValidationError)
  | lowering (cause : LoweringError R)
  | encode (cause : EncodeError)
  | decode (cause : DecodeError)
  | evaluation (cause : EvaluationError)
  | execution (cause : ExecutionError)
  | limits (cause : LimitError)
  /-- A text is not a document of the expected form. -/
  | document

/-- A number in a message. -/
def doubleText (x : Float) : String := Layout.message.write (.ofDouble x.toBits)

/-- A color in a message. -/
def colorText (c : Vec4 Float) : String :=
  s!"Vec4 \x7b x: {doubleText c.x}, y: {doubleText c.y}, z: {doubleText c.z}, " ++
    s!"w: {doubleText c.w} \x7d"

def LoweringError.message : LoweringError Float → String
  | .notFinite color => s!"color {colorText color} is not finite"
  | .unresolvedPath id => s!"path boolean for path {id} must be resolved before compiling"
  | .malformed kind => s!"cannot compile {kind}"

/-- The full wording of a failure. -/
def Error.message : Error Float → String
  | .validation cause => "validation error: " ++ cause.message
  | .lowering cause => "compile error: " ++ cause.message
  | .encode cause => "encode error: " ++ cause.message
  | .decode cause => "decode error: " ++ cause.message
  | .evaluation cause => "execution error: " ++ cause.message
  | .execution cause => "execution error: " ++ cause.message
  | .limits cause => "limits error: " ++ cause.message
  | .document => "serialization error"

end Shading
