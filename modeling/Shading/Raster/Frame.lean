import Shading.Validation
import Shading.Vec4

/-!
# Frames

Premultiplied pixels of four bytes each, row by row, and the passage from colors to bytes.
-/

namespace Shading

/-- An image of premultiplied pixels. -/
structure Frame where
  width : Nat
  height : Nat
  /-- Red, green, blue and alpha of each pixel, row by row. -/
  data : Array UInt8
deriving DecidableEq, Repr, Inhabited

/-- Numbers that become bytes. -/
class ByteRounding (R : Type) where
  /-- The nearest byte of a number between 0 and 255, a half rounded up; `NaN` gives zero. -/
  roundByte : R → UInt8

instance : ByteRounding Float where
  roundByte x := x.round.toUInt8

/-- The four bytes of a color, each channel clamped to the unit interval first. -/
def quantize {R : Type} [Scalar R] [ByteRounding R] (c : Vec4 R) : Vec4 UInt8 :=
  (c.clamped 0 1).map fun a ↦ ByteRounding.roundByte (a * 255)

namespace Frame

/-- The number of bytes that memory can hold. -/
def memoryLimit : Nat := 18446744073709551616

/-- A frame of transparent pixels. -/
def new (width height : Nat) : Except ValidationError Frame := do
  require (width * height * 4 < memoryLimit) .frameOverflow
  return ⟨width, height, Array.replicate (width * height * 4) 0⟩

/-- The pixel in a column and a row. -/
def pixel? (frame : Frame) (x y : Nat) : Option (Vec4 UInt8) := do
  if x < frame.width && y < frame.height then
    let i := (y * frame.width + x) * 4
    return ⟨← frame.data[i]?, ← frame.data[i + 1]?, ← frame.data[i + 2]?, ← frame.data[i + 3]?⟩
  else none

/-- A premultiplied byte divided by its alpha, to the nearest byte. -/
def straightByte (alpha c : UInt8) : UInt8 :=
  if alpha = 0 then 0
  else UInt8.ofNat (Nat.min ((c.toNat * 255 + alpha.toNat / 2) / alpha.toNat) 255)

/-- Pixels divided by their alpha; bytes that do not fill a pixel stay. -/
def straightBytes : List UInt8 → List UInt8
  | r :: g :: b :: a :: rest =>
    straightByte a r :: straightByte a g :: straightByte a b :: a :: straightBytes rest
  | rest => rest

/-- The bytes of the frame with straight alpha; there have to be enough for its size. -/
def straight (frame : Frame) : Except ValidationError (List UInt8) := do
  let needed := frame.width * frame.height * 4
  require (needed ≤ frame.data.size && needed < memoryLimit) .frameSize
  return straightBytes frame.data.toList

end Frame

end Shading
