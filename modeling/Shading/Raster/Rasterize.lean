import Shading.Machine.Batch
import Shading.Raster.Frame

/-!
# Rasterization

A program evaluated once for each pixel of a frame, with the pixel a fully covered unit square.
-/

namespace Shading

variable {R : Type} [ColorModel R] [Rounding R Single] [ByteRounding R]

/-- A coordinate of a pixel; coordinates are signed and have 32 bits. -/
def pixelCoordinate (n : Nat) : Int := Int.bmod n 4294967296

/-- The bytes of the pixel in a column and a row. -/
def rasterPixel (program : Linked) (x y : Nat) : Except ExecutionError (List UInt8) := do
  let ctx : Context R := .fullPixel (pixelCoordinate x) (pixelCoordinate y)
  return (quantize (← Machine.execute {} program ctx)).toList

/-- The bytes of a part of a row. -/
def rasterRow (program : Linked) (y : Nat) : List Nat → Except ExecutionError (List UInt8)
  | [] => .ok []
  | x :: xs => do
    return (← rasterPixel (R := R) program x y) ++ (← rasterRow program y xs)

/-- The bytes of some rows. -/
def rasterRows (program : Linked) (width : Nat) : List Nat → Except ExecutionError (List UInt8)
  | [] => .ok []
  | y :: ys => do
    return (← rasterRow (R := R) program y (List.range width)) ++
      (← rasterRows program width ys)

/-- The frame of a program. A frame without pixels needs no worker. -/
def rasterize (program : Linked) (width height : Nat) (threading : Threading) :
    Except (Error R) Frame := do
  let frame ← (Frame.new width height).mapError .validation
  if frame.data.isEmpty then return frame
  else
    threading.check.mapError .validation
    let data ← (rasterRows (R := R) program width (List.range height)).mapError .execution
    return { frame with data := data.toArray }

end Shading
