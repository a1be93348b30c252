import Shading.Scalar

/-!
# Gradients

Where a position dependent program takes its sample, how a ratio outside the unit interval is
folded back into it, and between which stops of a table a ratio falls.
-/

namespace Shading

/-- Where a position dependent program samples its context. The split cases also ask for faces
split along the boundaries of the program; they sample like the other cases. -/
inductive Accuracy where
  | splitAccurate
  | splitCentroid
  | splitPixelCenter
  | unsplitCentroid
  | unsplitPixelCenter
deriving DecidableEq, Repr

namespace Accuracy

instance : Inhabited Accuracy := ⟨.unsplitPixelCenter⟩

/-- All cases, in the order of their codes. -/
def all : List Accuracy :=
  [.splitAccurate, .splitCentroid, .splitPixelCenter, .unsplitCentroid, .unsplitPixelCenter]

/-- The name of a case in text formats. -/
def name : Accuracy → String
  | .splitAccurate => "split_accurate"
  | .splitCentroid => "split_centroid"
  | .splitPixelCenter => "split_pixel_center"
  | .unsplitCentroid => "unsplit_centroid"
  | .unsplitPixelCenter => "unsplit_pixel_center"

/-- The name of a case in listings. -/
def title : Accuracy → String
  | .splitAccurate => "SplitAccurate"
  | .splitCentroid => "SplitCentroid"
  | .splitPixelCenter => "SplitPixelCenter"
  | .unsplitCentroid => "UnsplitCentroid"
  | .unsplitPixelCenter => "UnsplitPixelCenter"

/-- The position of a case in `all`, its code in headers of instructions. -/
def code : Accuracy → Nat
  | .splitAccurate => 0
  | .splitCentroid => 1
  | .splitPixelCenter => 2
  | .unsplitCentroid => 3
  | .unsplitPixelCenter => 4

/-- The case with a code. -/
def ofCode? (n : Nat) : Option Accuracy := all[n]?

/-- An accuracy is found under its code. -/
theorem ofCode?_code (c : Accuracy) : ofCode? c.code = some c := by
  cases c <;> rfl

theorem code_lt_length (c : Accuracy) : c.code < all.length := by
  cases c <;> decide

/-- The sample is taken at the centroid of the face, not at the center of the pixel. -/
def readsCentroid : Accuracy → Bool
  | .splitAccurate | .splitCentroid | .unsplitCentroid => true
  | .splitPixelCenter | .unsplitPixelCenter => false

/-- The face has to be split along the boundaries of the position dependent program. -/
def needsFace : Accuracy → Bool
  | .splitAccurate | .splitCentroid | .splitPixelCenter => true
  | .unsplitCentroid | .unsplitPixelCenter => false

end Accuracy

/-- What a gradient does with ratios outside the unit interval. -/
inductive Extend where
  /-- The nearest end. -/
  | pad
  /-- Back and forth between the ends. -/
  | reflect
  /-- From the start again. -/
  | wrap
deriving DecidableEq, Repr, Inhabited

namespace Extend

/-- All cases, in the order of their codes. -/
def all : List Extend :=
  [.pad, .reflect, .wrap]

/-- The name of a case in text formats. -/
def name : Extend → String
  | .pad => "pad"
  | .reflect => "reflect"
  | .wrap => "repeat"

/-- The name of a case in listings. -/
def title : Extend → String
  | .pad => "Pad"
  | .reflect => "Reflect"
  | .wrap => "Repeat"

/-- The position of a case in `all`, its code in headers of instructions. -/
def code : Extend → Nat
  | .pad => 0
  | .reflect => 1
  | .wrap => 2

/-- The case with a code. -/
def ofCode? (n : Nat) : Option Extend := all[n]?

/-- An extension is found under its code. -/
theorem ofCode?_code (c : Extend) : ofCode? c.code = some c := by
  cases c <;> rfl

theorem code_lt_length (c : Extend) : c.code < all.length := by
  cases c <;> decide

/-- The ratio moved into the interval from 0 to 1. -/
def apply {K : Type} [Scalar K] : Extend → K → K
  | .pad, t => Scalar.clamp 0 1 t
  | .wrap, t => t - Scalar.floor t
  | .reflect, t =>
    let m := Scalar.modTwo t
    if 1 < m then 2 - m else m

end Extend

/-- Which stops of a table of ratios a ratio falls on. -/
inductive Selection (K : Type) where
  | single (index : Nat)
  /-- Between the stops `index` and `index + 1`, at the given part of the way. -/
  | between (index : Nat) (ratio : K)
deriving DecidableEq, Repr

namespace Selection

variable {K : Type} [Scalar K]

/-- The first gap of the table that ends above `t`. The list holds the stop `index` and those after
it; without such a gap the last stop is taken. -/
def scan (t : K) (index : Nat) : List K → Selection K
  | lower :: upper :: rest =>
    if t < upper then
      let span := upper - lower
      .between index (if 0 < span then (t - lower) / span else 0)
    else scan t (index + 1) (upper :: rest)
  | _ => .single index

/-- The stops that `t` falls on: an end of the table beyond which it lies, or else a gap. -/
def select (ratios : List K) (t : K) : Selection K :=
  match ratios with
  | [] | [_] => .single 0
  | first :: second :: rest =>
    if t ≤ first then .single 0
    else if (second :: rest).getLast (by simp) ≤ t then .single (rest.length + 1)
    else scan t 0 (first :: second :: rest)

end Selection

end Shading
