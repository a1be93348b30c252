import Mathlib.Algebra.Ring.Nat
import Shading.Raster.Frame

/-!
# Pixels of a frame

Bytes of a frame are counted in two ways. One who fills it in cuts it into rows, and a row into
pixels; one who reads it counts pixels from the start. Both find the same four bytes
(`pixel?_write`), whatever the width is, and no two pixels share a byte.

So a frame that has a pixel for each place of its size is the same as another one if the two show
the same pixels (`eq_of_pixels`): no byte is left over.
-/

namespace Shading.Frame

variable {frame frame' : Frame} {x y x' y' w h : Nat} {c : Vec4 UInt8}

/-- There are four bytes for each pixel of the size. -/
def Whole (frame : Frame) : Prop := frame.data.size = frame.width * frame.height * 4

/-- A frame of transparent pixels. -/
def blank (width height : Nat) : Frame := ⟨width, height, Array.replicate (width * height * 4) 0⟩

/-- A frame that fits into memory is made blank. -/
theorem new_eq_ok (fits : w * h * 4 < memoryLimit) : new w h = .ok (blank w h) := by
  rw [new, require_eq_ok_iff.2 (decide_eq_true fits)]
  rfl

theorem whole_blank (width height : Nat) : (blank width height).Whole :=
  Array.size_replicate ..

/-! ### Places -/

/-- The place of a pixel is within the frame. -/
theorem place_lt (hx : x < w) (hy : y < h) : y * w + x < w * h := by
  have hrow : (y + 1) * w ≤ h * w := Nat.mul_le_mul_right w hy
  rw [Nat.add_mul, Nat.one_mul, Nat.mul_comm h w] at hrow
  omega

/-- Different pixels have different places. -/
theorem place_inj (hx : x < w) (hx' : x' < w) (heq : y * w + x = y' * w + x') :
    x = x' ∧ y = y' := by
  have hmod := congrArg (· % w) heq
  have hdiv := congrArg (· / w) heq
  have hpos : 0 < w := Nat.lt_of_le_of_lt (Nat.zero_le x) hx
  simp only [Nat.mul_add_mod', Nat.mod_eq_of_lt hx, Nat.mod_eq_of_lt hx'] at hmod
  simp only [Nat.add_comm (_ * w), Nat.add_mul_div_right _ _ hpos, Nat.div_eq_of_lt hx,
    Nat.div_eq_of_lt hx', Nat.zero_add] at hdiv
  exact ⟨hmod, hdiv⟩

/-! ### Reading -/

/-- There is no pixel outside. -/
theorem pixel?_eq_none (outside : ¬ (x < frame.width ∧ y < frame.height)) :
    frame.pixel? x y = none := by
  rw [pixel?, if_neg (by simpa using outside)]

/-- A pixel within the frame is its four bytes. -/
theorem pixel?_eq_some_iff (hx : x < frame.width) (hy : y < frame.height) :
    frame.pixel? x y = some c ↔
      ∀ k < 4, frame.data[(y * frame.width + x) * 4 + k]? = c.toList[k]? := by
  obtain ⟨r, g, b, a⟩ := c
  rw [pixel?, if_pos (by simpa using ⟨hx, hy⟩)]
  simp only [bind, Option.bind_eq_some_iff, pure, Option.some_inj, Vec4.mk.injEq, Vec4.toList]
  constructor
  · rintro ⟨_, hr, _, hg, _, hb, _, ha, rfl, rfl, rfl, rfl⟩ k hk
    match k with
    | 0 => exact hr
    | 1 => exact hg
    | 2 => exact hb
    | 3 => exact ha
  · exact fun h ↦ ⟨r, h 0 (by decide), g, h 1 (by decide), b, h 2 (by decide), a, h 3 (by decide),
      rfl, rfl, rfl, rfl⟩

/-- There is a pixel everywhere inside. -/
theorem exists_pixel? (whole : frame.Whole) (hx : x < frame.width) (hy : y < frame.height) :
    ∃ c, frame.pixel? x y = some c := by
  have hplace := place_lt hx hy
  have hsize : frame.data.size = frame.width * frame.height * 4 := whole
  have hbyte (k : Nat) (hk : k < 4) : ∃ b, frame.data[(y * frame.width + x) * 4 + k]? = some b :=
    ⟨_, Array.getElem?_eq_getElem (by omega)⟩
  obtain ⟨r, hr⟩ := hbyte 0 (by decide)
  obtain ⟨g, hg⟩ := hbyte 1 (by decide)
  obtain ⟨b, hb⟩ := hbyte 2 (by decide)
  obtain ⟨a, ha⟩ := hbyte 3 (by decide)
  refine ⟨⟨r, g, b, a⟩, (pixel?_eq_some_iff hx hy).2 fun k hk ↦ ?_⟩
  match k with
  | 0 => exact hr
  | 1 => exact hg
  | 2 => exact hb
  | 3 => exact ha

/-- Whole frames of one size that show the same pixels are equal. -/
theorem eq_of_pixels (whole : frame.Whole) (whole' : frame'.Whole)
    (width : frame'.width = frame.width) (height : frame'.height = frame.height)
    (pixels : ∀ x y, x < frame.width → y < frame.height →
      frame'.pixel? x y = frame.pixel? x y) : frame' = frame := by
  have hsize : frame.data.size = frame.width * frame.height * 4 := whole
  have hsize' : frame'.data.size = frame.width * frame.height * 4 := by
    rw [← width, ← height]
    exact whole'
  have hdata : frame'.data = frame.data := by
    refine Array.ext (hsize'.trans hsize.symm) fun j hj' hj ↦ ?_
    -- Each byte belongs to a pixel, that of its quarter.
    have hquarter : j / 4 < frame.width * frame.height := by omega
    have hpos : 0 < frame.width := Nat.pos_of_ne_zero fun hzero ↦ by simp [hzero] at hquarter
    have hx : j / 4 % frame.width < frame.width := Nat.mod_lt _ hpos
    have hy : j / 4 / frame.width < frame.height := Nat.div_lt_of_lt_mul hquarter
    have hplace : j / 4 / frame.width * frame.width + j / 4 % frame.width = j / 4 := by
      rw [Nat.mul_comm]
      exact Nat.div_add_mod _ _
    obtain ⟨c, hc⟩ := exists_pixel? whole hx hy
    have hc' := (pixels _ _ hx hy).trans hc
    have hk : j % 4 < 4 := Nat.mod_lt j (by decide)
    have hbyte := (pixel?_eq_some_iff hx hy).1 hc _ hk
    have hbyte' := (pixel?_eq_some_iff (width ▸ hx) (height ▸ hy)).1 hc' _ hk
    rw [width] at hbyte'
    rw [hplace, Nat.mul_comm, Nat.div_add_mod] at hbyte hbyte'
    rw [← Option.some_inj, ← Array.getElem?_eq_getElem hj', ← Array.getElem?_eq_getElem hj, hbyte,
      hbyte']
  obtain ⟨width, height, data⟩ := frame
  obtain ⟨width', height', data'⟩ := frame'
  simp only at width height hdata
  subst width height hdata
  rfl

/-! ### Writing -/

/-- The frame with one pixel replaced. The pixel is found by rows, each of four bytes for every
column. -/
def write (frame : Frame) (x y : Nat) (c : Vec4 UInt8) : Frame :=
  let start := y * (frame.width * 4) + x * 4
  { frame with
    data := (((frame.data.setIfInBounds start c.x).setIfInBounds (start + 1) c.y).setIfInBounds
      (start + 2) c.z).setIfInBounds (start + 3) c.w }

@[simp]
theorem width_write : (frame.write x y c).width = frame.width := by
  simp only [write]

@[simp]
theorem height_write : (frame.write x y c).height = frame.height := by
  simp only [write]

/-- Writing a pixel leaves the number of bytes as it is. -/
theorem Whole.write (whole : frame.Whole) (x y : Nat) (c : Vec4 UInt8) :
    (frame.write x y c).Whole := by
  have hsize : frame.data.size = frame.width * frame.height * 4 := whole
  rw [Whole, Frame.write]
  simpa only [Array.size_setIfInBounds] using hsize

/-- Writing a pixel changes its own four bytes. -/
theorem getElem?_write (whole : frame.Whole) (hx : x < frame.width) (hy : y < frame.height)
    (place : Nat) {k : Nat} (hk : k < 4) :
    (frame.write x y c).data[place * 4 + k]? =
      if place = y * frame.width + x then c.toList[k]? else frame.data[place * 4 + k]? := by
  have hplace := place_lt hx hy
  have hsize : frame.data.size = frame.width * frame.height * 4 := whole
  have hstart : y * (frame.width * 4) + x * 4 = (y * frame.width + x) * 4 := by
    rw [← Nat.mul_assoc, ← Nat.add_mul]
  rw [write, hstart]
  generalize y * frame.width + x = p at hplace ⊢
  simp only [Array.getElem?_setIfInBounds, Array.size_setIfInBounds]
  by_cases hsame : place = p
  · subst hsame
    rw [if_pos rfl]
    match k with
    | 0 =>
      rw [if_neg (by omega), if_neg (by omega), if_neg (by omega), if_pos (by omega),
        if_pos (by omega)]
      rfl
    | 1 =>
      rw [if_neg (by omega), if_neg (by omega), if_pos (by omega), if_pos (by omega)]
      rfl
    | 2 =>
      rw [if_neg (by omega), if_pos (by omega), if_pos (by omega)]
      rfl
    | 3 =>
      rw [if_pos (by omega), if_pos (by omega)]
      rfl
  · rw [if_neg hsame, if_neg (by omega), if_neg (by omega), if_neg (by omega), if_neg (by omega)]

/-- What is written is read back, and other pixels stay. -/
theorem pixel?_write (whole : frame.Whole) (hx : x < frame.width) (hy : y < frame.height)
    (x' y' : Nat) :
    (frame.write x y c).pixel? x' y' =
      if x' = x ∧ y' = y then some c else frame.pixel? x' y' := by
  by_cases hinside : x' < frame.width ∧ y' < frame.height
  · obtain ⟨hx', hy'⟩ := hinside
    have hread {d : Vec4 UInt8} : (frame.write x y c).pixel? x' y' = some d ↔
        ∀ k < 4, (if y' * frame.width + x' = y * frame.width + x then c.toList[k]?
          else frame.data[(y' * frame.width + x') * 4 + k]?) = d.toList[k]? := by
      rw [pixel?_eq_some_iff (by rwa [width_write]) (by rwa [height_write]), width_write]
      exact forall₂_congr fun k hk ↦ by rw [getElem?_write whole hx hy _ hk]
    by_cases hsame : x' = x ∧ y' = y
    · obtain ⟨rfl, rfl⟩ := hsame
      rw [if_pos ⟨rfl, rfl⟩]
      exact hread.2 fun k _ ↦ if_pos rfl
    · obtain ⟨d, hd⟩ := exists_pixel? whole hx' hy'
      rw [if_neg hsame, hd]
      refine hread.2 fun k hk ↦ ?_
      rw [if_neg fun heq ↦ hsame (place_inj hx' hx heq)]
      exact (pixel?_eq_some_iff hx' hy').1 hd k hk
  · have hne : ¬ (x' = x ∧ y' = y) := fun ⟨h, h'⟩ ↦ hinside ⟨h ▸ hx, h' ▸ hy⟩
    rw [if_neg hne, pixel?_eq_none hinside]
    exact pixel?_eq_none (by rwa [width_write, height_write])

end Shading.Frame
