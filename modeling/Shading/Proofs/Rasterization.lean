import Shading.Proofs.Failure
import Shading.Proofs.Raster.Frames
import Shading.Raster.Rasterize

/-!
# What a rasterized frame shows

`rasterize` puts the bytes of a frame together by rows, and those of a row by pixels. Both are one
loop, which concatenates lists of one length, and so a byte is found by the number of its list and
its place there (`gather_blocks`). Applied twice, this gives the bytes of each pixel.

Workers do otherwise: they start with a blank frame and fill in pixels where they are, in an order
that nobody fixes (`Frame.fill`). A pixel is written in one place, from its own sample, and once it
is written nothing else touches it. Hence what is there in the end depends only on which pixels have
been visited. Both ways end with a frame that shows the program (`Frame.Shows`), and of a size there
is only one of these.
-/

namespace Shading

/-! ### Lists in a row -/

section Gather

variable {ε α β : Type} {f : α → Except ε (List β)} {as : List α} {bs : List β}

/-- The lists of some values, one after the other. -/
def gather (f : α → Except ε (List β)) : List α → Except ε (List β)
  | [] => .ok []
  | a :: as => do return (← f a) ++ (← gather f as)

/-- Parts are gathered one behind the other. -/
theorem gather_cons_eq_ok_iff {a : α} :
    gather f (a :: as) = .ok bs ↔
      ∃ part rest, f a = .ok part ∧ gather f as = .ok rest ∧ part ++ rest = bs := by
  rw [gather]
  constructor
  · intro h
    obtain ⟨part, hpart, h⟩ := bind_eq_ok_iff.1 h
    obtain ⟨rest, hrest, h⟩ := bind_eq_ok_iff.1 h
    exact ⟨part, rest, hpart, hrest, Except.ok.inj h⟩
  · rintro ⟨part, rest, hpart, hrest, rfl⟩
    exact bind_eq_ok_iff.2 ⟨part, hpart, bind_eq_ok_iff.2 ⟨rest, hrest, rfl⟩⟩

/-- If there is a part for each, they can be gathered. -/
theorem exists_gather (h : ∀ a ∈ as, ∃ part, f a = .ok part) : ∃ bs, gather f as = .ok bs := by
  induction as with
  | nil => exact ⟨[], rfl⟩
  | cons a as ih =>
    obtain ⟨part, hpart⟩ := h a List.mem_cons_self
    obtain ⟨rest, hrest⟩ := ih fun a' ha' ↦ h a' (List.mem_cons_of_mem _ ha')
    exact ⟨_, gather_cons_eq_ok_iff.2 ⟨part, rest, hpart, hrest, rfl⟩⟩

/-- Of lists of one length, the one in the `i`th place starts at `i` times the length. -/
theorem gather_blocks {n : Nat} (uniform : ∀ a part, f a = .ok part → part.length = n)
    (ok : gather f as = .ok bs) :
    bs.length = as.length * n ∧
      ∀ i a, as[i]? = some a → ∃ part, f a = .ok part ∧ ∀ j < n, bs[i * n + j]? = part[j]? := by
  induction as generalizing bs with
  | nil =>
    obtain rfl : [] = bs := Except.ok.inj ok
    exact ⟨(Nat.zero_mul n).symm, nofun⟩
  | cons a as ih =>
    obtain ⟨part, rest, hpart, hrest, rfl⟩ := gather_cons_eq_ok_iff.1 ok
    obtain ⟨hlength, hblocks⟩ := ih hrest
    have hn : part.length = n := uniform a part hpart
    refine ⟨?_, fun i a' hi ↦ ?_⟩
    · rw [List.length_append, hn, hlength, List.length_cons, Nat.add_mul, Nat.one_mul, Nat.add_comm]
    · cases i with
      | zero =>
        obtain rfl : a = a' := Option.some.inj hi
        refine ⟨part, hpart, fun j hj ↦ ?_⟩
        rw [Nat.zero_mul, Nat.zero_add, List.getElem?_append_left (hn ▸ hj)]
      | succ i =>
        obtain ⟨part', hpart', hbytes⟩ := hblocks i a' hi
        refine ⟨part', hpart', fun j hj ↦ ?_⟩
        have hpast : (i + 1) * n + j = part.length + (i * n + j) := by
          rw [hn, Nat.add_mul, Nat.one_mul]
          omega
        rw [hpast, List.getElem?_append_right (Nat.le_add_right ..), Nat.add_sub_cancel_left,
          hbytes j hj]

end Gather

variable {R : Type} [ColorModel R] [Rounding R Single]
variable {program : Linked} {width height x y : Nat} {frame frame' : Frame}

/-! ### Samples -/

variable (R program) in
/-- The program gives a color for each pixel of the size. -/
def Succeeds (width height : Nat) : Prop :=
  ∀ x < width, ∀ y < height, ∃ c : Vec4 R, Machine.execute {} program (.fullPixel x y) = .ok c

/-- Rasterizing fails exactly if the program fails for some pixel. -/
theorem not_succeeds_iff :
    ¬ Succeeds R program width height ↔ ∃ x < width, ∃ y < height, ∃ cause,
      Machine.execute {} program (.fullPixel x y : Context R) = .error cause := by
  constructor
  · intro hnot
    by_contra hnone
    refine hnot fun x hx y hy ↦ ?_
    cases hpixel : Machine.execute {} program (.fullPixel x y : Context R) with
    | ok c => exact ⟨c, rfl⟩
    | error cause => exact absurd ⟨x, hx, y, hy, cause, hpixel⟩ hnone
  · rintro ⟨x, hx, y, hy, cause, hfails⟩ succeeds
    obtain ⟨c, hc⟩ := succeeds x hx y hy
    exact nomatch hfails.symm.trans hc

/-! ### Loops over rows and pixels -/

variable [ByteRounding R]

theorem rasterRow_eq_gather (xs : List Nat) :
    rasterRow (R := R) program y xs = gather (rasterPixel (R := R) program · y) xs := by
  induction xs with
  | nil => rfl
  | cons x xs ih => rw [rasterRow, gather, ih]

theorem rasterRows_eq_gather (ys : List Nat) :
    rasterRows (R := R) program width ys =
      gather (rasterRow (R := R) program · (List.range width)) ys := by
  induction ys with
  | nil => rfl
  | cons y ys ih => rw [rasterRows, gather, ih]

/-- A coordinate within bounds is its own. -/
theorem pixelCoordinate_of_lt (hx : x < 2 ^ 31) : pixelCoordinate x = x :=
  Int.bmod_eq_of_le (by omega) (by omega)

/-- A pixel has the bytes of its color. -/
theorem rasterPixel_eq_ok_iff (hx : x < 2 ^ 31) (hy : y < 2 ^ 31) {bytes : List UInt8} :
    rasterPixel (R := R) program x y = .ok bytes ↔
      ∃ c, Machine.execute {} program (.fullPixel x y : Context R) = .ok c ∧
        (quantize c).toList = bytes := by
  rw [rasterPixel, pixelCoordinate_of_lt hx, pixelCoordinate_of_lt hy]
  refine bind_eq_ok_iff.trans (exists_congr fun c ↦ and_congr_right fun _ ↦ ?_)
  exact ⟨Except.ok.inj, congrArg Except.ok⟩

/-- A pixel has four bytes. -/
theorem length_of_rasterPixel {bytes : List UInt8}
    (ok : rasterPixel (R := R) program x y = .ok bytes) : bytes.length = 4 := by
  obtain ⟨c, -, h⟩ := bind_eq_ok_iff.1 ok
  obtain rfl := Except.ok.inj h
  rfl

/-- A row has four bytes for each pixel. -/
theorem length_of_rasterRow {bytes : List UInt8}
    (ok : rasterRow (R := R) program y (List.range width) = .ok bytes) :
    bytes.length = width * 4 := by
  rw [rasterRow_eq_gather] at ok
  rw [(gather_blocks (fun _ _ ↦ length_of_rasterPixel) ok).1, List.length_range]

/-- The bytes of all rows hold those of each pixel, counted by rows. -/
theorem rasterRows_pixel {bytes : List UInt8}
    (ok : rasterRows (R := R) program width (List.range height) = .ok bytes) :
    bytes.length = height * (width * 4) ∧
      ∀ x < width, ∀ y < height, ∃ part, rasterPixel (R := R) program x y = .ok part ∧
        ∀ k < 4, bytes[(y * width + x) * 4 + k]? = part[k]? := by
  rw [rasterRows_eq_gather] at ok
  obtain ⟨hlength, hrows⟩ := gather_blocks (fun _ _ ↦ length_of_rasterRow) ok
  rw [List.length_range] at hlength
  refine ⟨hlength, fun x hx y hy ↦ ?_⟩
  obtain ⟨row, hrow, hbytes⟩ := hrows y y (List.getElem?_range hy)
  rw [rasterRow_eq_gather] at hrow
  obtain ⟨part, hpart, hpixel⟩ :=
    (gather_blocks (fun _ _ ↦ length_of_rasterPixel) hrow).2 x x (List.getElem?_range hx)
  refine ⟨part, hpart, fun k hk ↦ ?_⟩
  have hplace : (y * width + x) * 4 + k = y * (width * 4) + (x * 4 + k) := by
    rw [Nat.add_mul, Nat.mul_assoc, Nat.add_assoc]
  rw [hplace, hbytes _ (by omega), hpixel k hk]

/-! ### Frames that show a program -/

variable (R program) in
/-- A frame of the size in which each pixel is what the program gives for its square. -/
structure Frame.Shows (width height : Nat) (frame : Frame) : Prop where
  width_eq : frame.width = width
  height_eq : frame.height = height
  whole : frame.Whole
  pixel : ∀ x < width, ∀ y < height, ∃ c : Vec4 R,
    Machine.execute {} program (.fullPixel x y) = .ok c ∧ frame.pixel? x y = some (quantize c)

namespace Frame.Shows

/-- A frame that shows the program was rasterized without failures. -/
theorem succeeds (shows : frame.Shows R program width height) :
    Succeeds R program width height := fun x hx y hy ↦ by
  obtain ⟨c, hc, -⟩ := shows.pixel x hx y hy
  exact ⟨c, hc⟩

/-- There is one frame of a size that shows a program. -/
protected theorem eq (shows : frame.Shows R program width height)
    (shows' : frame'.Shows R program width height) : frame' = frame := by
  obtain ⟨rfl, rfl, whole, hpixels⟩ := shows
  refine eq_of_pixels whole shows'.whole shows'.width_eq shows'.height_eq fun x y hx hy ↦ ?_
  obtain ⟨c, hc, hpixel⟩ := hpixels x hx y hy
  obtain ⟨c', hc', hpixel'⟩ := shows'.pixel x hx y hy
  obtain rfl : c = c' := Except.ok.inj (hc.symm.trans hc')
  exact hpixel'.trans hpixel.symm

end Frame.Shows

/-! ### One pixel after the other -/

/-- Rows that succeed show the program. -/
theorem shows_of_rasterRows {bytes : List UInt8} (hwidth : width ≤ 2 ^ 31)
    (hheight : height ≤ 2 ^ 31)
    (ok : rasterRows (R := R) program width (List.range height) = .ok bytes) :
    (Frame.mk width height bytes.toArray).Shows R program width height := by
  obtain ⟨hlength, hpixels⟩ := rasterRows_pixel ok
  refine ⟨rfl, rfl, ?_, fun x hx y hy ↦ ?_⟩
  · rw [Frame.Whole, List.size_toArray, hlength, ← Nat.mul_assoc, Nat.mul_comm height]
  · obtain ⟨part, hpart, hbytes⟩ := hpixels x hx y hy
    obtain ⟨c, hc, rfl⟩ := (rasterPixel_eq_ok_iff (Nat.lt_of_lt_of_le hx hwidth)
      (Nat.lt_of_lt_of_le hy hheight)).1 hpart
    refine ⟨c, hc, (Frame.pixel?_eq_some_iff hx hy).2 fun k hk ↦ ?_⟩
    rw [List.getElem?_toArray]
    exact hbytes k hk

/-- Rows succeed if the program does on all pixels. -/
theorem exists_rasterRows (hwidth : width ≤ 2 ^ 31) (hheight : height ≤ 2 ^ 31)
    (succeeds : Succeeds R program width height) :
    ∃ bytes, rasterRows (R := R) program width (List.range height) = .ok bytes := by
  rw [rasterRows_eq_gather]
  refine exists_gather fun y hy ↦ ?_
  rw [rasterRow_eq_gather]
  refine exists_gather fun x hx ↦ ?_
  rw [List.mem_range] at hx hy
  obtain ⟨c, hc⟩ := succeeds x hx y hy
  exact ⟨_, (rasterPixel_eq_ok_iff (Nat.lt_of_lt_of_le hx hwidth)
    (Nat.lt_of_lt_of_le hy hheight)).2 ⟨c, hc, rfl⟩⟩

/-- Where memory is enough and a worker can be had, a frame without pixels is ready, and another one
is its rows. -/
theorem rasterize_eq {threading : Threading} (fits : width * height * 4 < Frame.memoryLimit)
    (possible : threading.parallel = true → threading.threads ≠ some 0) :
    rasterize (R := R) program width height threading =
      if (Frame.blank width height).data.isEmpty then .ok (Frame.blank width height)
      else match rasterRows (R := R) program width (List.range height) with
        | .ok bytes => .ok ⟨width, height, bytes.toArray⟩
        | .error cause => .error (.execution cause) := by
  have hcheck : threading.check = .ok () := by
    rw [Threading.check, require_eq_ok_iff]
    cases hparallel : threading.parallel with
    | false => rfl
    | true => simpa [hparallel] using possible hparallel
  rw [rasterize, Frame.new_eq_ok fits, hcheck]
  cases rasterRows (R := R) program width (List.range height) with
  | ok bytes => rfl
  | error cause => rfl

section Rasterize

variable {threading : Threading} (hwidth : width ≤ 2 ^ 31) (hheight : height ≤ 2 ^ 31)
  (fits : width * height * 4 < Frame.memoryLimit)
  (possible : threading.parallel = true → threading.threads ≠ some 0)

include hwidth hheight fits possible

/-- A frame that is rasterized shows the program. -/
theorem shows_of_rasterize (ok : rasterize (R := R) program width height threading = .ok frame) :
    frame.Shows R program width height := by
  rw [rasterize_eq fits possible] at ok
  by_cases hempty : (Frame.blank width height).data.isEmpty = true
  · rw [if_pos hempty] at ok
    obtain rfl := Except.ok.inj ok
    refine ⟨rfl, rfl, Frame.whole_blank .., fun x hx y hy ↦ ?_⟩
    have hplace : y * width + x < width * height := Frame.place_lt hx hy
    have hsize : width * height * 4 = 0 := by simpa [Frame.blank] using hempty
    omega
  · rw [if_neg hempty] at ok
    cases hrows : rasterRows (R := R) program width (List.range height) with
    | ok bytes =>
      rw [hrows] at ok
      obtain rfl := Except.ok.inj ok
      exact shows_of_rasterRows hwidth hheight hrows
    | error cause =>
      rw [hrows] at ok
      cases ok

/-- There is a frame if the program succeeds on all pixels. -/
theorem exists_rasterize (succeeds : Succeeds R program width height) :
    ∃ frame, rasterize (R := R) program width height threading = .ok frame := by
  obtain ⟨bytes, hbytes⟩ := exists_rasterRows hwidth hheight succeeds
  rw [rasterize_eq fits possible, hbytes]
  split
  · exact ⟨_, rfl⟩
  · exact ⟨_, rfl⟩

/-- The frames that are rasterized are those that show the program, whatever the threading. -/
theorem rasterize_eq_ok_iff :
    rasterize (R := R) program width height threading = .ok frame ↔
      frame.Shows R program width height := by
  refine ⟨shows_of_rasterize hwidth hheight fits possible, fun shows ↦ ?_⟩
  obtain ⟨frame', ok⟩ := exists_rasterize hwidth hheight fits possible shows.succeeds
  rw [ok, shows.eq (shows_of_rasterize hwidth hheight fits possible ok)]

end Rasterize

/-! ### In any order -/

/-- Rows are dealt out to some workers, each row to one of them. In the order in which pixels are
filled in, each pixel of these rows comes once. -/
structure Dealt (width height : Nat) (workers : List (List Nat)) (order : List (Nat × Nat)) : Prop
    where
  rows : workers.flatten.Perm (List.range height)
  pixels : order.Perm (workers.flatten.flatMap fun y ↦ (List.range width).map (·, y))

/-- Workers are dealt the pixels of the frame. -/
theorem Dealt.mem_iff {workers : List (List Nat)} {order : List (Nat × Nat)}
    (dealt : Dealt width height workers order) : (x, y) ∈ order ↔ x < width ∧ y < height := by
  rw [dealt.pixels.mem_iff]
  simp only [List.mem_flatMap, dealt.rows.mem_iff, List.mem_map, List.mem_range, Prod.mk.injEq]
  constructor
  · rintro ⟨y, hy, x, hx, rfl, rfl⟩
    exact ⟨hx, hy⟩
  · exact fun ⟨hx, hy⟩ ↦ ⟨y, hy, x, hx, rfl, rfl⟩

namespace Frame

variable {order : List (Nat × Nat)}

variable (R program) in
/-- The frame with some pixels filled in, one after the other and each at its place, unless a sample
fails. -/
def fill (frame : Frame) : List (Nat × Nat) → Except ExecutionError Frame
  | [] => .ok frame
  | (x, y) :: rest => do
    let ctx : Context R := .fullPixel (pixelCoordinate x) (pixelCoordinate y)
    (frame.write x y (quantize (← Machine.execute {} program ctx))).fill rest

/-- Filling writes one pixel after the other. -/
theorem fill_cons_eq_ok_iff (hx : x < 2 ^ 31) (hy : y < 2 ^ 31) :
    frame.fill R program ((x, y) :: order) = .ok frame' ↔
      ∃ c : Vec4 R, Machine.execute {} program (.fullPixel x y) = .ok c ∧
        (frame.write x y (quantize c)).fill R program order = .ok frame' := by
  rw [fill, pixelCoordinate_of_lt hx, pixelCoordinate_of_lt hy]
  exact bind_eq_ok_iff

/-- Filling succeeds if the program does on all pixels. -/
theorem exists_fill (hwidth : width ≤ 2 ^ 31) (hheight : height ≤ 2 ^ 31)
    (inside : ∀ x y, (x, y) ∈ order → x < width ∧ y < height)
    (succeeds : Succeeds R program width height) :
    ∃ frame', frame.fill R program order = .ok frame' := by
  induction order generalizing frame with
  | nil => exact ⟨frame, rfl⟩
  | cons p order ih =>
    obtain ⟨x, y⟩ := p
    obtain ⟨hx, hy⟩ := inside x y List.mem_cons_self
    obtain ⟨c, hc⟩ := succeeds x hx y hy
    obtain ⟨frame', hrest⟩ := @ih (frame.write x y (quantize c)) fun x y hmem ↦
      inside x y (List.mem_cons_of_mem _ hmem)
    exact ⟨frame', (fill_cons_eq_ok_iff (Nat.lt_of_lt_of_le hx hwidth)
      (Nat.lt_of_lt_of_le hy hheight)).2 ⟨c, hc, hrest⟩⟩

/-- What has been visited shows its sample, and the rest is as it was. -/
theorem pixels_of_fill (hwidth : width ≤ 2 ^ 31) (hheight : height ≤ 2 ^ 31)
    (width_eq : frame.width = width) (height_eq : frame.height = height) (whole : frame.Whole)
    (inside : ∀ x y, (x, y) ∈ order → x < width ∧ y < height)
    (ok : frame.fill R program order = .ok frame') :
    frame'.width = width ∧ frame'.height = height ∧ frame'.Whole ∧
      ∀ x y, ((x, y) ∈ order → ∃ c : Vec4 R,
          Machine.execute {} program (.fullPixel x y) = .ok c ∧
            frame'.pixel? x y = some (quantize c)) ∧
        ((x, y) ∉ order → frame'.pixel? x y = frame.pixel? x y) := by
  induction order generalizing frame with
  | nil =>
    obtain rfl := Except.ok.inj ok
    exact ⟨width_eq, height_eq, whole, fun x y ↦ ⟨nofun, fun _ ↦ rfl⟩⟩
  | cons p order ih =>
    obtain ⟨x₀, y₀⟩ := p
    obtain ⟨hx₀, hy₀⟩ := inside x₀ y₀ List.mem_cons_self
    obtain ⟨c₀, hc₀, hrest⟩ := (fill_cons_eq_ok_iff (Nat.lt_of_lt_of_le hx₀ hwidth)
      (Nat.lt_of_lt_of_le hy₀ hheight)).1 ok
    obtain ⟨hw, hh, hwhole, hpixels⟩ := @ih (frame.write x₀ y₀ (quantize c₀))
      (Frame.width_write.trans width_eq) (Frame.height_write.trans height_eq) (whole.write ..)
      (fun x y hmem ↦ inside x y (List.mem_cons_of_mem _ hmem)) hrest
    refine ⟨hw, hh, hwhole, fun x y ↦ ?_⟩
    obtain ⟨hvisited, hleft⟩ := hpixels x y
    rw [List.mem_cons, Prod.mk.injEq]
    by_cases hlater : (x, y) ∈ order
    · exact ⟨fun _ ↦ hvisited hlater, fun hnot ↦ absurd (.inr hlater) hnot⟩
    -- Nothing comes after the first step that could touch this pixel.
    · rw [hleft hlater, pixel?_write whole (width_eq ▸ hx₀) (height_eq ▸ hy₀)]
      by_cases hhere : x = x₀ ∧ y = y₀
      · rw [if_pos hhere]
        obtain ⟨rfl, rfl⟩ := hhere
        exact ⟨fun _ ↦ ⟨c₀, hc₀, rfl⟩, fun hnot ↦ absurd (.inl ⟨rfl, rfl⟩) hnot⟩
      · rw [if_neg hhere]
        exact ⟨fun hmem ↦ absurd hmem (not_or.2 ⟨hhere, hlater⟩), fun _ ↦ rfl⟩

/-- Filling in any order of the workers gives the frame that shows the program. -/
theorem fill_eq_ok_iff {workers : List (List Nat)} (hwidth : width ≤ 2 ^ 31)
    (hheight : height ≤ 2 ^ 31) (dealt : Dealt width height workers order) :
    (blank width height).fill R program order = .ok frame ↔
      frame.Shows R program width height := by
  have hinside : ∀ x y, (x, y) ∈ order → x < width ∧ y < height := fun _ _ ↦ dealt.mem_iff.1
  have hshows {frame : Frame} (ok : (blank width height).fill R program order = .ok frame) :
      frame.Shows R program width height := by
    obtain ⟨hw, hh, hwhole, hpixels⟩ :=
      pixels_of_fill hwidth hheight rfl rfl (whole_blank width height) hinside ok
    exact ⟨hw, hh, hwhole, fun x hx y hy ↦ (hpixels x y).1 (dealt.mem_iff.2 ⟨hx, hy⟩)⟩
  refine ⟨hshows, fun shows ↦ ?_⟩
  obtain ⟨frame', ok⟩ : ∃ frame', (blank width height).fill R program order = .ok frame' :=
    exists_fill hwidth hheight hinside shows.succeeds
  rw [ok, shows.eq (hshows ok)]

end Frame

/-! ### The frame of a program -/

/-- A frame fails if the program fails for one of its pixels. Otherwise each pixel shows the sample
of its own square, and there is no pixel elsewhere. Workers who share the rows, and come to their
pixels in any order, get the same frame. -/
theorem rasterize_samples (program : Linked) {width height : Nat} (threading : Threading)
    (hwidth : width ≤ 2 ^ 31) (hheight : height ≤ 2 ^ 31)
    (fits : width * height * 4 < Frame.memoryLimit)
    (possible : threading.parallel = true → threading.threads ≠ some 0) :
    ((∃ e, rasterize (R := R) program width height threading = .error e) ↔
        ∃ x < width, ∃ y < height, ∃ cause,
          Machine.execute {} program (.fullPixel x y : Context R) = .error cause) ∧
      (∀ frame, rasterize (R := R) program width height threading = .ok frame →
        frame.data.size = width * height * 4 ∧
          ∀ x y, if x < width ∧ y < height then
              ∃ c : Vec4 R, Machine.execute {} program (.fullPixel x y) = .ok c ∧
                frame.pixel? x y = some (quantize c)
            else frame.pixel? x y = none) ∧
      ∀ workers order, Dealt width height workers order → ∀ frame,
        (Frame.blank width height).fill R program order = .ok frame ↔
          rasterize (R := R) program width height threading = .ok frame := by
  have hshows (frame : Frame) :
      rasterize (R := R) program width height threading = .ok frame ↔
        frame.Shows R program width height := rasterize_eq_ok_iff hwidth hheight fits possible
  refine ⟨?_, fun frame ok ↦ ?_, fun workers order dealt frame ↦ ?_⟩
  · rw [← not_succeeds_iff]
    constructor
    · rintro ⟨e, hfails⟩ succeeds
      obtain ⟨frame, ok⟩ := exists_rasterize hwidth hheight fits possible succeeds
      exact nomatch hfails.symm.trans ok
    · intro hnot
      cases hframe : rasterize (R := R) program width height threading with
      | error e => exact ⟨e, rfl⟩
      | ok frame => exact absurd ((hshows frame).1 hframe).succeeds hnot
  · obtain ⟨rfl, rfl, whole, hpixels⟩ := (hshows frame).1 ok
    refine ⟨whole, fun x y ↦ ?_⟩
    split
    · next inside => exact hpixels x inside.1 y inside.2
    · next outside => exact Frame.pixel?_eq_none outside
  · exact (Frame.fill_eq_ok_iff hwidth hheight dealt).trans (hshows frame).symm

/-- Code for the same color everywhere. -/
def whiteCode : Linked := ⟨#[.pushColor (.splat ⟨0x3f800000⟩), .exit]⟩

/-- Three columns and two rows, by two workers who take turns but do not keep together. -/
theorem rasterize_whiteCode :
    let white : Vec4 Float := .splat (widen (⟨0x3f800000⟩ : Single))
    let order := [(0, 1), (0, 0), (1, 0), (1, 1), (2, 1), (2, 0)]
    3 * 2 * 4 < Frame.memoryLimit ∧ Dealt 3 2 [[1], [0]] order ∧
      ∃ frame, rasterize (R := Float) whiteCode 3 2 ⟨true, 256, some 2⟩ = .ok frame ∧
        (Frame.blank 3 2).fill Float whiteCode order = .ok frame ∧ frame.data.size = 24 ∧
        frame.pixel? 2 1 = some (quantize white) ∧ frame.pixel? 1 2 = none := by
  intro white order
  have fits : 3 * 2 * 4 < Frame.memoryLimit := by decide
  have dealt : Dealt 3 2 [[1], [0]] order := ⟨by decide, by decide⟩
  have hsample (x y : Int) :
      Machine.execute {} whiteCode (.fullPixel x y : Context Float) = .ok white := rfl
  obtain ⟨hfails, hshows, hfill⟩ :=
    rasterize_samples (R := Float) whiteCode ⟨true, 256, some 2⟩
      (show 3 ≤ 2 ^ 31 by decide) (show 2 ≤ 2 ^ 31 by decide) fits fun _ ↦ by decide
  cases hframe : rasterize (R := Float) whiteCode 3 2 ⟨true, 256, some 2⟩ with
  | error e =>
    obtain ⟨x, -, y, -, cause, hcause⟩ := hfails.1 ⟨e, hframe⟩
    exact nomatch (hsample x y).symm.trans hcause
  | ok frame =>
    obtain ⟨hsize, hpixels⟩ := hshows frame hframe
    obtain ⟨c, hc, hpixel⟩ := hpixels 2 1
    obtain rfl : white = c := Except.ok.inj ((hsample 2 1).symm.trans hc)
    exact ⟨fits, dealt, frame, rfl, (hfill _ _ dealt frame).2 hframe, hsize, hpixel, hpixels 1 2⟩

end Shading
