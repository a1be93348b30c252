import Shading.Code.Decode
import Shading.Device.Invocation
import Shading.Proofs.Code.Marking

/-!
# Words of a stream

A decoder consumes the words of an instruction from the front of a list, while an invocation reads
them at fixed distances from its address. `Spells` says in the terms of the invocation which
instruction stands at an address, and `spells_of_operands` that this is the instruction that the
decoder gives.

For that, a reader is described by the words it may be run on: words of the buffer from one address
on, of which it leaves those from another address on (`Reads`). The addresses are known in advance,
so readers one after the other give their operands by address.

A decoded stream is a list of instructions with their addresses, each spelled where it stands
(`Stream`).
-/

namespace Shading

open Invocation (target branches)

variable {α β : Type}

/-! ### Readers -/

/-- The words of a buffer from an address on. -/
def wordsFrom (word : Nat → UInt32) (start n : Nat) : List UInt32 := (List.range' start n).map word

/-- Run on words from `s` on, a reader that succeeds leaves those from `t` on. -/
def Reads (word : Nat → UInt32) (s t : Nat) (r : WordReader α) (result : α → Prop) : Prop :=
  ∀ n x rest, r (wordsFrom word s n) = .ok (x, rest) →
    result x ∧ ∃ m, rest = wordsFrom word t m

section Readers

variable {word : Nat → UInt32} {s t u : Nat}

theorem Reads.pure {result : α → Prop} {x : α} (h : result x) :
    Reads word s s (pure x) result := by
  intro n y rest hy
  obtain ⟨rfl, rfl⟩ := Prod.mk.inj (Except.ok.inj hy)
  exact ⟨h, n, rfl⟩

theorem Reads.bind {r : WordReader α} {f : α → WordReader β} {first : α → Prop}
    {result : β → Prop} (h : Reads word s t r first)
    (h' : ∀ x, first x → Reads word t u (f x) result) : Reads word s u (r >>= f) result := by
  intro n y rest hy
  obtain ⟨⟨x, mid⟩, hx, hrest⟩ := bind_eq_ok_iff.1 hy
  obtain ⟨hfirst, m, rfl⟩ := h n x mid hx
  exact h' x hfirst m y rest hrest

/-- A reader whose result is known, followed by another one. -/
theorem Reads.then {r : WordReader α} {f : α → WordReader β} {v : α} {result : β → Prop}
    (h : Reads word s t r (· = v)) (h' : Reads word t u (f v) result) :
    Reads word s u (r >>= f) result :=
  h.bind fun _ hx ↦ hx ▸ h'

theorem Reads.mono {r : WordReader α} {first result : α → Prop} (h : Reads word s t r first)
    (h' : ∀ x, first x → result x) : Reads word s t r result :=
  fun n x rest hx ↦ ⟨h' x (h n x rest hx).1, (h n x rest hx).2⟩

theorem reads_word : Reads word s (s + 1) WordReader.word (· = word s) := by
  intro n x rest hx
  cases n with
  | zero => cases hx
  | succ n =>
    rw [wordsFrom, List.range'_succ, List.map_cons] at hx
    obtain ⟨rfl, rfl⟩ := Prod.mk.inj (Except.ok.inj hx)
    exact ⟨rfl, n, rfl⟩

theorem reads_get {cause : DecodeError} {a : Option α} :
    Reads word s s (WordReader.get cause a) (fun x ↦ a = some x) := by
  rcases a with - | a
  · intro n x rest hx
    cases hx
  · exact .pure rfl

/-- The single precision number in a word. -/
def singleAt (word : Nat → UInt32) (a : Nat) : Single := ⟨word a⟩

def pointAt (word : Nat → UInt32) (a : Nat) : Point Single :=
  ⟨singleAt word a, singleAt word (a + 1)⟩

def vec4At (word : Nat → UInt32) (a : Nat) : Vec4 Single :=
  ⟨singleAt word a, singleAt word (a + 1), singleAt word (a + 2), singleAt word (a + 3)⟩

def affineAt (word : Nat → UInt32) (a : Nat) : Affine Single :=
  ⟨singleAt word a, singleAt word (a + 1), singleAt word (a + 2), singleAt word (a + 3),
    singleAt word (a + 4), singleAt word (a + 5)⟩

theorem reads_single : Reads word s (s + 1) WordReader.single (· = singleAt word s) :=
  reads_word.then (.pure rfl)

theorem reads_point : Reads word s (s + 2) WordReader.point (· = pointAt word s) :=
  reads_single.then (reads_single.then (.pure rfl))

theorem reads_vec4 : Reads word s (s + 4) WordReader.vec4 (· = vec4At word s) :=
  reads_single.then (reads_single.then (reads_single.then (reads_single.then (.pure rfl))))

theorem reads_affine : Reads word s (s + 6) WordReader.affine (· = affineAt word s) :=
  reads_single.then (reads_single.then (reads_single.then (reads_single.then (reads_single.then
    (reads_single.then (.pure rfl))))))

/-- Items of one word each, all of which have a property. -/
theorem reads_items {item : WordReader α} {v : Nat → α} {fits : α → Prop} (a slot n : Nat)
    (h : ∀ slot, Reads word (a + slot) (a + slot + 1) item (fun x ↦ x = v slot ∧ fits x)) :
    Reads word (a + slot) (a + slot + n) (WordReader.items item n)
      (fun xs ↦ xs = (List.range' slot n).map v ∧ ∀ x ∈ xs, fits x) := by
  induction n generalizing slot with
  | zero => exact .pure ⟨rfl, nofun⟩
  | succ n ih =>
    refine (h slot).bind fun x hx ↦ ?_
    have hrest := ih (slot + 1)
    rw [show a + (slot + 1) + n = a + slot + (n + 1) by omega] at hrest
    refine hrest.bind fun xs hxs ↦ .pure ⟨?_, List.forall_mem_cons.2 ⟨hx.2, hxs.2⟩⟩
    rw [List.range'_succ, List.map_cons, hx.1, hxs.1]

/-- A jump leads ahead, to the address that an invocation computes. -/
theorem reads_target (word : Nat → UInt32) (a slot : Nat) :
    Reads word (a + slot) (a + slot + 1) (WordReader.target a)
      (fun t ↦ t = target word a slot ∧ a < t) := by
  refine reads_word.then ?_
  intro n x rest hx
  split at hx
  · cases hx
  · split at hx
    · rename_i hzero hlt
      obtain ⟨rfl, rfl⟩ := Prod.mk.inj (Except.ok.inj hx)
      refine ⟨⟨(Nat.mod_eq_of_lt hlt).symm, ?_⟩, n, rfl⟩
      have hpos : (word (a + slot)).toNat ≠ 0 := fun h ↦ hzero (UInt32.toNat_inj.1 h)
      omega
    · cases hx

/-- The four targets of a blend lie ahead. -/
theorem reads_branches (word : Nat → UInt32) (a slot : Nat) :
    Reads word (a + slot) (a + slot + 4) (WordReader.branches a)
      (fun b ↦ b = branches word a slot ∧ ∀ t ∈ b.targets, a < t) :=
  (reads_target word a slot).bind fun _ h0 ↦ (reads_target word a (slot + 1)).bind fun _ h1 ↦
    (reads_target word a (slot + 2)).bind fun _ h2 ↦
    (reads_target word a (slot + 3)).bind fun _ h3 ↦ by
      refine .pure ⟨?_, ?_⟩
      · rw [h0.1, h1.1, h2.1, h3.1, branches]
      · simp only [Branches.targets, List.forall_mem_cons]
        exact ⟨h0.2, h1.2, h2.2, h3.2, List.forall_mem_nil _⟩

end Readers

/-! ### Instructions -/

/-- The table of a gradient: the places behind the stops are in the two words before the slot, the
ratios and then the places of the stops from the slot on. -/
def tableAt (word : Nat → UInt32) (a slot : Nat) : StopTable Nat :=
  let n := headerStops (word a)
  ⟨(List.range' slot n).map fun s ↦ singleAt word (a + s),
    (List.range' (slot + n) n).map (target word a), target word a (slot - 2),
    target word a (slot - 1)⟩

def linearRampAt (word : Nat → UInt32) (a : Nat) : LinearRamp Single :=
  ⟨pointAt word a, singleAt word (a + 2)⟩

def radialRampAt (word : Nat → UInt32) (a : Nat) : RadialRamp Single :=
  ⟨affineAt word a, singleAt word (a + 6), singleAt word (a + 7)⟩

def linearAxisAt (word : Nat → UInt32) (a : Nat) : LinearAxis Single :=
  ⟨affineAt word a, pointAt word (a + 6), pointAt word (a + 8)⟩

def circlePairAt (word : Nat → UInt32) (a : Nat) : CirclePair Single :=
  ⟨affineAt word a, pointAt word (a + 6), singleAt word (a + 8), pointAt word (a + 9),
    singleAt word (a + 11)⟩

def triangleAt (word : Nat → UInt32) (header : UInt32) (a : Nat) : Triangle Single :=
  ⟨⟨pointAt word (a + 1), pointAt word (a + 3), pointAt word (a + 5)⟩, singleAt word a,
    if header &&& perspectiveFlag != 0 then
      some ⟨singleAt word (a + 7), singleAt word (a + 8), singleAt word (a + 9)⟩
    else none⟩

/-- The instruction has the operands that the words at the address hold. -/
def Spells (word : Nat → UInt32) (a : Nat) : Instruction Nat → Prop
  | .pushColor color => color = vec4At word (a + 1)
  | .opaqueJump t => t = target word a 1
  | .blendCompose compose blend =>
    Compose.ofCode? (word a >>> 8 &&& 0xff).toNat = some compose ∧
      Blend.ofCode? (word a >>> 16 &&& 0xff).toNat = some blend
  | .multiplyScalar factor => factor = singleAt word (a + 1)
  | .filter m =>
    m = ⟨vec4At word (a + 1), vec4At word (a + 5), vec4At word (a + 9), vec4At word (a + 13),
      vec4At word (a + 17)⟩
  | .phong shininess lights =>
    shininess = singleAt word (a + 1) ∧ lights = (word a >>> 8).toNat
  | .linearBlendRatio ramp accuracy b =>
    ramp = linearRampAt word (a + 1) ∧
      Accuracy.ofCode? (word a >>> 8 &&& 0xff).toNat = some accuracy ∧ b = branches word a 4
  | .radialBlendRatio ramp accuracy b =>
    ramp = radialRampAt word (a + 1) ∧
      Accuracy.ofCode? (word a >>> 8 &&& 0xff).toNat = some accuracy ∧ b = branches word a 9
  | .linearGradientRatio axis accuracy extend table =>
    axis = linearAxisAt word (a + 1) ∧
      Accuracy.ofCode? (word a >>> 8 &&& 0xf).toNat = some accuracy ∧
      Extend.ofCode? (word a >>> 12 &&& 0xf).toNat = some extend ∧
      headerStops (word a) ≠ 0 ∧ table = tableAt word a 13
  | .radialGradientRatio circles accuracy extend table =>
    circles = circlePairAt word (a + 1) ∧
      Accuracy.ofCode? (word a >>> 8 &&& 0xf).toNat = some accuracy ∧
      Extend.ofCode? (word a >>> 12 &&& 0xf).toNat = some extend ∧
      headerStops (word a) ≠ 0 ∧ table = tableAt word a 15
  | .barycentricBlend triangle accuracy =>
    triangle = triangleAt word (word a) (a + 1) ∧
      Accuracy.ofCode? (word a >>> 16 &&& 0xff).toNat = some accuracy
  | _ => True

section

variable {word : Nat → UInt32}

theorem reads_linearRamp (s : Nat) :
    Reads word s (s + 3) WordReader.linearRamp (· = linearRampAt word s) :=
  reads_point.then (reads_single.then (.pure rfl))

theorem reads_radialRamp (s : Nat) :
    Reads word s (s + 8) WordReader.radialRamp (· = radialRampAt word s) :=
  reads_affine.then (reads_single.then (reads_single.then (.pure rfl)))

theorem reads_linearAxis (s : Nat) :
    Reads word s (s + 10) WordReader.linearAxis (· = linearAxisAt word s) :=
  reads_affine.then (reads_point.then (reads_point.then (.pure rfl)))

theorem reads_circlePair (s : Nat) :
    Reads word s (s + 12) WordReader.circlePair (· = circlePairAt word s) :=
  reads_affine.then (reads_point.then (reads_single.then (reads_point.then
    (reads_single.then (.pure rfl)))))

/-- A table of stops is read from two lists, and all of its targets lie ahead. -/
theorem reads_stopTable (word : Nat → UInt32) (a slot : Nat) :
    Reads word (a + slot) (a + slot + 2 + headerStops (word a) + headerStops (word a))
      (WordReader.stopTable a (word a))
      (fun x ↦ Extend.ofCode? (word a >>> 12 &&& 0xf).toNat = some x.1 ∧
        headerStops (word a) ≠ 0 ∧ x.2 = tableAt word a (slot + 2) ∧
        ∀ t ∈ x.2.targets, a < t) := by
  let n := headerStops (word a)
  have hratios : Reads word (a + (slot + 2)) (a + (slot + 2) + n) (WordReader.items .single n)
      (fun xs ↦ xs = (List.range' (slot + 2) n).map (fun s ↦ singleAt word (a + s)) ∧
        ∀ x ∈ xs, True) :=
    reads_items a (slot + 2) n fun _ ↦ reads_single.mono fun _ h ↦ ⟨h, trivial⟩
  have hstops : Reads word (a + (slot + 2) + n) (a + slot + 2 + n + n)
      (WordReader.items (.target a) n)
      (fun xs ↦ xs = (List.range' (slot + 2 + n) n).map (target word a) ∧ ∀ t ∈ xs, a < t) := by
    have hitems := reads_items a (slot + 2 + n) n (reads_target word a)
    rwa [show a + (slot + 2 + n) = a + slot + 2 + n by omega] at hitems
  rw [WordReader.stopTable]
  split
  · intro n x rest hx
    cases hx
  · rename_i hne
    refine reads_get.bind fun extend hextend ↦ (reads_target word a slot).bind fun blend hb ↦
      (reads_target word a (slot + 1)).bind fun done hd ↦ hratios.bind fun ratios hr ↦
        hstops.bind fun stops hs ↦ .pure ⟨hextend, hne, ?_, ?_⟩
    · rw [hb.1, hd.1, hr.1, hs.1]
      rfl
    · simp only [StopTable.targets, List.forall_mem_append, List.forall_mem_cons]
      exact ⟨hs.2, hb.2, hd.2, List.forall_mem_nil _⟩

/-- A triangle is read, with depths or without. -/
theorem reads_triangle (word : Nat → UInt32) (header : UInt32) (s : Nat) :
    ∃ t, Reads word s t (WordReader.triangle header) (· = triangleAt word header s) := by
  have hcorners : Reads word (s + 1) (s + 7) (WordReader.triple .point)
      (· = ⟨pointAt word (s + 1), pointAt word (s + 3), pointAt word (s + 5)⟩) :=
    reads_point.then (reads_point.then (reads_point.then (.pure rfl)))
  have hdepths : Reads word (s + 7) (s + 10) (WordReader.triple .single)
      (· = ⟨singleAt word (s + 7), singleAt word (s + 8), singleAt word (s + 9)⟩) :=
    reads_single.then (reads_single.then (reads_single.then (.pure rfl)))
  by_cases h : (header &&& perspectiveFlag != 0) = true
  · refine ⟨s + 10, reads_single.then (hcorners.then ?_)⟩
    rw [if_pos h]
    exact hdepths.then (.pure (by rw [triangleAt, if_pos h]))
  · refine ⟨s + 7, reads_single.then (hcorners.then ?_)⟩
    rw [if_neg h]
    exact .pure (by rw [triangleAt, if_neg h])

/-- Whatever its opcode, an instruction is spelled by the words that its operands are read from. -/
theorem spells_of_operands (word : Nat → UInt32) (a : Nat) (opcode : Opcode) :
    ∃ t, Reads word (a + 1) t (WordReader.operands a (word a) opcode)
      (fun i ↦ i.opcode = opcode ∧ Spells word a i ∧ ∀ t ∈ i.targets, a < t) := by
  cases opcode with
  | pushColor => exact ⟨_, reads_vec4.then (.pure ⟨rfl, rfl, nofun⟩)⟩
  | multiplyScalar => exact ⟨_, reads_single.then (.pure ⟨rfl, rfl, nofun⟩)⟩
  | opaqueJump =>
    exact ⟨_, (reads_target word a 1).bind fun t h ↦
      .pure ⟨rfl, h.1, fun _ ht ↦ List.mem_singleton.1 ht ▸ h.2⟩⟩
  | blendCompose =>
    exact ⟨_, reads_get.bind fun _ hc ↦ reads_get.bind fun _ hb ↦ .pure ⟨rfl, ⟨hc, hb⟩, nofun⟩⟩
  | filter =>
    exact ⟨_, reads_vec4.then (reads_vec4.then (reads_vec4.then (reads_vec4.then
      (reads_vec4.then (.pure ⟨rfl, rfl, nofun⟩)))))⟩
  | phong => exact ⟨_, reads_single.then (.pure ⟨rfl, ⟨rfl, rfl⟩, nofun⟩)⟩
  | linearBlendRatio =>
    exact ⟨_, (reads_linearRamp (a + 1)).then
      (reads_get.bind fun _ hk ↦ (reads_branches word a 4).bind fun _ hb ↦
        .pure ⟨rfl, ⟨rfl, hk, hb.1⟩, hb.2⟩)⟩
  | radialBlendRatio =>
    exact ⟨_, (reads_radialRamp (a + 1)).then
      (reads_get.bind fun _ hk ↦ (reads_branches word a 9).bind fun _ hb ↦
        .pure ⟨rfl, ⟨rfl, hk, hb.1⟩, hb.2⟩)⟩
  | linearGradientRatio =>
    exact ⟨_, (reads_linearAxis (a + 1)).then
      ((reads_stopTable word a 11).bind fun _ ht ↦ reads_get.bind fun _ hk ↦
        .pure ⟨rfl, ⟨rfl, hk, ht.1, ht.2.1, ht.2.2.1⟩, ht.2.2.2⟩)⟩
  | radialGradientRatio =>
    exact ⟨_, (reads_circlePair (a + 1)).then
      ((reads_stopTable word a 13).bind fun _ ht ↦ reads_get.bind fun _ hk ↦
        .pure ⟨rfl, ⟨rfl, hk, ht.1, ht.2.1, ht.2.2.1⟩, ht.2.2.2⟩)⟩
  | barycentricBlend =>
    obtain ⟨t, ht⟩ := reads_triangle word (word a) (a + 1)
    exact ⟨_, ht.then (reads_get.bind fun _ hk ↦ .pure ⟨rfl, ⟨rfl, hk⟩, nofun⟩)⟩
  | _ => exact ⟨_, .pure ⟨rfl, trivial, nofun⟩⟩

end

/-! ### Streams -/

/-- Instructions with their addresses, each spelled where it stands and directly followed by the
next one, up to the first exit. -/
inductive Stream (word : Nat → UInt32) : Nat → List (Nat × Instruction Nat) → Prop
  | exit {a : Nat} : Opcode.ofWord? (word a) = some .exit → Stream word a [(a, .exit)]
  | cons {a : Nat} {i : Instruction Nat} {ds : List (Nat × Instruction Nat)} :
    Opcode.ofWord? (word a) = some i.opcode → i ≠ .exit → Spells word a i →
      (∀ t ∈ i.targets, a < t) → Stream word (a + i.opcode.length (word a)) ds →
        Stream word a ((a, i) :: ds)

namespace Stream

variable {word : Nat → UInt32} {a : Nat} {decoded : List (Nat × Instruction Nat)}

/-- Decoding words of a buffer gives a stream within them. -/
theorem of_decodeFrom {n : Nat} (h : decodeFrom a (wordsFrom word a n) = .ok decoded) :
    Stream word a decoded ∧ ∀ d ∈ decoded, d.1 < a + n := by
  induction n using Nat.strongRecOn generalizing a decoded with
  | ind n ih =>
    cases n with
    | zero =>
      rw [wordsFrom, List.range'_zero, List.map_nil, decodeFrom] at h
      cases h
    | succ n =>
      rw [wordsFrom, List.range'_succ, List.map_cons, decodeFrom] at h
      rcases hopcode : Opcode.ofWord? (word a) with - | opcode
      · rw [hopcode] at h
        cases h
      · rw [hopcode] at h
        obtain ⟨m, hm⟩ := Nat.exists_eq_add_of_lt (opcode.length_pos (word a))
        rw [Nat.zero_add] at hm
        simp only [hm, List.take_succ_cons, Nat.add_sub_cancel] at h
        split at h
        · cases h
        · rename_i hlong
          have hle : m ≤ n := by
            simp only [List.length_cons, List.length_take, List.length_map,
              List.length_range'] at hlong
            omega
          -- The operands are the words that follow, and what they spell is read from them.
          obtain ⟨⟨i, rest⟩, hi, h⟩ := bind_eq_ok_iff.1 h
          rw [← List.map_take, List.take_range'_of_length_ge hle] at hi
          obtain ⟨t, hreads⟩ := spells_of_operands word a opcode
          obtain ⟨⟨rfl, hspells, hahead⟩, -⟩ := hreads _ _ _ hi
          simp only at h
          split at h
          · cases h
          · split at h
            · rename_i hexit
              cases h
              obtain rfl := Instruction.eq_exit_of_opcode hexit
              exact ⟨.exit hopcode, fun d hd ↦ by rw [List.mem_singleton.1 hd]; omega⟩
            · rename_i hexit
              obtain ⟨ds, hds, h⟩ := bind_eq_ok_iff.1 h
              cases h
              rw [← List.map_drop, List.drop_range', Nat.mul_one,
                show a + 1 + m = a + (m + 1) by omega] at hds
              obtain ⟨hstream, hbounds⟩ := ih (n - m) (by omega) hds
              refine ⟨.cons hopcode (fun h ↦ hexit (h ▸ rfl)) hspells hahead (hm ▸ hstream),
                List.forall_mem_cons.2 ⟨by omega, fun d hd ↦ ?_⟩⟩
              have := hbounds d hd
              omega

/-- A stream starts with an instruction at its address. -/
theorem head (h : Stream word a decoded) : ∃ i, decoded[0]? = some (a, i) := by
  cases h with
  | exit => exact ⟨.exit, rfl⟩
  | cons => exact ⟨_, rfl⟩

/-- No instruction of a stream is in front of it. -/
theorem le_of_mem (h : Stream word a decoded) : ∀ b ∈ decoded.map (·.1), a ≤ b := by
  induction h with
  | exit => exact fun b hb ↦ (List.mem_singleton.1 hb).symm ▸ Nat.le_refl _
  | cons _ _ _ _ _ ih =>
    rw [List.map_cons]
    exact List.forall_mem_cons.2
      ⟨Nat.le_refl _, fun b hb ↦ Nat.le_trans (Nat.le_add_right _ _) (ih b hb)⟩

/-- The instructions of a stream are in the order of their addresses. -/
theorem sorted (h : Stream word a decoded) : (decoded.map (·.1)).Pairwise (· < ·) := by
  induction h with
  | exit => exact List.pairwise_singleton _ _
  | @cons a i ds _ _ _ _ hds ih =>
    rw [List.map_cons]
    refine List.pairwise_cons.2 ⟨fun b hb ↦ ?_, ih⟩
    have := hds.le_of_mem b hb
    have := i.opcode.length_pos (word a)
    show a < b
    omega

/-- All jumps of a stream go forward. -/
theorem ahead (h : Stream word a decoded) : ∀ d ∈ decoded, ∀ t ∈ d.2.targets, d.1 < t := by
  induction h with
  | exit => exact fun d hd ↦ List.mem_singleton.1 hd ▸ nofun
  | cons _ _ _ hahead _ ih => exact List.forall_mem_cons.2 ⟨hahead, ih⟩

/-- What stands at an index of a stream, and what follows it. -/
theorem getElem? (h : Stream word a decoded) {k b : Nat} {i : Instruction Nat}
    (hk : decoded[k]? = some (b, i)) :
    Opcode.ofWord? (word b) = some i.opcode ∧ Spells word b i ∧
      (i ≠ .exit → ∃ j, decoded[k + 1]? = some (b + i.opcode.length (word b), j)) := by
  induction h generalizing k with
  | exit hopcode =>
    cases k with
    | zero =>
      cases hk
      exact ⟨hopcode, trivial, fun hne ↦ absurd rfl hne⟩
    | succ k => cases hk
  | cons hopcode _ hspells _ hds ih =>
    cases k with
    | zero =>
      cases hk
      exact ⟨hopcode, hspells, fun _ ↦ hds.head⟩
    | succ k => exact ih hk

end Stream

end Shading
