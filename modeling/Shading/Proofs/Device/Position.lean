import Shading.Proofs.Code.Relocation
import Shading.Proofs.Device.Refinement

/-!
# Programs anywhere in a buffer

An encoded list runs on the device as if it stood alone at the start of the buffer, whatever the
words in front of it and behind it are (`execute_relocated`). The addresses on the return stack
differ by where the list stands, and nothing else does; so the run on one of the buffers is the run
on the other one with its addresses moved (`Copy.run_map`), whether it comes to the exit, faults or
is cut off.

The run stays at the boundaries of the instructions that were written, so it does not matter which
words the rest of the buffer holds: for the device, the buffer is any function from addresses to
words with those of the list in one place.
-/

namespace Shading

variable {R : Type} [ColorModel R] [Rounding R Single]

namespace Invocation

/-- The outcome with its addresses passed through a function. -/
def Outcome.map (f : Nat → Nat) : Outcome → Outcome
  | .running s => .running ⟨f s.address, s.registers.map f⟩
  | .halted r => .halted (r.map f)
  | .faulted => .faulted

/-- All addresses of an invocation that is still running are known. -/
def Outcome.Known (known : Nat → Prop) : Outcome → Prop
  | .running s => known s.address ∧ ∀ a ∈ s.registers.returns, known a
  | _ => True

/-- The answer does not depend on addresses. -/
theorem finish_map (ctx : DeviceContext Single)
    (f : Nat → Nat) (r : Registers) :
    finish (R := R) ctx (r.map f) = finish (R := R) ctx r := by
  match r with
  | ⟨[v], []⟩ => rfl
  | ⟨[], rs⟩ => cases rs <;> rfl
  | ⟨[v], b :: rs⟩ => rfl
  | ⟨v :: w :: vs, rs⟩ => rfl

end Invocation

/-- Two buffers hold the same instructions, at addresses that a function takes to those in the other
buffer. -/
structure Copy (f : Nat → Nat) (word word' : Nat → UInt32) (start : Nat)
    (decoded : List (Nat × Instruction Nat)) : Prop where
  stream : Stream word start decoded
  moved : Stream word' (f start) (decoded.map (moveEntry f))
  /-- Jumps lead to instructions. -/
  boundary : ∀ d ∈ decoded, ∀ t ∈ d.2.targets, t ∈ decoded.map (·.1)
  /-- The device accepts the addresses in both buffers. -/
  limit : ∀ a ∈ decoded.map (·.1), a < deviceAddressLimit ∧ f a < deviceAddressLimit

namespace Copy

variable {f : Nat → Nat} {word word' : Nat → UInt32} {start : Nat}
  {decoded : List (Nat × Instruction Nat)}

open Invocation

section Steps

variable (copy : Copy f word word' start decoded) (ctx : DeviceContext Single)
  (edges : Array Single) {a : Nat} {r : Registers} (ha : a ∈ decoded.map (·.1))
  (hr : ∀ b ∈ r.returns, b ∈ decoded.map (·.1))

include copy ha hr

/-- One instruction leads to the same place in both buffers, and to an instruction again. -/
theorem advance_map :
    advance (R := R) word' ctx edges ⟨f a, r.map f⟩ =
        (advance (R := R) word ctx edges ⟨a, r⟩).map f ∧
      (advance (R := R) word ctx edges ⟨a, r⟩).Known (· ∈ decoded.map (·.1)) := by
  obtain ⟨i, hi⟩ := getElem?_indexIn ha
  have hi' : (decoded.map (moveEntry f))[indexIn decoded a]? = some (f a, i.map f) := by
    rw [List.getElem?_map, hi]
    rfl
  obtain ⟨hopcode, hspells, hnext⟩ := copy.stream.getElem? hi
  obtain ⟨hopcode', hspells', hnext'⟩ := copy.moved.getElem? hi'
  obtain ⟨hlimit, hlimit'⟩ := copy.limit a ha
  by_cases hexit : i.opcode = .exit
  · rw [Instruction.opcode_map, hexit] at hopcode'
    rw [hexit] at hopcode
    simp only [advance, if_neg (Nat.not_le_of_lt hlimit), if_neg (Nat.not_le_of_lt hlimit'),
      hopcode, hopcode']
    exact ⟨rfl, trivial⟩
  · have hexit' : (i.map f).opcode ≠ .exit := Instruction.opcode_map f i ▸ hexit
    rw [advance_of_opcode hlimit hopcode hexit, advance_of_opcode hlimit' hopcode' hexit',
      step_eq_effect hspells, step_eq_effect hspells', shifts_effect ctx edges i r]
    rcases heffect : effect (R := R) ctx edges i r with - | ⟨flow, r'⟩
    · exact ⟨rfl, trivial⟩
    · obtain ⟨hflow, hr'⟩ := known_of_effect (copy.boundary _ (List.mem_of_getElem? hi)) hr heffect
      cases flow with
      | jump t => exact ⟨rfl, hflow, hr'⟩
      | next =>
        -- The next instruction of the one buffer is the next one of the other.
        obtain ⟨j, hj⟩ := hnext fun h ↦ hexit (h ▸ rfl)
        obtain ⟨j', hj'⟩ := hnext' fun h ↦ hexit' (h ▸ rfl)
        rw [List.getElem?_map, hj] at hj'
        have haddress : f (a + i.opcode.length (word a)) =
            f a + (i.map f).opcode.length (word' (f a)) := (Prod.mk.inj (Option.some.inj hj')).1
        refine ⟨?_, List.mem_map_of_mem (List.mem_of_getElem? hj), hr'⟩
        show Outcome.running ⟨_, _⟩ = Outcome.running ⟨_, _⟩
        rw [haddress]

/-- The run goes the same way in both buffers. -/
theorem run_map (fuel : Nat) :
    run (R := R) word' ctx edges fuel ⟨f a, r.map f⟩ =
      run (R := R) word ctx edges fuel ⟨a, r⟩ := by
  induction fuel generalizing a r with
  | zero => rfl
  | succ fuel ih =>
    obtain ⟨hadvance, hknown⟩ := copy.advance_map (R := R) ctx edges ha hr
    rw [run, run, hadvance]
    generalize advance (R := R) word ctx edges ⟨a, r⟩ = outcome at hknown
    rcases outcome with ⟨a', r'⟩ | r' | -
    · exact ih hknown.1 hknown.2
    · exact finish_map ctx f r'
    · rfl

end Steps

end Copy

variable {lines : List Line} {words : List UInt32} {offset : Nat}

/-- Words that are in a buffer from an address on. -/
def Holds (word : Nat → UInt32) (offset : Nat) (words : List UInt32) : Prop :=
  ∀ k (h : k < words.length), word (offset + k) = words[k]

/-- A buffer shows the words that it holds. -/
theorem Holds.wordsFrom_eq {word : Nat → UInt32} (h : Holds word offset words) :
    wordsFrom word offset words.length = words := by
  refine List.ext_getElem (by simp [wordsFrom]) fun k hk hk' ↦ ?_
  simp [wordsFrom, h k hk']

/-- Words behind a prefix are held at its length. -/
theorem holds_wordAt (before words after : List UInt32) :
    Holds (Invocation.wordAt (before ++ words ++ after).toArray) before.length words := by
  intro k hk
  have hlong : before.length + k < (before ++ words ++ after).toArray.size := by
    simp only [List.size_toArray, List.length_append]
    omega
  rw [Invocation.wordAt, Array.getD, dif_pos hlong]
  simp [hk]

/-- A complete list that is encoded is read from wherever its words are. -/
theorem exists_copy (complete : Line.Complete lines) (encodes : encode lines = .ok words)
    {word word' : Nat → UInt32} (holds : Holds word 0 words) (holds' : Holds word' offset words)
    (short : offset + words.length < deviceAddressLimit) :
    ∃ decoded, Copy (offset + ·) word word' 0 decoded := by
  obtain ⟨-, table, htable, hwords⟩ := encode_eq_ok encodes
  obtain ⟨located, nodup, -, -⟩ := located_of_locate htable
  let entries := Line.entries (placeAt table 0) 0 lines
  have hread {start : Nat} {buffer : Nat → UInt32} (hholds : Holds buffer start words)
      (hle : start ≤ offset) : Stream buffer start (entries.map (moveEntry (start + ·))) ∧
        ∀ d ∈ entries, start + d.1 < start + words.length := by
    have hfits : start + words.length ≤ 4294967296 := by
      rw [deviceAddressLimit] at short
      omega
    have hdecode := decodeFrom_encoded complete nodup located hwords hfits []
    rw [List.append_nil, ← hholds.wordsFrom_eq] at hdecode
    obtain ⟨hstream, hbounds⟩ := Stream.of_decodeFrom hdecode
    exact ⟨hstream, fun d hd ↦ hbounds _ (List.mem_map_of_mem hd)⟩
  have hstart : entries.map (moveEntry (0 + ·)) = entries := by
    refine List.map_id'' (fun d ↦ ?_) entries
    rw [moveEntry, Nat.zero_add, show (fun a ↦ 0 + a) = id from funext Nat.zero_add,
      Instruction.map_id]
  obtain ⟨hstream, hbounds⟩ := hread holds (Nat.zero_le _)
  rw [hstart] at hstream
  refine ⟨entries, hstream, (hread holds' (Nat.le_refl _)).1,
    target_mem_entries complete nodup located, fun a ha ↦ ?_⟩
  obtain ⟨d, hd, rfl⟩ := List.mem_map.1 ha
  have := hbounds d hd
  omega

/-- Encoded lists run on the device as if they stood alone at its start: the words in front of a
list and behind it do not matter, for the color that is shown, nor for the answer or the lack of one
after any number of instructions. -/
theorem execute_relocated (complete : Line.Complete lines) (encodes : encode lines = .ok words)
    (before after : List UInt32)
    (short : (before ++ words ++ after).length < deviceAddressLimit) (ctx : DeviceContext Single)
    (edges : Array Single) :
    Invocation.execute (R := R) (before ++ words ++ after) before.length ctx edges =
        Invocation.execute (R := R) words 0 ctx edges ∧
      ∀ word : Nat → UInt32, Holds word before.length words → ∀ fuel,
        Invocation.run (R := R) word ctx edges fuel ⟨before.length, {}⟩ =
          Invocation.run (R := R) (Invocation.wordAt words.toArray) ctx edges fuel ⟨0, {}⟩ := by
  have hfits : before.length + words.length < deviceAddressLimit := by
    rw [List.length_append, List.length_append] at short
    omega
  have halone : Holds (Invocation.wordAt words.toArray) 0 words := by
    simpa using holds_wordAt [] words []
  have hrun (word : Nat → UInt32) (holds : Holds word before.length words) (fuel : Nat) :
      Invocation.run (R := R) word ctx edges fuel ⟨before.length, {}⟩ =
        Invocation.run (R := R) (Invocation.wordAt words.toArray) ctx edges fuel ⟨0, {}⟩ := by
    obtain ⟨decoded, copy⟩ := exists_copy complete encodes halone holds hfits
    obtain ⟨i, hi⟩ := copy.stream.head
    have hstart := List.mem_of_getElem? hi
    exact copy.run_map ctx edges (List.mem_map_of_mem hstart) (r := {}) nofun fuel
  refine ⟨?_, hrun⟩
  rw [Invocation.execute, hrun _ (holds_wordAt before words after), Invocation.execute]

/-- An opaque white that jumps over one instruction to the exit. -/
def skipLines : List Line :=
  [.op (.pushColor (.splat ⟨0x3f800000⟩)), .op (.opaqueJump 5), .op .premultiply, .mark 5,
    .op .exit]

def skipWords : List UInt32 :=
  [2, 0x3f800000, 0x3f800000, 0x3f800000, 0x3f800000, 3, 3, 7, 0]

theorem execute_skipWords_relocated :
    letI := singleModel
    letI := singleRounding
    Line.Complete skipLines ∧ encode skipLines = .ok skipWords ∧
      ([3, 7] ++ skipWords ++ [1]).length < deviceAddressLimit ∧
      Invocation.execute (R := Single) ([3, 7] ++ skipWords ++ [1]) 2 default #[] =
        Invocation.execute (R := Single) skipWords 0 default #[] ∧
      ∀ word : Nat → UInt32, Holds word 2 skipWords → ∀ fuel,
        Invocation.run (R := Single) word default #[] fuel ⟨2, {}⟩ =
          Invocation.run (R := Single) (Invocation.wordAt skipWords.toArray) default #[] fuel
            ⟨0, {}⟩ := by
  have complete : Line.Complete skipLines :=
    ⟨[.op (.pushColor (.splat ⟨0x3f800000⟩)), .op (.opaqueJump 5), .op .premultiply, .mark 5], [],
      rfl, by decide, rfl, by decide⟩
  have encodes : encode skipLines = .ok skipWords := by rfl
  have short : ([3, 7] ++ skipWords ++ [1]).length < deviceAddressLimit := by decide
  exact ⟨complete, encodes, short,
    @execute_relocated Single singleModel singleRounding _ _ complete encodes [3, 7] [1] short
      default #[]⟩

end Shading
