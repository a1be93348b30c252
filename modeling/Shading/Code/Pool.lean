import Std.Data.HashMap
import Shading.Code.Encode

/-!
# Pools of programs

Many encoded programs in one buffer, equal ones stored once. Programs are recognised by a
fingerprint; since fingerprints may collide, a program found by its fingerprint is compared word by
word before its place is reused.

Shape decisions: the fingerprint is a parameter, so nothing depends on how good it is. When two
programs collide, the later one takes over the entry of the fingerprint.
-/

namespace Shading

/-- The words stored, where the last program of each fingerprint lies, and how many programs were
pushed. -/
structure Pool (φ : Type) [BEq φ] [Hashable φ] where
  words : Array UInt32 := #[]
  known : Std.HashMap φ (Nat × Nat) := {}
  programs : Nat := 0

namespace Pool

variable {φ : Type} [BEq φ] [Hashable φ]

/-- The offset of the program if the entry of its fingerprint holds the very same words. -/
def find? (pool : Pool φ) (fingerprint : List UInt32 → φ) (words : List UInt32) : Option Nat :=
  match pool.known[fingerprint words]? with
  | some (offset, length) =>
    if (pool.words.extract offset (offset + length)).toList = words then some offset else none
  | none => none

/-- Stores a program that is encoded already, unless the same words are found; answers with the
offset of the program. A program is counted also if it finds no room. -/
def pushWords (fingerprint : List UInt32 → φ) (pool : Pool φ) (words : List UInt32) :
    Except EncodeError Nat × Pool φ :=
  let pool := { pool with programs := pool.programs + 1 }
  match pool.find? fingerprint words with
  | some offset => (.ok offset, pool)
  | none =>
    let offset := pool.words.size
    if offset < addressSpace then
      (.ok offset, { pool with
        words := pool.words ++ words.toArray
        known := pool.known.insert (fingerprint words) (offset, words.length) })
    else (.error .poolFull, pool)

/-- Encodes a list and stores its words. -/
def push (fingerprint : List UInt32 → φ) (pool : Pool φ) (lines : List Line) :
    Except EncodeError Nat × Pool φ :=
  match encode lines with
  | .ok words => pool.pushWords fingerprint words
  | .error cause => (.error cause, pool)

/-- The number of different programs stored. -/
def uniqueCount (pool : Pool φ) : Nat := pool.known.size

end Pool

end Shading
