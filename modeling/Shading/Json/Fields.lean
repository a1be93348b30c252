import Shading.Json.Number

/-!
# Reading documents

How a record is read from a value. Its fields may be given by name, in any order, among others that
are passed over, but none twice; or as an array in the order of the record.

Shape decisions: a reader answers with `none` for a value of the wrong form, without a cause. What a
missing field means is said where the field is read: it may be required, have a default, or be
something that may be absent, which an array cannot leave out.
-/

namespace Shading.Json

/-- The fields of a record, in order, with those that are missing. -/
structure Slots where
  values : List (Option Json)
  /-- The fields were given as an array. -/
  positional : Bool

/-- The only field of a name; nothing at all if there are several. -/
def unique? (name : String) (fields : List (Option String × Json)) : Option (Option Json) :=
  match fields.filter (·.1 == some name) with
  | [] => some none
  | [f] => some (some f.2)
  | _ => none

/-- The fields with the given names. -/
def slots? (names : List String) : Json → Option Slots
  | .object fields =>
    if fields.all (·.1.isSome) then do
      return ⟨← names.mapM fun name ↦ unique? name fields, false⟩
    else none
  | .array items =>
    if items.length ≤ names.length then
      some ⟨items.map some ++ List.replicate (names.length - items.length) none, true⟩
    else none
  | _ => none

namespace Slots

variable {α : Type}

/-- The field at a position, whether or not it is there. -/
def at? (s : Slots) (i : Nat) : Option Json := s.values.getD i none

/-- A field that has to be there. -/
def required (s : Slots) (i : Nat) (read : Json → Option α) : Option α :=
  (s.at? i).bind read

/-- A field that stands for the default if it is missing. -/
def defaulted (s : Slots) (i : Nat) (default : α) (read : Json → Option α) : Option α :=
  match s.at? i with
  | some j => read j
  | none => some default

/-- The value, or nothing for null. -/
def orNull (read : Json → Option α) : Json → Option (Option α)
  | .null => some none
  | j => (read j).map some

/-- A field that may be null, or missing unless fields are given by position. -/
def nullable (s : Slots) (i : Nat) (read : Json → Option α) : Option (Option α) :=
  match s.at? i with
  | some j => orNull read j
  | none => if s.positional then none else some none

end Slots

def bool? : Json → Option Bool
  | .bool b => some b
  | _ => none

def double? : Json → Option Float
  | .number n => n.double?
  | _ => none

/-- A whole number of at most the given bound. -/
def natural? (bound : Nat) : Json → Option Nat
  | .number n => n.natural? bound
  | _ => none

/-- A whole number of 32 bits with a sign. -/
def integer32? : Json → Option Int
  | .number n => do
    let m ← n.integer?
    if -2147483648 ≤ m ∧ m ≤ 2147483647 then some m else none
  | _ => none

/-- An array of any length. -/
def list? {α : Type} (read : Json → Option α) : Json → Option (List α)
  | .array items => items.mapM read
  | _ => none

/-- An array of exactly so many doubles. -/
def doubles? (count : Nat) (j : Json) : Option (List Float) := do
  let xs ← list? double? j
  if xs.length = count then some xs else none

/-- The case with a name, given as the name or as an object with the name as its only field and
nothing in it. -/
def oneOf? {α : Type} (all : List α) (name : α → String) (j : Json) : Option α := do
  let key ← match j with
    | .string s => s
    | .object [(key, .null)] => key
    | .object [(key, .object [])] => key
    | _ => none
  all.find? fun a ↦ name a == key

mutual

/-- Every number is in range, all text is made of characters, and no more than the given number of
arrays and objects are nested. -/
def isSound : Nat → Json → Bool
  | _, .number n => n.double?.isSome
  | _, .string s => s.isSome
  | 0, .array _ => false
  | depth + 1, .array items => soundItems depth items
  | 0, .object _ => false
  | depth + 1, .object fields => soundFields depth fields
  | _, _ => true

def soundItems : Nat → List Json → Bool
  | _, [] => true
  | depth, j :: rest => isSound depth j && soundItems depth rest

def soundFields : Nat → List (Option String × Json) → Bool
  | _, [] => true
  | depth, (key, j) :: rest => key.isSome && isSound depth j && soundFields depth rest

end

/-- The number of arrays and objects that may be nested. -/
def nestingLimit : Nat := 127

end Shading.Json
