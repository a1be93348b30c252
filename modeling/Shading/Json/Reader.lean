import Shading.Json.Value

/-!
# Reading JSON

The strict grammar: no comments, no trailing commas, no leading zeros or plus signs, and nothing but
blanks behind the value.

Shape decisions: a reader takes the characters that are left and answers with a value and the
characters behind it, or with nothing. The recursion through arrays and objects is bounded by the
number of characters, of which every step uses up at least one.
-/

namespace Shading.Json

/-- A reader of some part of a text. -/
abbrev Parser (α : Type) := List Char → Option (α × List Char)

def isBlank (c : Char) : Bool := c == ' ' || c == '\n' || c == '\t' || c == '\r'

def skipBlanks (cs : List Char) : List Char := cs.dropWhile isBlank

/-- The characters of a word in front of the rest. -/
def expect : List Char → Parser Unit
  | [], cs => some ((), cs)
  | w :: ws, c :: cs => if w = c then expect ws cs else none
  | _ :: _, [] => none

def digitValue (c : Char) : Nat := c.toNat - '0'.toNat

/-- All digits at the front. -/
def digits (cs : List Char) : List Nat × List Char :=
  ((cs.takeWhile Char.isDigit).map digitValue, cs.dropWhile Char.isDigit)

/-- At least one digit. -/
def someDigits : Parser (List Nat) := fun cs ↦
  match digits cs with
  | ([], _) => none
  | (ds, rest) => some (ds, rest)

/-- Whole digits, without a zero in front of others. -/
def wholeDigits : Parser (List Nat) := fun cs ↦
  match someDigits cs with
  | some (0 :: _ :: _, _) => none
  | other => other

/-- The digits behind a point, if there is one. -/
def fractionDigits : Parser (Option (List Nat)) := fun cs ↦
  match cs with
  | '.' :: rest => do
    let (ds, rest) ← someDigits rest
    return (some ds, rest)
  | _ => some (none, cs)

def naturalOf (ds : List Nat) : Nat := ds.foldl (fun n d ↦ 10 * n + d) 0

/-- An exponent, if there is one. -/
def exponentPart : Parser (Option Int) := fun cs ↦
  match cs with
  | c :: rest =>
    if c = 'e' ∨ c = 'E' then do
      let (negative, rest) := match rest with
        | '+' :: rest => (false, rest)
        | '-' :: rest => (true, rest)
        | _ => (false, rest)
      let (ds, rest) ← someDigits rest
      let n : Int := naturalOf ds
      return (some (if negative then -n else n), rest)
    else some (none, cs)
  | [] => some (none, [])

def numeral : Parser Numeral := fun cs ↦ do
  let (negative, cs) := match cs with
    | '-' :: rest => (true, rest)
    | _ => (false, cs)
  let (whole, cs) ← wholeDigits cs
  let (fraction, cs) ← fractionDigits cs
  let (exponent, cs) ← exponentPart cs
  return (⟨negative, whole, fraction, exponent⟩, cs)

def hexValue? (c : Char) : Option Nat :=
  if c.isDigit then some (c.toNat - '0'.toNat)
  else if 'a' ≤ c ∧ c ≤ 'f' then some (c.toNat - 'a'.toNat + 10)
  else if 'A' ≤ c ∧ c ≤ 'F' then some (c.toNat - 'A'.toNat + 10)
  else none

/-- The unit that four digits to the base sixteen stand for. -/
def hexUnit : Parser Nat
  | a :: b :: c :: d :: rest => do
    let high := (← hexValue? a) * 16 + (← hexValue? b)
    let low := (← hexValue? c) * 16 + (← hexValue? d)
    return (high * 256 + low, rest)
  | _ => none

/-- The character that one letter behind a backslash stands for. -/
def shortEscape? : Char → Option Nat
  | '"' => some 34
  | '\\' => some 92
  | '/' => some 47
  | 'b' => some 8
  | 'f' => some 12
  | 'n' => some 10
  | 'r' => some 13
  | 't' => some 9
  | _ => none

/-- The units of a string up to its closing quote: characters, and escaped units of sixteen bits. -/
def stringUnits : Nat → Parser (List (Bool × Nat))
  | 0, _ => none
  | _, [] => none
  | fuel + 1, c :: rest =>
    if c = '"' then some ([], rest)
    else if c.toNat < 32 then none
    else if c = '\\' then
      match rest with
      | 'u' :: rest => do
        let (unit, rest) ← hexUnit rest
        let (units, rest) ← stringUnits fuel rest
        return ((true, unit) :: units, rest)
      | e :: rest => do
        let code ← shortEscape? e
        let (units, rest) ← stringUnits fuel rest
        return ((false, code) :: units, rest)
      | [] => none
    else do
      let (units, rest) ← stringUnits fuel rest
      return ((false, c.toNat) :: units, rest)

/-- The characters of units; escaped surrogates have to come in pairs. -/
def charsOfUnits : List (Bool × Nat) → Option (List Char)
  | [] => some []
  | (true, high) :: (true, low) :: rest =>
    if 0xd800 ≤ high ∧ high < 0xdc00 then
      if 0xdc00 ≤ low ∧ low < 0xe000 then do
        let code := 0x10000 + (high - 0xd800) * 0x400 + (low - 0xdc00)
        return Char.ofNat code :: (← charsOfUnits rest)
      else none
    else if 0xdc00 ≤ high ∧ high < 0xe000 then none
    else do return Char.ofNat high :: (← charsOfUnits ((true, low) :: rest))
  | (escaped, code) :: rest =>
    if escaped ∧ 0xd800 ≤ code ∧ code < 0xe000 then none
    else do return Char.ofNat code :: (← charsOfUnits rest)

/-- A string behind its opening quote. -/
def stringBody : Parser (Option String) := fun cs ↦ do
  let (units, rest) ← stringUnits (cs.length + 1) cs
  return ((charsOfUnits units).map String.ofList, rest)

mutual

/-- A value at the front of the text. -/
def value : Nat → Parser Json
  | 0, _ => none
  | fuel + 1, cs =>
    match skipBlanks cs with
    | [] => none
    | '[' :: rest =>
      match skipBlanks rest with
      | ']' :: rest => some (.array [], rest)
      | rest => do
        let (items, rest) ← items fuel rest
        return (.array items, rest)
    | '\x7b' :: rest =>
      match skipBlanks rest with
      | '\x7d' :: rest => some (.object [], rest)
      | rest => do
        let (fields, rest) ← fields fuel rest
        return (.object fields, rest)
    | '"' :: rest => do
      let (s, rest) ← stringBody rest
      return (.string s, rest)
    | 'n' :: rest => do return (.null, (← expect ['u', 'l', 'l'] rest).2)
    | 't' :: rest => do return (.bool true, (← expect ['r', 'u', 'e'] rest).2)
    | 'f' :: rest => do return (.bool false, (← expect ['a', 'l', 's', 'e'] rest).2)
    | rest => do
      let (n, rest) ← numeral rest
      return (.number n, rest)

/-- The items of an array up to its closing bracket. -/
def items : Nat → Parser (List Json)
  | 0, _ => none
  | fuel + 1, cs => do
    let (first, rest) ← value fuel cs
    match skipBlanks rest with
    | ',' :: rest =>
      let (more, rest) ← items fuel rest
      return (first :: more, rest)
    | ']' :: rest => return ([first], rest)
    | _ => none

/-- The fields of an object up to its closing brace. -/
def fields : Nat → Parser (List (Option String × Json))
  | 0, _ => none
  | fuel + 1, cs =>
    match skipBlanks cs with
    | '"' :: rest => do
      let (key, rest) ← stringBody rest
      match skipBlanks rest with
      | ':' :: rest =>
        let (first, rest) ← value fuel rest
        match skipBlanks rest with
        | ',' :: rest =>
          let (more, rest) ← fields fuel rest
          return ((key, first) :: more, rest)
        | '\x7d' :: rest => return ([(key, first)], rest)
        | _ => none
      | _ => none
    | _ => none

end

/-- The value of a text, with nothing but blanks around it. -/
def parse? (text : String) : Option Json := do
  let cs := text.toList
  let (j, rest) ← value (2 * cs.length + 1) cs
  if (skipBlanks rest).isEmpty then some j else none

end Shading.Json
