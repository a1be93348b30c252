/-!
# JSON values

Values as a document spells them, and the two ways of writing them: on one line, and indented.

Shape decisions: a number is kept as its numeral, because documents restrict some numbers by their
spelling; what number it stands for is asked where one is expected. Text that is escaped but stands
for no sequence of characters (half of a surrogate pair) is kept as `none`, so that it can be passed
over where nothing is expected of it.
-/

namespace Shading

/-- A number as it is spelled: a sign, whole digits, digits behind a point and an exponent. -/
structure Numeral where
  negative : Bool
  whole : List Nat
  fraction : Option (List Nat)
  exponent : Option Int
deriving DecidableEq, Repr

inductive Json where
  | null
  | bool (b : Bool)
  | number (n : Numeral)
  /-- A number by the text that is written for it. -/
  | literal (text : String)
  | string (s : Option String)
  | array (items : List Json)
  | object (fields : List (Option String × Json))

namespace Json

/-- An object with all of its fields. -/
def record (fields : List (String × Json)) : Json :=
  .object (fields.map fun f ↦ (some f.1, f.2))

def name (s : String) : Json := .string (some s)

/-- The digit of a number below sixteen. -/
def hexDigit (n : Nat) : Char := Nat.digitChar n

/-- A character within a string. -/
def escape (c : Char) : List Char :=
  match c with
  | '"' => ['\\', '"']
  | '\\' => ['\\', '\\']
  | '\n' => ['\\', 'n']
  | '\r' => ['\\', 'r']
  | '\t' => ['\\', 't']
  | _ =>
    if c.toNat = 8 then ['\\', 'b']
    else if c.toNat = 12 then ['\\', 'f']
    else if c.toNat < 32 then
      ['\\', 'u', '0', '0', hexDigit (c.toNat / 16), hexDigit (c.toNat % 16)]
    else [c]

def quote (s : String) : String :=
  String.ofList (['"'] ++ s.toList.flatMap escape ++ ['"'])

def digitText (ds : List Nat) : String := String.ofList (ds.map Nat.digitChar)

def numeralText (n : Numeral) : String :=
  (if n.negative then "-" else "") ++ digitText n.whole ++
    (match n.fraction with
      | some ds => "." ++ digitText ds
      | none => "") ++
    match n.exponent with
      | some e => "e" ++ toString e
      | none => ""

mutual

/-- The text of a value on one line, without blanks. -/
def compact : Json → String
  | .null => "null"
  | .bool b => if b then "true" else "false"
  | .number n => numeralText n
  | .literal text => text
  | .string s => quote (s.getD "")
  | .array items => "[" ++ ",".intercalate (compactItems items) ++ "]"
  | .object fields => "\x7b" ++ ",".intercalate (compactFields fields) ++ "\x7d"

def compactItems : List Json → List String
  | [] => []
  | j :: rest => compact j :: compactItems rest

def compactFields : List (Option String × Json) → List String
  | [] => []
  | (key, j) :: rest => (quote (key.getD "") ++ ":" ++ compact j) :: compactFields rest

end

/-- Items on lines of their own between brackets, indented by one step more than the brackets. -/
def block (opening closing : String) (indent : Nat) (items : List String) : String :=
  match items with
  | [] => opening ++ closing
  | _ =>
    let margin := "".pushn ' ' (2 * indent)
    let step := "".pushn ' ' (2 * (indent + 1))
    opening ++ "\n" ++ ",\n".intercalate (items.map (step ++ ·)) ++ "\n" ++ margin ++ closing

mutual

/-- The text of a value with every item and field on a line of its own. -/
def pretty (indent : Nat) : Json → String
  | .array items => block "[" "]" indent (prettyItems (indent + 1) items)
  | .object fields => block "\x7b" "\x7d" indent (prettyFields (indent + 1) fields)
  | j => compact j

def prettyItems (indent : Nat) : List Json → List String
  | [] => []
  | j :: rest => pretty indent j :: prettyItems indent rest

def prettyFields (indent : Nat) : List (Option String × Json) → List String
  | [] => []
  | (key, j) :: rest =>
    (quote (key.getD "") ++ ": " ++ pretty indent j) :: prettyFields indent rest

end

end Json

end Shading
