/-
# Writing JSON

A value is written on one line, or with every item and member on a line of its own.
-/
import TypedHypergraph.Json.Value

namespace TypedHypergraph.Json

/-! ## Texts -/

/-- The digit for a number below sixteen. -/
def hexDigit (n : Nat) : Char := if n < 10 then Char.ofNat (48 + n) else Char.ofNat (87 + n)

/-- How one character stands inside quotes: quotes, backslashes and control characters are
escaped, all others stand for themselves. -/
def escapeChar (c : Char) : List Char :=
  match c with
  | '"' => ['\\', '"']
  | '\\' => ['\\', '\\']
  | '\x08' => ['\\', 'b']
  | '\x0c' => ['\\', 'f']
  | '\n' => ['\\', 'n']
  | '\r' => ['\\', 'r']
  | '\t' => ['\\', 't']
  | c =>
    if c.toNat < 32 then
      ['\\', 'u', '0', '0', hexDigit (c.toNat / 16), hexDigit (c.toNat % 16)]
    else [c]

/-- A text in quotes. -/
def quote (s : String) : String :=
  "\"" ++ String.ofList (s.toList.flatMap escapeChar) ++ "\""

/-! ## Numbers -/

/-- A finite positive numeral that shows that it is no whole number: with a point, or with an
exponent if its leading digit stands far from the point. -/
def floatText (n : Decimal.Numeral) : String :=
  let digits := toString n.coefficient
  let point := digits.length + n.exponent
  if -5 < point ∧ point ≤ 16 then
    if 0 ≤ n.exponent then n.positional ++ ".0" else n.positional
  else
    let rest := String.ofList (digits.toList.drop 1)
    String.ofList (digits.toList.take 1) ++ (if rest.isEmpty then "" else "." ++ rest) ++ "e"
      ++ toString (point - 1)

/-- The text of a number; there is none for infinities and for what is no number. -/
def Number.text : Number → String
  | int n => toString n
  | float x =>
    if x.isNaN || x.isInf then "null"
    else
      let b := Decimal.Binary.ofBits x.toBits
      let magnitude := if b.mantissa = 0 then "0.0" else floatText b.shortest
      if Decimal.isNegative x then "-" ++ magnitude else magnitude

/-! ## One line -/

mutual

/-- A value on one line without blanks. -/
def render : Json → String
  | null => "null"
  | bool true => "true"
  | bool false => "false"
  | num n => n.text
  | str s => quote s
  | arr items => "[" ++ renderItems items ++ "]"
  | obj members => "\x7b" ++ renderMembers members ++ "\x7d"

/-- Several items on one line, with commas between them. -/
def renderItems : List Json → String
  | [] => ""
  | [item] => render item
  | item :: rest => render item ++ "," ++ renderItems rest

/-- Several members on one line, with commas between them. -/
def renderMembers : List (String × Json) → String
  | [] => ""
  | [(name, value)] => quote name ++ ":" ++ render value
  | (name, value) :: rest => quote name ++ ":" ++ render value ++ "," ++ renderMembers rest

end

/-! ## Many lines -/

/-- The beginning of a line at a level. -/
def margin (level : Nat) : String := "\n" ++ String.join (List.replicate level "  ")

mutual

/-- A value whose parts stand on lines of their own, two blanks further in for each level. -/
def prettyAt (level : Nat) : Json → String
  | arr (item :: rest) =>
    "[" ++ margin (level + 1) ++ prettyItems (level + 1) (item :: rest) ++ margin level ++ "]"
  | obj (member :: rest) =>
    "\x7b" ++ margin (level + 1) ++ prettyMembers (level + 1) (member :: rest) ++ margin level
      ++ "\x7d"
  | value => render value

/-- Several items on lines of their own. -/
def prettyItems (level : Nat) : List Json → String
  | [] => ""
  | [item] => prettyAt level item
  | item :: rest => prettyAt level item ++ "," ++ margin level ++ prettyItems level rest

/-- Several members on lines of their own. -/
def prettyMembers (level : Nat) : List (String × Json) → String
  | [] => ""
  | [(name, value)] => quote name ++ ": " ++ prettyAt level value
  | (name, value) :: rest =>
    quote name ++ ": " ++ prettyAt level value ++ "," ++ margin level ++ prettyMembers level rest

end

/-- A value over several lines, each level indented further. -/
def pretty (value : Json) : String := prettyAt 0 value

end TypedHypergraph.Json
