/-
# Writing TOML

A text is written in the plainest kind of quotes that can hold it: on one line in double or single
quotes without escapes, then between three quotes, and with escapes if nothing else will do.
-/
import TypedHypergraph.Json.Printer

namespace TypedHypergraph.Toml

/-! ## Texts -/

/-- The kinds of quotes. -/
inductive Quotes
  | basic
  | literal
  | longBasic
  | longLiteral
  deriving DecidableEq, Repr

/-- The longest row of a character in a text, given the length of the row that ends here and the
longest one so far. -/
def longestRow (c : Char) : Nat → Nat → List Char → Nat
  | _, longest, [] => longest
  | row, longest, d :: rest =>
    let row := if d = c then row + 1 else 0
    longestRow c row (max longest row) rest

/-- Whether a character can only be written by an escape. -/
def isCode (c : Char) : Bool := (c.toNat < 32 && c != '\t' && c != '\n') || c.toNat = 127

/-- The kind of quotes for a text. -/
def quotesFor (cs : List Char) : Quotes :=
  let codes := cs.any isCode
  let backslash := cs.contains '\\'
  let lines := cs.contains '\n'
  let doubles := longestRow '"' 0 0 cs
  let singles := longestRow '\'' 0 0 cs
  if !codes && !backslash && !lines && doubles = 0 then .basic
  else if !codes && !lines && singles = 0 then .literal
  else if !codes && !backslash && doubles ≤ 2 then .longBasic
  else if !codes && singles ≤ 2 then .longLiteral
  else if lines then .longBasic
  else .basic

/-- Four hexadecimal digits in upper case. -/
def hexQuad (n : Nat) : String :=
  let digits := (Nat.toDigits 16 n).map Char.toUpper
  String.ofList (List.replicate (4 - digits.length) '0' ++ digits)

/-- How a character stands in double quotes, where line ends may be kept as they are. -/
def escapeChar (keepLines : Bool) (c : Char) : String :=
  match c with
  | '\x08' => "\\b"
  | '\t' => "\\t"
  | '\n' => if keepLines then "\n" else "\\n"
  | '\x0c' => "\\f"
  | '\r' => "\\r"
  | '\\' => "\\\\"
  | c => if isCode c then "\\u" ++ hexQuad c.toNat else String.singleton c

/-- Write the characters of a text in double quotes, given how many quotes stand in a row before
and how many of them may. -/
def escapeAll (keepLines : Bool) (most : Nat) : Nat → List Char → String
  | _, [] => ""
  | row, '"' :: rest =>
    if row < most then "\"" ++ escapeAll keepLines most (row + 1) rest
    else "\\\"" ++ escapeAll keepLines most 0 rest
  | _, c :: rest => escapeChar keepLines c ++ escapeAll keepLines most 0 rest

/-- A text in quotes. -/
def quote (s : String) : String :=
  let cs := s.toList
  let firstLine := if cs.contains '\n' then "\n" else ""
  match quotesFor cs with
  | .basic => "\"" ++ escapeAll false 0 0 cs ++ "\""
  | .literal => "'" ++ s ++ "'"
  | .longBasic => "\"\"\"" ++ firstLine ++ escapeAll true 2 0 cs ++ "\"\"\""
  | .longLiteral => "'''" ++ firstLine ++ s ++ "'''"

/-! ## Entries -/

/-- A list of texts; several stand on lines of their own. -/
def quoteAll : List String → String
  | [] => "[]"
  | [s] => "[" ++ quote s ++ "]"
  | texts => "[\n" ++ String.join (texts.map fun s => "    " ++ quote s ++ ",\n") ++ "]"

/-- An entry on a line of its own. -/
def entry (key value : String) : String := key ++ " = " ++ value ++ "\n"

end TypedHypergraph.Toml
