/-
# Reading TOML

A text is read from left to right into the statements of its document.  Every reader of a part gives
what it has read together with the rest of the text, or nothing if the text is not well formed.

Where the recursion of a reader does not follow the text, a number is its fuel.  Twice the length of
a text is enough to read it: every second step takes at least one character.
-/
import TypedHypergraph.Json.Reader
import TypedHypergraph.Toml.Value

namespace TypedHypergraph.Toml

/-- A reader of a part of a text. -/
abbrev Part (α : Type) := List Char → Option (α × List Char)

/-! ## Blanks and lines -/

/-- Controls other than the tab may stand nowhere in a text. -/
def isControl (c : Char) : Bool := (c.toNat < 32 && c != '\t') || c.toNat = 127

/-- The text behind the blanks and tabs at its start. -/
def skipSpaces (cs : List Char) : List Char := cs.dropWhile fun c => c = ' ' || c = '\t'

/-- The rest behind the end of a line, if one is here. -/
def newline? : List Char → Option (List Char)
  | '\n' :: rest => some rest
  | '\r' :: '\n' :: rest => some rest
  | _ => none

/-- Skip a comment, if one is here, up to the end of its line. -/
def skipComment : List Char → List Char
  | '#' :: rest => rest.dropWhile fun c => !isControl c
  | cs => cs

/-- Skip what may stand between a statement and the next line. -/
def lineEnd? (cs : List Char) : Option (List Char) :=
  match skipComment (skipSpaces cs) with
  | [] => some []
  | rest => newline? rest

/-- Skip spaces, line ends and comments from a place that may be inside of a comment. -/
def skipFrom (inComment : Bool) : List Char → List Char
  | [] => []
  | '\r' :: '\n' :: rest => skipFrom false rest
  | c :: rest =>
    if c = '\n' then skipFrom false rest
    else if inComment then if isControl c then c :: rest else skipFrom true rest
    else if c = '#' then skipFrom true rest
    else if c = ' ' || c = '\t' then skipFrom false rest
    else c :: rest

/-- Skip spaces, line ends and comments. -/
def skipLines (cs : List Char) : List Char := skipFrom false cs

/-! ## Texts -/

/-- The number of some hexadecimal digits at the beginning of a text. -/
def hexNumber? : Nat → Nat → Part Nat
  | 0, n, cs => some (n, cs)
  | count + 1, n, c :: rest => do
    let d ← Scanned.hexValue? c
    hexNumber? count (n * 16 + d) rest
  | _ + 1, _, [] => none

/-- The character with a number, if there is one. -/
def charOf? (n : Nat) : Option Char := if h : n.isValidChar then some (Char.ofNatAux n h) else none

/-- Read what follows a backslash. -/
def escape? : Part Char
  | 'b' :: rest => some ('\x08', rest)
  | 't' :: rest => some ('\t', rest)
  | 'n' :: rest => some ('\n', rest)
  | 'f' :: rest => some ('\x0c', rest)
  | 'r' :: rest => some ('\r', rest)
  | 'e' :: rest => some ('\x1b', rest)
  | '"' :: rest => some ('"', rest)
  | '\\' :: rest => some ('\\', rest)
  | 'x' :: rest => numbered 2 rest
  | 'u' :: rest => numbered 4 rest
  | 'U' :: rest => numbered 8 rest
  | _ => none
where
  /-- Read the number of a character. -/
  numbered (digits : Nat) : Part Char := fun cs => do
    let (n, rest) ← hexNumber? digits 0 cs
    return (← charOf? n, rest)

/-- Read a text on one line behind its opening quote, given the characters before (the last one
first). -/
def basic? : Nat → List Char → Part String
  | 0, _, _ => none
  | _ + 1, _, [] => none
  | _ + 1, before, '"' :: rest => some (String.ofList before.reverse, rest)
  | fuel + 1, before, '\\' :: rest => do
    let (c, rest) ← escape? rest
    basic? fuel (c :: before) rest
  | fuel + 1, before, c :: rest => if isControl c then none else basic? fuel (c :: before) rest

/-- Read a text without escapes on one line behind its opening quote. -/
def literal? (before : List Char) : Part String
  | [] => none
  | '\'' :: rest => some (String.ofList before.reverse, rest)
  | c :: rest => if isControl c then none else literal? (c :: before) rest

/-- Skip the line end right behind an opening of three quotes. -/
def skipFirstLine (cs : List Char) : List Char := (newline? cs).getD cs

/-- How many of some quotes in a row belong to the text before its closing three quotes; nothing if
they do not close it. -/
def beforeClosing? (quotes : Nat) : Option Nat :=
  if 3 ≤ quotes ∧ quotes ≤ 5 then some (quotes - 3) else none

/-- Skip spaces and line ends. -/
def skipBlankLines : List Char → List Char
  | [] => []
  | '\r' :: '\n' :: rest => skipBlankLines rest
  | c :: rest => if c = ' ' || c = '\t' || c = '\n' then skipBlankLines rest else c :: rest

/-- Skip the rest of a line behind a backslash and the blanks of the lines that follow. -/
def foldLine? (cs : List Char) : Option (List Char) :=
  (newline? (skipSpaces cs)).map skipBlankLines

/-- Read a text on several lines between three quotes of a kind.  The line ends in it stay as they
are. -/
def multiline? (quote : Char) : Nat → List Char → Part String
  | 0, _, _ => none
  | _ + 1, _, [] => none
  | fuel + 1, before, c :: rest =>
    if c = quote then
      let quotes := 1 + (rest.takeWhile (· = quote)).length
      let rest := rest.dropWhile (· = quote)
      if quotes < 3 then multiline? quote fuel (List.replicate quotes quote ++ before) rest
      else do
        let more ← beforeClosing? quotes
        return (String.ofList (List.replicate more quote ++ before).reverse, rest)
    else if c = '\\' && quote = '"' then
      match foldLine? rest with
      | some rest => multiline? quote fuel before rest
      | none => do
        let (c, rest) ← escape? rest
        multiline? quote fuel (c :: before) rest
    else if isControl c && (newline? (c :: rest)).isNone then none
    else multiline? quote fuel (c :: before) rest

/-- Read a text in any kind of quotes. -/
def text? (fuel : Nat) : Part String
  | '"' :: '"' :: '"' :: rest => multiline? '"' fuel [] (skipFirstLine rest)
  | '"' :: rest => basic? fuel [] rest
  | '\'' :: '\'' :: '\'' :: rest => multiline? '\'' fuel [] (skipFirstLine rest)
  | '\'' :: rest => literal? [] rest
  | _ => none

/-! ## Keys -/

/-- Whether a character can stand in a key without quotes. -/
def isBareKeyChar (c : Char) : Bool := c.isAlphanum || c = '_' || c = '-'

/-- Read one part of a key. -/
def keyPart? (fuel : Nat) : Part String
  | '"' :: rest => basic? fuel [] rest
  | '\'' :: rest => literal? [] rest
  | cs =>
    match cs.takeWhile isBareKeyChar with
    | [] => none
    | name => some (String.ofList name, cs.dropWhile isBareKeyChar)

/-- The most parts that a key can have. -/
def maxKeyParts : Nat := 80

/-- Read a key, given the parts before. -/
def key? : Nat → List String → Part Key
  | 0, _, _ => none
  | fuel + 1, before, cs => do
    let (name, rest) ← keyPart? fuel cs
    match skipSpaces rest with
    | '.' :: rest =>
      if before.length + 1 < maxKeyParts then key? fuel (before ++ [name]) (skipSpaces rest)
      else none
    | rest => return ((before, name), rest)

/-! ## Numbers -/

/-- Digits with underscores between them: the digits. -/
def ungroup? (isDigit : Char → Bool) : List Char → Option (List Char)
  | [] => none
  | [c] => if isDigit c then some [c] else none
  | c :: '_' :: rest => if isDigit c then (ungroup? isDigit rest).map (c :: ·) else none
  | c :: rest => if isDigit c then (ungroup? isDigit rest).map (c :: ·) else none

/-- The number of some digits in a base. -/
def numberIn (base : Nat) (ds : List Char) : Nat :=
  ds.foldl (fun n c => n * base + (Scanned.hexValue? c).getD 0) 0

/-- Whether a character is a digit to a base. -/
def isDigitBelow (base : Nat) (c : Char) : Bool :=
  match Scanned.hexValue? c with
  | some n => n < base
  | none => false

/-- A sign at the beginning of a number, and what follows. -/
def splitSign : List Char → Bool × List Char
  | '+' :: rest => (false, rest)
  | '-' :: rest => (true, rest)
  | cs => (false, cs)

/-- A whole part has no zero before another digit. -/
def whole? (cs : List Char) : Option (List Char) :=
  match ungroup? Char.isDigit cs with
  | some ('0' :: _ :: _) => none
  | ds => ds

/-- The whole number that a text says, to base ten or behind a mark to another base. -/
def integer? (cs : List Char) : Option Value :=
  match cs with
  | '0' :: 'x' :: rest => (ungroup? (isDigitBelow 16) rest).map fun ds => .int (numberIn 16 ds)
  | '0' :: 'o' :: rest => (ungroup? (isDigitBelow 8) rest).map fun ds => .int (numberIn 8 ds)
  | '0' :: 'b' :: rest => (ungroup? (isDigitBelow 2) rest).map fun ds => .int (numberIn 2 ds)
  | cs => do
    let (negative, cs) := splitSign cs
    let n : Int := numberIn 10 (← whole? cs)
    return .int (if negative then -n else n)

/-- The number of an exponent behind its mark; zero if there is none. -/
def exponentOf? : List Char → Option Int
  | [] => some 0
  | _ :: rest => do
    let (negative, ds) := splitSign rest
    let n : Int := numberIn 10 (← ungroup? Char.isDigit ds)
    return if negative then -n else n

/-- Whether a character marks an exponent. -/
def isExponentMark (c : Char) : Bool := c = 'e' || c = 'E'

/-- The double that a text says. -/
def float? (cs : List Char) : Option Value := do
  let (negative, cs) := splitSign cs
  let sign (x : Float) : Value := .float (if negative then -x else x)
  if cs = ['i', 'n', 'f'] then
    return sign (1.0 / 0.0)
  if cs = ['n', 'a', 'n'] then
    return sign (0.0 / 0.0)
  let exponent ← exponentOf? (cs.dropWhile (!isExponentMark ·))
  let mantissa := cs.takeWhile (!isExponentMark ·)
  let whole ← whole? (mantissa.takeWhile (· ≠ '.'))
  let fraction ←
    match mantissa.dropWhile (· ≠ '.') with
    | [] => pure []
    | _ :: rest => ungroup? Char.isDigit rest
  let x := (Decimal.Numeral.mk (numberIn 10 (whole ++ fraction))
    (exponent - fraction.length)).toFloat
  if x.isInf then none else return sign x

/-! ## Dates and times -/

/-- The number of exactly some decimal digits at the beginning of a text. -/
def fixed? : Nat → Nat → Part Nat
  | 0, n, cs => some (n, cs)
  | count + 1, n, c :: rest =>
    if c.isDigit then fixed? count (n * 10 + (c.toNat - '0'.toNat)) rest else none
  | _ + 1, _, [] => none

/-- The rest behind a character that has to be here. -/
def expect? (c : Char) : List Char → Option (List Char)
  | d :: rest => if c = d then some rest else none
  | [] => none

/-- The days that a month has in a year. -/
def daysIn (year month : Nat) : Nat :=
  if month = 2 then
    if year % 4 = 0 ∧ (year % 100 ≠ 0 ∨ year % 400 = 0) then 29 else 28
  else if month = 4 ∨ month = 6 ∨ month = 9 ∨ month = 11 then 30
  else 31

/-- The rest behind a date. -/
def date? (cs : List Char) : Option (List Char) := do
  let (year, cs) ← fixed? 4 0 cs
  let (month, cs) ← fixed? 2 0 (← expect? '-' cs)
  let (day, cs) ← fixed? 2 0 (← expect? '-' cs)
  if 1 ≤ month ∧ month ≤ 12 ∧ 1 ≤ day ∧ day ≤ daysIn year month then some cs else none

/-- The rest behind the seconds of a time, which may be missing. -/
def seconds? (cs : List Char) : Option (List Char) :=
  match cs with
  | ':' :: rest => do
    let (second, rest) ← fixed? 2 0 rest
    if 60 < second then none
    match rest with
    | '.' :: rest =>
      match rest.takeWhile Char.isDigit with
      | [] => none
      | _ => return rest.dropWhile Char.isDigit
    | rest => return rest
  | cs => some cs

/-- The rest behind a time of day. -/
def time? (cs : List Char) : Option (List Char) := do
  let (hour, cs) ← fixed? 2 0 cs
  let (minute, cs) ← fixed? 2 0 (← expect? ':' cs)
  if 23 < hour ∨ 59 < minute then none
  seconds? cs

/-- The rest behind the distance to world time, which may be missing. -/
def offset? (cs : List Char) : Option (List Char) :=
  match cs with
  | [] => some []
  | c :: rest =>
    if c = 'Z' || c = 'z' then some rest
    else if c = '+' || c = '-' then do
      let (hour, rest) ← fixed? 2 0 rest
      let (minute, rest) ← fixed? 2 0 (← expect? ':' rest)
      if 23 < hour ∨ 59 < minute then none else some rest
    else none

/-- Whether a text is a date, a time or both. -/
def isMoment (cs : List Char) : Bool :=
  match time? cs with
  | some [] => true
  | _ =>
    match date? cs with
    | some [] => true
    | some (c :: rest) =>
      if c = 'T' || c = 't' || c = ' ' then ((time? rest).bind offset?) == some [] else false
    | none => false

/-! ## Values -/

/-- Whether a character ends a value that is not in quotes or brackets. -/
def endsScalar (c : Char) : Bool := c ∈ [' ', '\t', '\n', '\r', '#', ',', ']', '}']

/-- Split a value without quotes and brackets off a text.  A date and a time can have one blank
between them. -/
def splitScalar (cs : List Char) : List Char × List Char :=
  let token := cs.takeWhile (!endsScalar ·)
  match date? token, cs.dropWhile (!endsScalar ·) with
  | some [], ' ' :: c :: rest =>
    if c.isDigit then
      (token ++ ' ' :: (c :: rest).takeWhile (!endsScalar ·), (c :: rest).dropWhile (!endsScalar ·))
    else (token, ' ' :: c :: rest)
  | _, rest => (token, rest)

/-- The value without quotes and brackets at the start of a text. -/
def scalar? (cs : List Char) : Option (Value × List Char) :=
  let (token, rest) := splitScalar cs
  let value :=
    if token = ['t', 'r', 'u', 'e'] then some (.bool true)
    else if token = ['f', 'a', 'l', 's', 'e'] then some (.bool false)
    else if isMoment token then some (.moment (String.ofList token))
    else integer? token <|> float? token
  value.map fun value => (value, rest)

mutual

/-- Read a value in which a number of levels may be opened. -/
def value? : Nat → Nat → Part Value
  | 0, _, _ => none
  | fuel + 1, levels, cs =>
    match cs with
    | '[' :: rest =>
      match levels with
      | 0 => none
      | levels + 1 => (items? fuel levels (skipLines rest)).map fun (items, rest) =>
        (.array items, rest)
    | '\x7b' :: rest =>
      match levels with
      | 0 => none
      | levels + 1 => do
        let (entries, rest) ← entries? fuel levels (skipLines rest)
        return (← inlineTable entries, rest)
    | '"' :: _ => (text? fuel cs).map fun (s, rest) => (.str s, rest)
    | '\'' :: _ => (text? fuel cs).map fun (s, rest) => (.str s, rest)
    | _ => scalar? cs

/-- Read the items of a list up to its end. -/
def items? : Nat → Nat → Part (List Value)
  | 0, _, _ => none
  | _ + 1, _, ']' :: rest => some ([], rest)
  | fuel + 1, levels, cs => do
    let (item, rest) ← value? fuel levels cs
    match skipLines rest with
    | ']' :: rest => return ([item], rest)
    | ',' :: rest => do
      let (more, rest) ← items? fuel levels (skipLines rest)
      return (item :: more, rest)
    | _ => none

/-- Read the entries of a table in braces up to its end. -/
def entries? : Nat → Nat → Part (List (Key × Value))
  | 0, _, _ => none
  | _ + 1, _, '\x7d' :: rest => some ([], rest)
  | fuel + 1, levels, cs => do
    let (key, rest) ← key? fuel [] cs
    let rest ← expect? '=' (skipLines rest)
    let (value, rest) ← value? fuel levels (skipLines rest)
    match skipLines rest with
    | '\x7d' :: rest => return ([(key, value)], rest)
    | ',' :: rest => do
      let (more, rest) ← entries? fuel levels (skipLines rest)
      return ((key, value) :: more, rest)
    | _ => none

end

/-! ## Documents -/

/-- The most levels that a value can open. -/
def levels : Nat := 80

/-- Read a statement from the beginning of a line that holds one. -/
def statement? (fuel : Nat) (cs : List Char) : Option (Statement × List Char) :=
  match cs with
  | '[' :: '[' :: rest => do
    let (key, rest) ← key? fuel [] (skipSpaces rest)
    return (.item key, ← expect? ']' (← expect? ']' rest))
  | '[' :: rest => do
    let (key, rest) ← key? fuel [] (skipSpaces rest)
    return (.table key, ← expect? ']' rest)
  | cs => do
    let (key, rest) ← key? fuel [] cs
    let rest ← expect? '=' rest
    let (value, rest) ← value? fuel levels (skipSpaces rest)
    return (.entry key value, rest)

/-- Read the statements of a text. -/
def statements? : Nat → List Char → Option (List Statement)
  | 0, _ => none
  | fuel + 1, cs =>
    match skipLines cs with
    | [] => some []
    | rest => do
      let (statement, rest) ← statement? fuel rest
      let rest ← lineEnd? rest
      return statement :: (← statements? fuel rest)

/-- Skip the mark that some editors put at the beginning of a text. -/
def skipMark : List Char → List Char
  | '\ufeff' :: rest => rest
  | cs => cs

/-- The table of a document. -/
def ofText? (s : String) : Option Entries := do
  let cs := skipMark s.toList
  assemble [] [] (← statements? (2 * cs.length + 4) cs)

end TypedHypergraph.Toml
