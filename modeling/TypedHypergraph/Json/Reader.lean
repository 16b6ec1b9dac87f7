/-
# Reading JSON texts

A text is read from left to right into the tree of `Scanned`.  Reading never fails: where the text
stops being JSON the tree stops too, and nothing behind that place is looked at.

Every reader of a part gives what it has read together with the rest of the text, and no rest if
the text broke off.
-/
import TypedHypergraph.Decimal.Stepwise
import TypedHypergraph.Json.Scanned

namespace TypedHypergraph.Scanned

/-- Whether a character may stand between the parts of a text. -/
def isBlank (c : Char) : Bool := c = ' ' || c = '\n' || c = '\t' || c = '\r'

/-- The text behind the blanks at its start. -/
def skipBlanks (cs : List Char) : List Char := cs.dropWhile isBlank

/-! ## Texts in quotes -/

/-- The number that a hexadecimal digit stands for. -/
def hexValue? (c : Char) : Option Nat :=
  if '0' ≤ c ∧ c ≤ '9' then some (c.toNat - '0'.toNat)
  else if 'a' ≤ c ∧ c ≤ 'f' then some (c.toNat - 'a'.toNat + 10)
  else if 'A' ≤ c ∧ c ≤ 'F' then some (c.toNat - 'A'.toNat + 10)
  else none

/-- The number of four hexadecimal digits at the beginning of a text. -/
def hexQuad? : List Char → Option (Nat × List Char)
  | a :: b :: c :: d :: rest => do
    let a ← hexValue? a
    let b ← hexValue? b
    let c ← hexValue? c
    let d ← hexValue? d
    return (((a * 16 + b) * 16 + c) * 16 + d, rest)
  | _ => none

/-- The character of an escape of one letter. -/
def escaped? : Char → Option Char
  | '"' => some '"'
  | '\\' => some '\\'
  | '/' => some '/'
  | 'b' => some '\x08'
  | 'f' => some '\x0c'
  | 'n' => some '\n'
  | 'r' => some '\r'
  | 't' => some '\t'
  | _ => none

/-- Whether a number is the first half of a surrogate pair. -/
def isHighSurrogate (n : Nat) : Bool := 0xd800 ≤ n && n < 0xdc00

/-- Whether a number is the second half of a surrogate pair. -/
def isLowSurrogate (n : Nat) : Bool := 0xdc00 ≤ n && n < 0xe000

/-- The second half of a surrogate pair at the beginning of a text. -/
def lowSurrogate? : List Char → Option (Nat × List Char)
  | '\\' :: 'u' :: rest => do
    let (n, rest) ← hexQuad? rest
    if isLowSurrogate n then some (n, rest) else none
  | _ => none

/-- Split a text at its closing quote, given the characters before it (the last one first).  A quote
behind a backslash does not close. -/
def toQuote (before : List Char) : List Char → Option (List Char × List Char)
  | [] => none
  | '"' :: rest => some (before.reverse, rest)
  | '\\' :: c :: rest => toQuote (c :: '\\' :: before) rest
  | c :: rest => if c.toNat < 32 then none else toQuote (c :: before) rest

/-- The characters that the inside of quotes stands for, given those before it (the last one first)
and whether half of a surrogate pair was among them.  The fuel is the length of what is left. -/
def unescape : Nat → List Char → Bool → List Char → Option (Option String)
  | 0, before, half, _ => some (if half then none else some (String.ofList before.reverse))
  | _ + 1, before, half, [] => some (if half then none else some (String.ofList before.reverse))
  | fuel + 1, before, half, '\\' :: 'u' :: rest =>
    match hexQuad? rest with
    | none => none
    | some (n, rest) =>
      if isHighSurrogate n then
        match lowSurrogate? rest with
        | some (m, rest) =>
          let c := Char.ofNat (0x10000 + (n - 0xd800) * 0x400 + (m - 0xdc00))
          unescape fuel (c :: before) half rest
        | none => unescape fuel before true rest
      else if isLowSurrogate n then unescape fuel before true rest
      else unescape fuel (Char.ofNat n :: before) half rest
  | fuel + 1, before, half, '\\' :: e :: rest =>
    match escaped? e with
    | some c => unescape fuel (c :: before) half rest
    | none => none
  | fuel + 1, before, half, c :: rest => unescape fuel (c :: before) half rest

/-- Read a text behind its opening quote.  The text itself is missing if it holds half of a
surrogate pair. -/
def text? (cs : List Char) : Option (Option String × List Char) := do
  let (inside, rest) ← toQuote [] cs
  let s ← unescape inside.length [] false inside
  return (s, rest)

/-! ## Numbers -/

/-- The number that a list of decimal digits stands for. -/
def digitsValue (ds : List Char) : Nat := ds.foldl (fun n d => n * 10 + (d.toNat - '0'.toNat)) 0

/-- The parts of a number as it is written. -/
structure NumberText where
  negative : Bool
  whole : List Char
  /-- The digits behind the point, if there is one. -/
  fraction : Option (List Char)
  exponent : Option Int
  deriving Repr

namespace NumberText

/-- The value of a number.  A whole number that does not fit into 64 bits is a float, and so is a
zero with a sign.  Floats are read in rounded steps. -/
def value (t : NumberText) : Scanned :=
  let n := digitsValue t.whole
  if t.fraction.isNone && t.exponent.isNone && !t.negative && n < UInt64.size then
    num (.int n)
  else if t.fraction.isNone && t.exponent.isNone && t.negative && n ≠ 0 && n ≤ UInt64.size / 2 then
    num (.int (-n))
  else
    let magnitude := Decimal.stepwise t.whole (t.fraction.getD []) (t.exponent.getD 0)
    if magnitude.isInf then oversized
    else num (.float (if t.negative then -magnitude else magnitude))

end NumberText

/-- Split the digits off the beginning of a text; there has to be one. -/
def digits? (cs : List Char) : Option (List Char × List Char) :=
  match cs.takeWhile Char.isDigit with
  | [] => none
  | ds => some (ds, cs.dropWhile Char.isDigit)

/-- Read the digits before the point: a zero stands alone. -/
def whole? (cs : List Char) : Option (List Char × List Char) :=
  match digits? cs with
  | some ('0' :: _ :: _, _) => none
  | result => result

/-- Read the digits behind the point, if there is a point. -/
def fraction? : List Char → Option (Option (List Char) × List Char)
  | '.' :: rest => (digits? rest).map fun (ds, rest) => (some ds, rest)
  | cs => some (none, cs)

/-- Read the digits of an exponent behind its sign. -/
def signedExponent? (negative : Bool) (cs : List Char) : Option (Option Int × List Char) :=
  (digits? cs).map fun (ds, rest) =>
    let n : Int := digitsValue ds
    (some (if negative then -n else n), rest)

/-- Read an exponent, if there is one. -/
def exponent? : List Char → Option (Option Int × List Char)
  | c :: rest =>
    if c = 'e' || c = 'E' then
      match rest with
      | '+' :: rest => signedExponent? false rest
      | '-' :: rest => signedExponent? true rest
      | rest => signedExponent? false rest
    else some (none, c :: rest)
  | [] => some (none, [])

/-- Read a number behind its sign. -/
def number? (negative : Bool) (cs : List Char) : Option (Scanned × List Char) := do
  let (whole, cs) ← whole? cs
  let (fraction, cs) ← fraction? cs
  let (exponent, cs) ← exponent? cs
  return ((NumberText.mk negative whole fraction exponent).value, cs)

/-! ## Values -/

/-- Whether a text begins with a word, and the rest behind it. -/
def word? (word cs : List Char) : Option (List Char) :=
  if word.isPrefixOf cs then some (cs.drop word.length) else none

/-- A value that may be there, with the rest of the text. -/
def orBroken : Option (Scanned × List Char) → Scanned × Option (List Char)
  | some (value, rest) => (value, some rest)
  | none => (broken, none)

mutual

/-- Read a value. -/
def value : Nat → List Char → Scanned × Option (List Char)
  | 0, _ => (broken, none)
  | fuel + 1, cs =>
    match skipBlanks cs with
    | '[' :: rest =>
      match skipBlanks rest with
      | ']' :: rest => (arr [] true, some rest)
      | rest =>
        let (items, closed, rest) := items fuel rest
        (arr items closed, rest)
    | '\x7b' :: rest =>
      match skipBlanks rest with
      | '\x7d' :: rest => (obj [] true, some rest)
      | rest =>
        let (members, closed, rest) := members fuel rest
        (obj members closed, rest)
    | '"' :: rest =>
      orBroken <| (text? rest).map fun (s, rest) =>
        match s with
        | some s => (str s, rest)
        | none => (unpaired, rest)
    | 'n' :: rest => orBroken <| (word? ['u', 'l', 'l'] rest).map fun rest => (null, rest)
    | 't' :: rest => orBroken <| (word? ['r', 'u', 'e'] rest).map fun rest => (bool true, rest)
    | 'f' :: rest =>
      orBroken <| (word? ['a', 'l', 's', 'e'] rest).map fun rest => (bool false, rest)
    | '-' :: rest => orBroken (number? true rest)
    | rest => orBroken (number? false rest)

/-- Read the items of a list up to its end, behind which the rest stands. -/
def items : Nat → List Char → List Scanned × Bool × Option (List Char)
  | 0, _ => ([], false, none)
  | fuel + 1, cs =>
    match value fuel cs with
    | (item, none) => ([item], false, none)
    | (item, some rest) =>
      match skipBlanks rest with
      | ']' :: rest => ([item], true, some rest)
      | ',' :: rest =>
        match skipBlanks rest with
        | ']' :: _ => ([item], false, none)
        | rest =>
          let (more, closed, rest) := items fuel rest
          (item :: more, closed, rest)
      | _ => ([item], false, none)

/-- Read the members of an object up to its end, behind which the rest stands. -/
def members : Nat → List Char → List (Option String × Scanned) × Bool × Option (List Char)
  | 0, _ => ([], false, none)
  | fuel + 1, '"' :: cs =>
    match text? cs with
    | none => ([], false, none)
    | some (name, rest) =>
      match skipBlanks rest with
      | ':' :: rest =>
        match value fuel rest with
        | (item, none) => ([(name, item)], false, none)
        | (item, some rest) =>
          match skipBlanks rest with
          | '\x7d' :: rest => ([(name, item)], true, some rest)
          | ',' :: rest =>
            let (more, closed, rest) := members fuel (skipBlanks rest)
            ((name, item) :: more, closed, rest)
          | _ => ([(name, item)], false, none)
      | _ => ([(name, broken)], false, none)
  | _ + 1, _ => ([], false, none)

end

/-- Read a text.  The second part says whether nothing but blanks follows the value. -/
def ofText (s : String) : Scanned × Bool :=
  let cs := s.toList
  match value (2 * cs.length + 4) cs with
  | (tree, some rest) => (tree, (skipBlanks rest).isEmpty)
  | (tree, none) => (tree, false)

end TypedHypergraph.Scanned
