/-
# Media types

A media type says what the body of a request is: a type, a slash, a subtype, and parameters behind
semicolons.  The part of a subtype behind its last plus sign is its suffix.
-/
import TypedHypergraph.Handle

namespace TypedHypergraph.Http

/-- The characters of types, subtypes and the names of parameters. -/
def isTokenChar (c : Char) : Bool := c.isAlphanum || "!#$%&'*+-.^_`|~".toList.contains c

/-! ## Parameters -/

/-- The rest behind a value in quotes and the blanks that follow.  A quote does not close an empty
value. -/
def quotedValue? (empty : Bool) : List Char → Option (List Char)
  | [] => none
  | c :: rest =>
    if c = '"' && !empty then some (rest.dropWhile (· = ' '))
    else if 32 ≤ c.toNat && c.toNat < 127 then quotedValue? false rest
    else none

/-- The rest behind the value of a parameter: nothing, or a semicolon and another parameter. -/
def value? : List Char → Option (List Char)
  | '"' :: rest => quotedValue? true rest
  | cs => some (cs.dropWhile isTokenChar)

/-- Whether a text, behind a semicolon, is a list of parameters, which may be empty; the fuel is
more than its length. -/
def areParameters : Nat → List Char → Bool
  | 0, _ => false
  | fuel + 1, cs =>
    let cs := cs.dropWhile (· = ' ')
    match cs.takeWhile isTokenChar, cs.dropWhile isTokenChar with
    | [], [] => true
    | _ :: _, '=' :: value =>
      match value? value with
      | some [] => true
      | some (';' :: rest) => value.head? != some ';' && areParameters fuel rest
      | _ => false
    | _, _ => false

/-! ## Media types -/

/-- A media type without its parameters. -/
structure MediaType where
  type : List Char
  subtype : List Char
  suffix : Option (List Char)
  deriving DecidableEq, Repr

/-- The part of a subtype before its last plus sign, and the part behind.  A plus sign at the
beginning does not count. -/
def splitSuffix (subtype : List Char) : List Char × Option (List Char) :=
  let behind := subtype.reverse.takeWhile (· ≠ '+')
  let before := (subtype.reverse.dropWhile (· ≠ '+')).drop 1
  if before.isEmpty then (subtype, none) else (before.reverse, some behind.reverse)

/-- The media type that a text stands for, in lower case. -/
def MediaType.ofText? (s : String) : Option MediaType :=
  let cs := s.toList.map Char.toLower
  match cs.takeWhile isTokenChar, cs.dropWhile isTokenChar with
  | [], _ => none
  | type, '/' :: rest =>
    let (subtype, suffix) := splitSuffix (rest.takeWhile isTokenChar)
    match rest.dropWhile isTokenChar with
    | [] => some ⟨type, subtype, suffix⟩
    | ';' :: parameters =>
      if !(rest.takeWhile isTokenChar).isEmpty && areParameters (parameters.length + 1) parameters
      then some ⟨type, subtype, suffix⟩
      else none
    | _ => none
  | _, _ => none

/-- Whether a media type says that the body is JSON. -/
def MediaType.isJson (m : MediaType) : Bool :=
  let json := "json".toList
  m.type = "application".toList && (m.subtype = json || m.suffix = some json)

end TypedHypergraph.Http
