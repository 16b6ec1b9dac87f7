/-
# Targets of requests

A target is a path, split at slashes into segments, and behind a question mark a query, which is a
list of pairs.  In both of them bytes can be written as a percent sign and two hexadecimal digits;
a percent sign without these stands for itself.
-/
import TypedHypergraph.Json.Reader
import TypedHypergraph.Text.Blank

namespace TypedHypergraph.Http

/-! ## Percent signs -/

/-- The bytes that a text stands for. -/
def decodeBytes : List Char → List UInt8
  | '%' :: a :: b :: rest =>
    match Scanned.hexValue? a, Scanned.hexValue? b with
    | some x, some y => (16 * x + y).toUInt8 :: decodeBytes rest
    | _, _ => '%'.toNat.toUInt8 :: decodeBytes (a :: b :: rest)
  | c :: rest => (String.singleton c).toUTF8.toList ++ decodeBytes rest
  | [] => []

/-- The text that a segment of a path stands for, if its bytes are one. -/
def decodeSegment? (s : String) : Option String :=
  String.fromUTF8? (ByteArray.mk (decodeBytes s.toList).toArray)

/-- The bytes that a name or value in a query stands for, where a plus sign is a blank. -/
def decodeField (cs : List Char) : List UInt8 :=
  decodeBytes (cs.map fun c => if c = '+' then ' ' else c)

/-! ## Parts -/

/-- The target of a request, taken apart. -/
structure Target where
  /-- The segments of the path behind its first slash, as they are written. -/
  segments : List String
  /-- The text behind the question mark, if there is one. -/
  query : Option String
  deriving DecidableEq, Repr

/-- The parts of a target.  What follows a hash sign does not belong to it. -/
def Target.ofText (s : String) : Target :=
  let cs := s.toList.takeWhile (· ≠ '#')
  let path := cs.takeWhile (· ≠ '?')
  { segments := Text.splitAt '/' (String.ofList (path.drop 1))
    query :=
      match cs.dropWhile (· ≠ '?') with
      | [] => none
      | _ :: query => some (String.ofList query) }

/-- The pairs of a query: names and values as bytes. -/
def queryPairs (query : String) : List (List UInt8 × List UInt8) :=
  ((Text.splitAt '&' query).filter (!·.isEmpty)).map fun pair =>
    (decodeField (pair.toList.takeWhile (· ≠ '=')),
      decodeField ((pair.toList.dropWhile (· ≠ '=')).drop 1))

/-- The bytes of a text. -/
def bytesOf (s : String) : List UInt8 := s.toUTF8.toList

/-- Read a flag from a query: false if it is not there.  There is no flag if it is given twice or
has another value than `true` and `false`. -/
def Target.flag? (t : Target) (name : String) : Option Bool :=
  match (queryPairs (t.query.getD "")).filter (·.1 = bytesOf name) with
  | [] => some false
  | [(_, value)] =>
    if value = bytesOf "true" then some true
    else if value = bytesOf "false" then some false
    else none
  | _ => none

end TypedHypergraph.Http
