/-
# Blank characters

The characters with the Unicode property `White_Space`, and what is left of a text without those at
its ends.
-/
import TypedHypergraph.Handle

namespace TypedHypergraph.Text

/-- Whether a character is a white space. -/
def isBlank (c : Char) : Bool :=
  let n := c.toNat
  (9 ≤ n && n ≤ 13) || n = 0x20 || n = 0x85 || n = 0xa0 || n = 0x1680 ||
    (0x2000 ≤ n && n ≤ 0x200a) || n = 0x2028 || n = 0x2029 || n = 0x202f || n = 0x205f || n = 0x3000

/-- A text without the blanks at its beginning and end. -/
def trim (s : String) : String :=
  String.ofList (((s.toList.dropWhile isBlank).reverse.dropWhile isBlank).reverse)

/-- Whether there is nothing but blanks in a text. -/
def isAllBlank (s : String) : Bool := s.toList.all isBlank

/-- The parts of a text between the occurrences of a character; there is always one. -/
def splitAt (separator : Char) (s : String) : List String :=
  let (last, before) := s.toList.foldr
    (fun c (part, parts) => if c = separator then ([], part :: parts) else (c :: part, parts))
    ([], [])
  (last :: before).map String.ofList

end TypedHypergraph.Text
