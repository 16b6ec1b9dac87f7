/-
# JSON texts as far as they can be read

A text that is meant to be JSON is read as a tree up to the place where it stops being JSON.  The
tree says how far the text was good: a list that is not `closed` breaks off behind its last item,
and `broken` stands where no value could be read.

A reader of a tree goes through it in the order of the text, so that it meets whichever comes first:
a place where the text breaks off, or a value of the wrong kind.  These are the two ways for a
reader to fail.  A part that nobody looks at may also hold what is well formed as text and yet
stands for no value: a number too great for a double, half of a surrogate pair, and nesting to any
depth.
-/
import TypedHypergraph.Json.Value

namespace TypedHypergraph

/-- Why a text could not be read as what it is meant to be. -/
inductive ReadFault
  /-- It is not JSON. -/
  | syntactic
  /-- It is not of the right kind. -/
  | mismatch
  deriving DecidableEq, Repr

/-- What was read of a text: a value as far as the text goes, with the places where it fails. -/
inductive Scanned
  | null
  | bool (value : Bool)
  | num (value : Json.Number)
  /-- A number that no double can hold. -/
  | oversized
  | str (value : String)
  /-- A text with half of a surrogate pair. -/
  | unpaired
  | arr (items : List Scanned) (closed : Bool)
  /-- The name of a member is missing if it holds half of a surrogate pair. -/
  | obj (members : List (Option String × Scanned)) (closed : Bool)
  | broken
  deriving Repr

namespace Scanned

/-! ## Soundness of a part -/

mutual

/-- Whether a part can be skipped: the text does not break off in it. -/
def isWhole : Scanned → Bool
  | arr items closed => allWhole items && closed
  | obj members closed => membersWhole members && closed
  | broken => false
  | _ => true

/-- Whether all of several parts are whole. -/
def allWhole : List Scanned → Bool
  | [] => true
  | item :: rest => item.isWhole && allWhole rest

/-- Whether the values of several members are whole. -/
def membersWhole : List (Option String × Scanned) → Bool
  | [] => true
  | (_, value) :: rest => value.isWhole && membersWhole rest

end

/-! ## Height -/

mutual

/-- How many parts stand inside one another at most. -/
def height : Scanned → Nat
  | arr items _ => heightOfItems items + 1
  | obj members _ => heightOfMembers members + 1
  | _ => 1

/-- The height of the highest of several parts. -/
def heightOfItems : List Scanned → Nat
  | [] => 0
  | item :: rest => max item.height (heightOfItems rest)

/-- The height of the highest value of several members. -/
def heightOfMembers : List (Option String × Scanned) → Nat
  | [] => 0
  | (_, value) :: rest => max value.height (heightOfMembers rest)

end

/-! ## Values -/

/-- How many levels of lists and objects may still be entered; without a number any. -/
abbrev Room := Option Nat

/-- The room inside of a list or object, if one may be entered. -/
def Room.enter : Room → Option Room
  | none => some none
  | some 0 => none
  | some (n + 1) => some (some n)

mutual

/-- The value of a part, if all of it stands for values and it is nowhere too deep. -/
def value? (room : Room) : Scanned → Option Json
  | null => some .null
  | bool b => some (.bool b)
  | num n => some (.num n)
  | str s => some (.str s)
  | arr items closed =>
    if closed then do
      let room ← room.enter
      return .arr (← values? room items)
    else none
  | obj members closed =>
    if closed then do
      let room ← room.enter
      return .obj (← memberValues? room members)
    else none
  | oversized => none
  | unpaired => none
  | broken => none

/-- The values of several parts, if each of them has one. -/
def values? (room : Room) : List Scanned → Option (List Json)
  | [] => some []
  | item :: rest => do
    let value ← item.value? room
    return value :: (← values? room rest)

/-- The names and values of several members, if each of them has both. -/
def memberValues? (room : Room) :
    List (Option String × Scanned) → Option (List (String × Json))
  | [] => some []
  | (name, item) :: rest => do
    let name ← name
    let value ← item.value? room
    return (name, value) :: (← memberValues? room rest)

end

/-! ## Trees of values -/

mutual

/-- The tree of a text that says just a value. -/
def ofValue : Json → Scanned
  | .null => null
  | .bool b => bool b
  | .num n => num n
  | .str s => str s
  | .arr items => arr (ofValues items) true
  | .obj members => obj (ofMembers members) true

/-- Several values as they are scanned. -/
def ofValues : List Json → List Scanned
  | [] => []
  | value :: rest => ofValue value :: ofValues rest

/-- Several members as they are scanned. -/
def ofMembers : List (String × Json) → List (Option String × Scanned)
  | [] => []
  | (name, value) :: rest => (some name, ofValue value) :: ofMembers rest

end

end Scanned

end TypedHypergraph
