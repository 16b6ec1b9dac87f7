/-
# JSON values

A number is whole or not by the way it is written, and the two are kept apart: `1` is whole and
`1.0` is not.  The members of an object keep their order, and a name can stand among them twice.
-/
import TypedHypergraph.Decimal.Shortest

namespace TypedHypergraph

/-- A number, which is whole or a double. -/
inductive Json.Number
  | int (value : Int)
  | float (value : Float)
  deriving Repr, BEq

/-- A JSON value. Members of an object keep their order, and names can repeat. -/
inductive Json
  | null
  | bool (value : Bool)
  | num (value : Json.Number)
  | str (value : String)
  | arr (items : List Json)
  | obj (members : List (String × Json))
  deriving Repr, Inhabited

namespace Json

/-! ## Making -/

/-- A natural number as JSON. -/
def nat (n : Nat) : Json := num (.int n)

/-- A double; there are no numbers for infinities and for what is no number. -/
def float (x : Float) : Json := if x.isFinite then num (.float x) else null

/-- A value, or null if there is none. -/
def option {α : Type} (toJson : α → Json) : Option α → Json
  | some a => toJson a
  | none => null

/-- A member, or none if there is no value for it. -/
def member? {α : Type} (name : String) (toJson : α → Json) : Option α → List (String × Json)
  | some a => [(name, toJson a)]
  | none => []

/-! ## Reading -/

/-- The value of the only member with a name. -/
def only? (name : String) (members : List (String × Json)) : Option Json :=
  match members.filter (·.1 = name) with
  | [(_, value)] => some value
  | _ => none

/-- The value of a member that may be missing or null; nothing if there are two such members. -/
def atMost? (name : String) (members : List (String × Json)) : Option (Option Json) :=
  match members.filter (·.1 = name) with
  | [] => some none
  | [(_, null)] => some none
  | [(_, value)] => some (some value)
  | _ => none

/-- A whole number from zero up to a bound. -/
def nat? (most : Nat) : Json → Option Nat
  | num (.int n) => if 0 ≤ n ∧ n ≤ most then some n.toNat else none
  | _ => none

/-- The double that a whole number or a float stands for. -/
def Number.toFloat : Number → Float
  | int n => if 0 ≤ n then Float.ofNat n.toNat else -Float.ofNat (-n).toNat
  | float x => x

/-- The text that a value is. -/
def str? : Json → Option String
  | str s => some s
  | _ => none

end Json

end TypedHypergraph
