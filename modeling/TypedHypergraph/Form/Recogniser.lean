/-
# Recognising atoms by their members

Descriptions and terms are trees of stored atoms, nodes and links without a mark of their kind: an
object is recognised by its members.  An object with a `handle` is a stored atom, one with a `type`
and a `name` a node, one with a `type` and `outgoing` members a link; where an object could be read
in several ways, the first of these counts.  A member of the wrong kind, or given twice, is as good
as missing.
-/
import TypedHypergraph.Handle
import TypedHypergraph.Json.Form
import TypedHypergraph.Limits

namespace TypedHypergraph

/-- What objects are recognised as. -/
structure Recogniser (α : Type) where
  stored : Handle → α
  node : (typeName name : String) → α
  link : (typeName : String) → List α → α
  /-- Attempts at further kinds, which come behind stored atoms and before nodes. -/
  further : List (List (String × Json) → Option α)

namespace Recogniser

variable {α : Type} (r : Recogniser α)

/-- The stored atom that an object names. -/
def storedOf? (members : List (String × Json)) : Option α := do
  let h ← (← Json.only? "handle" members).nat? Limits.lastHandle
  return r.stored ⟨h⟩

/-- The node that an object describes. -/
def nodeOf? (members : List (String × Json)) : Option α := do
  let typeName ← (← Json.only? "type" members).str?
  let name ← (← Json.only? "name" members).str?
  return r.node typeName name

mutual

/-- What a value is recognised as, if it is an object. -/
def ofJson? : Json → Option α
  | .obj members =>
    r.storedOf? members <|> r.further.findSome? (· members) <|> r.nodeOf? members <|> do
      let typeName ← (← Json.only? "type" members).str?
      return r.link typeName (← outgoing? members)
  | _ => none

/-- What the values of a list are recognised as. -/
def ofItems? : List Json → Option (List α)
  | [] => some []
  | item :: rest => do
    let a ← ofJson? item
    return a :: (← ofItems? rest)

/-- What is recognised in the only member that is named `outgoing`. -/
def outgoing? : List (String × Json) → Option (List α)
  | [] => none
  | (name, .arr items) :: rest =>
    if name = "outgoing" then
      if rest.any (·.1 = "outgoing") then none else ofItems? items
    else outgoing? rest
  | (name, _) :: rest => if name = "outgoing" then none else outgoing? rest

end

end Recogniser

end TypedHypergraph
