/-
# The JSON form of descriptions

A description has no mark of its kind: it is recognised by its members.
-/
import TypedHypergraph.Description
import TypedHypergraph.Form.Recogniser

namespace TypedHypergraph.Description

/-! ## Writing -/

mutual

/-- A description as JSON. -/
def toJson : Description → Json
  | .stored h => .obj [("handle", .nat h.value)]
  | .node typeName name => .obj [("type", .str typeName), ("name", .str name)]
  | .link typeName members =>
    .obj [("type", .str typeName), ("outgoing", .arr (toJsonAll members))]

/-- Several descriptions as JSON. -/
def toJsonAll : List Description → List Json
  | [] => []
  | d :: rest => d.toJson :: toJsonAll rest

end

/-! ## Reading -/

/-- Stored atoms, nodes and links. -/
def recogniser : Recogniser Description := ⟨.stored, .node, .link, []⟩

/-- The description that a value stands for. -/
def ofJson? : Json → Option Description := recogniser.ofJson?

/-- The reader of descriptions. -/
def read : Reader Description := Reader.ofJson ofJson?

end TypedHypergraph.Description
