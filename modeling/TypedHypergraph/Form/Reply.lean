/-
# The JSON form of replies

How replies, reports and failures are written.
-/
import TypedHypergraph.Form.Request
import TypedHypergraph.Service.Operation

namespace TypedHypergraph

/-- The version that the server says it has. -/
def version : String := "0.4.2"

/-- A handle as JSON is its number. -/
def Handle.toJson (h : Handle) : Json := .nat h.value

/-- Several handles as JSON. -/
def Handle.listToJson (hs : List Handle) : Json := .arr (hs.map Handle.toJson)

/-- A truth value as JSON. -/
def Truth.toJson (value : Truth) : Json := (Observation.ofTruth value).toJson

namespace Stored

/-- What was stored, as JSON. -/
def toJson (s : Stored) : Json := .obj [("handle", s.handle.toJson), ("created", .bool s.created)]

end Stored

namespace Row

/-- A row as JSON: the atoms by the names of their variables, and the atoms of the clauses. -/
def toJson (r : Row) : Json :=
  .obj [("values", .obj (r.values.toList.map fun (name, h) => (name, h.toJson))),
    ("groundings", Handle.listToJson r.groundings)]

end Row

namespace Answer

/-- An answer as JSON. -/
def toJson (a : Answer) : Json :=
  .obj [("count", .nat a.rows.length), ("bindings", .arr (a.rows.map Row.toJson)),
    ("budget_exhausted", .bool a.exhausted), ("truncated", .bool a.truncated)]

end Answer

namespace Report

/-- A report on a script as JSON. -/
def toJson (r : Report) : Json :=
  .obj [("atoms", .arr (r.stored.map Stored.toJson)),
    ("queries", .arr (r.answers.map Answer.toJson))]

end Report

namespace Census

/-- A census as JSON. -/
def toJson (c : Census) : Json :=
  .obj [("atom_count", .nat c.atoms), ("node_count", .nat c.nodes), ("link_count", .nat c.links),
    ("type_count", .nat c.types), ("annotated_count", .nat c.known),
    ("max_arity", .nat c.maxArity), ("link_density_millionths", .nat c.density),
    ("per_type", .obj (c.perType.toList.map fun (name, n) => (name, .nat n)))]

end Census

namespace AtomView

/-- The name of a node or the members of a link, as a member. -/
def partsMember : Content → String × Json
  | .node _ name => ("name", .str name)
  | .link _ members => ("outgoing", Handle.listToJson members)

/-- A view of an atom as JSON. -/
def toJson (v : AtomView) : Json :=
  .obj [("handle", v.atom.handle.toJson), ("type", .str v.typeName), partsMember v.atom.content,
    ("truth", Json.option Truth.toJson v.truth)]

end AtomView

namespace Reply

/-- A reply as JSON. -/
def toJson : Reply → Json
  | .health => .obj [("status", .str "ok"), ("version", .str version)]
  | .census c => c.toJson
  | .types declarations => .obj [("types", .arr (declarations.map TypeDeclaration.toJson))]
  | .declared name type => .obj [("name", .str name), ("type_id", .nat type.index)]
  | .handles hs => .obj [("handles", Handle.listToJson hs)]
  | .stored outcome => outcome.toJson
  | .atom view => view.toJson
  | .removed hs => .obj [("removed", Handle.listToJson hs)]
  | .truth h value =>
    .obj [("handle", h.toJson), ("truth", Json.option Truth.toJson value)]
  | .answer a => a.toJson

end Reply

namespace Failure

/-- The links that stand in the way of a removal as a member, if there are any. -/
def referrersMember : List Handle → List (String × Json)
  | [] => []
  | hs => [("referrers", Handle.listToJson hs)]

/-- A failure as JSON: its kind, its message and the links that are in the way. -/
def toJson (f : Failure) : Json :=
  .obj ([("error", .str f.kind), ("message", .str f.message)] ++ referrersMember f.referrers)

end Failure

end TypedHypergraph
