/-
# Tagged JSON forms

A second form of descriptions, in which the kind is the name of the only member of an object, and
forms for what stands in a graph: contents, truth values and caps.
-/
import TypedHypergraph.Content
import TypedHypergraph.Description
import TypedHypergraph.Json.Form
import TypedHypergraph.Limits
import TypedHypergraph.Form.Request

namespace TypedHypergraph

/-! ## Descriptions -/

namespace Description

mutual

/-- A description as JSON in which the name of the variant holds the rest. -/
def toTagged : Description → Json
  | .node typeName name =>
    .obj [("Node", .obj [("atom_type", .str typeName), ("name", .str name)])]
  | .link typeName members =>
    .obj [("Link", .obj [("atom_type", .str typeName), ("outgoing", .arr (toTaggedAll members))])]
  | .stored h => .obj [("Existing", .nat h.value)]

/-- Several descriptions with the names of their variants. -/
def toTaggedAll : List Description → List Json
  | [] => []
  | d :: rest => d.toTagged :: toTaggedAll rest

end

/-- The fields behind the name of the variant for nodes. -/
def nodeFields : Form Description :=
  (Form.two (.required "atom_type" Reader.text) (.required "name" Reader.text)).map
    fun (typeName, name) => .node typeName name

/-- The fields of a link, given how to read its members. -/
def linkFields (member : Reader Description) : Form Description :=
  (Form.two (.required "atom_type" Reader.text) (.required "outgoing" (Reader.list member))).map
    fun (typeName, members) => .link typeName members

/-- Read what stands behind a tag, given how to read the members of a link. -/
def readBehind (member : Reader Description) (tag : String) : Reader Description := fun m tree =>
  if tag = "Node" then nodeFields.readTagged m tree
  else if tag = "Link" then (linkFields member).readTagged m tree
  else if tag = "Existing" then
    (Reader.upTo Limits.lastHandle m tree).map fun h => .stored ⟨h⟩
  else .error .mismatch

/-- Read a description from a tree up to a height. -/
def readTaggedUpTo : Nat → Reader Description
  | height + 1, m, .obj ((some tag, value) :: more) closed => do
    let inner ← m.enter
    let d ← readBehind (readTaggedUpTo height) tag inner value
    if closed && more.isEmpty then return d else throw .syntactic
  | _, _, .obj ((none, _) :: _) _ => .error .syntactic
  | _, _, tree => .error tree.fault

/-- The reader of descriptions with the names of their variants. -/
def readTagged : Reader Description := fun m tree => readTaggedUpTo tree.height m tree

end Description

/-! ## Contents -/

namespace Content

/-- The greatest number of a type that can be written. -/
def lastTypeIndex : Nat := UInt32.size - 1

/-- A content as JSON: the identifier of the type beside the name or the members. -/
def toJson : Content → Json
  | .node type name =>
    .obj [("type_id", .nat type.index), ("payload", .obj [("Node", .str name)])]
  | .link type members =>
    .obj [("type_id", .nat type.index),
      ("payload", .obj [("Link", .arr (members.map fun h => .nat h.value))])]

/-- The name or the members of a content of some type. -/
def payload? : Json → Option (TypeId → Content)
  | .obj [(tag, .str name)] => if tag = "Node" then some fun type => .node type name else none
  | .obj [(tag, .arr items)] =>
    if tag = "Link" then
      (items.mapM (Json.nat? Limits.lastHandle)).map fun members type =>
        .link type (members.map Handle.mk)
    else none
  | _ => none

/-- The fields of a content. -/
def form : Form Content :=
  (Form.two (.required "type_id" (Reader.upTo lastTypeIndex))
    (.required "payload" (Reader.ofJson payload?))).map fun (type, content) => content ⟨type⟩

end Content

/-! ## Truth values and caps -/

/-- Truth values out of range cannot be read. -/
def Truth.read : Reader Truth :=
  Reader.check Observation.form.read fun o => TruthValue.make? o.strength o.confidence

namespace Caps

/-- Caps as JSON; a missing cap is null. -/
def toJson (c : Caps) : Json :=
  .obj [("max_results", Json.option .nat c.results), ("max_steps", Json.option .nat c.steps)]

/-- The fields of caps. -/
def form : Form Caps :=
  (Form.two (.nullable "max_results" (Reader.upTo Limits.lastCount))
    (.nullable "max_steps" (Reader.upTo Limits.lastCount))).map
    fun (results, steps) => ⟨results, steps⟩

end Caps

end TypedHypergraph
