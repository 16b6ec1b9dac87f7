/-
# Descriptions of atoms

What a caller says about an atom to be stored: a node by the name of its type and its own name, a
link by the name of its type and the descriptions of its members, or an atom that is stored
already.
-/
import TypedHypergraph.Handle

namespace TypedHypergraph

/-- A description of an atom: a node or a link with the names of its type, or an atom that is stored
already. -/
inductive Description
  | node (typeName name : String)
  | link (typeName : String) (members : List Description)
  | stored (handle : Handle)
  deriving Repr, Inhabited

end TypedHypergraph
