/-
# Requests

What a client of a graph can ask for in one go, and a batch of such requests.
-/
import TypedHypergraph.Description
import TypedHypergraph.Pattern.Basic
import TypedHypergraph.TypeTree

namespace TypedHypergraph

/-- An atom to be stored, on demand with an observation of its truth. -/
structure Insertion where
  atom : Description
  truth : Option Observation
  deriving Repr

/-- What is to become of the truth value of an atom: it is forgotten if there is no observation,
and otherwise replaced or revised. -/
structure TruthChange where
  truth : Option Observation
  replace : Bool
  deriving Repr

/-- A pattern without predicates, and the caps that the asker wants. -/
structure Inquiry where
  clauses : List Term
  conditions : List Condition
  caps : Caps
  deriving Repr

/-- The query of an inquiry, under additional caps. -/
def Inquiry.toQuery (i : Inquiry) (caps : Caps) : Query where
  pattern := ⟨i.clauses, i.conditions.map .condition⟩
  caps := i.caps.meet caps

/-- A batch of requests: all types are declared, then all atoms are stored, then all inquiries are
answered. -/
structure Script where
  types : List TypeDeclaration
  insertions : List Insertion
  inquiries : List Inquiry
  deriving Repr

end TypedHypergraph
