/-
# Running scripts

The steps of a script are taken in order, up to the first one that is refused.  What was done before
stays done.
-/
import TypedHypergraph.Graph.Insert
import TypedHypergraph.Service.Answer

namespace TypedHypergraph

/-- What became of the steps of a script. -/
structure Report where
  stored : List Stored
  answers : List Answer

variable {digest : Content → UInt64}

/-- Store the atom of an insertion.  The observation is looked at before the atom. -/
def Insertion.run (i : Insertion) : Update digest Stored := do
  let truth ← MonadExcept.ofExcept (i.truth.mapM Observation.toTruth)
  Graph.insert i.atom truth

/-- Answer an inquiry about the graph as it is. -/
def Inquiry.run (i : Inquiry) (caps : Caps) : Update digest Answer := do
  MonadExcept.ofExcept ((← get).answer i caps)

/-- Declare the type of a declaration. -/
def TypeDeclaration.run (d : TypeDeclaration) : Update digest TypeId :=
  Graph.declareType d.name d.parent

/-- Run a script under some caps. -/
def Script.run (s : Script) (caps : Caps) : Update digest Report := do
  let _ ← s.types.mapM TypeDeclaration.run
  let stored ← s.insertions.mapM Insertion.run
  let answers ← s.inquiries.mapM (Inquiry.run · caps)
  return ⟨stored, answers⟩

end TypedHypergraph
