/-
# Operations of the server

What a client can ask the server to do with its graph, and what it replies.  An operation ends in a
reply or in a failure.
-/
import TypedHypergraph.Graph.Census
import TypedHypergraph.Graph.Remove
import TypedHypergraph.Service.Failure
import TypedHypergraph.Service.Script

namespace TypedHypergraph

/-- What a client can ask the service to do. -/
inductive Operation
  | health
  | census
  | listTypes
  | declareType (d : TypeDeclaration)
  | atomsOfType (typeName : String) (withSubtypes : Bool)
  | insert (i : Insertion)
  | atom (h : Handle)
  | remove (h : Handle) (cascade : Bool)
  | incoming (h : Handle)
  | truth (h : Handle)
  | changeTruth (h : Handle) (change : TruthChange)
  | inquire (i : Inquiry)
  deriving Repr

/-- A stored atom as it is shown to clients. -/
structure AtomView where
  atom : Atom
  typeName : String
  truth : Option Truth

/-- What the service says when an operation succeeds. -/
inductive Reply
  | health
  | census (c : Census)
  | types (declarations : List TypeDeclaration)
  | declared (name : String) (type : TypeId)
  | handles (hs : List Handle)
  | stored (outcome : Stored)
  | atom (view : AtomView)
  | removed (hs : List Handle)
  | truth (h : Handle) (value : Option Truth)
  | answer (a : Answer)

/-- The status by which a reply is sent: a new atom has one of its own. -/
def Reply.status : Reply → Nat
  | .stored ⟨_, true⟩ => 201
  | _ => 200

variable {digest : Content → UInt64}

/-- A step of the server. -/
abbrev Serving (digest : Content → UInt64) (α : Type) := EStateM Failure (Graph digest) α

/-- A change of the graph as a step of the server. -/
def Serving.update {α : Type} (u : Update digest α) : Serving digest α :=
  EStateM.adaptExcept Failure.store u

/-- A look at the graph as a step of the server. -/
def Serving.view {α : Type} (f : Graph digest → Except Refusal α) : Serving digest α := do
  MonadExcept.ofExcept ((f (← get)).mapError .store)

/-- A stored atom with the name of its type and its truth value. -/
def Graph.describe (g : Graph digest) (h : Handle) : Except Failure AtomView := do
  let atom ← (g.atom h).mapError .store
  match g.types.name? atom.content.type with
  | none => throw (.untypedAtom h)
  | some typeName => do
    let truth ← (g.truth h).mapError .store
    return ⟨atom, typeName, truth⟩

/-- Change the truth value of an atom and give the value that it then has.  An observation is looked
at before the atom. -/
def TruthChange.run (c : TruthChange) (h : Handle) : Update digest (Option Truth) := do
  match c.truth with
  | none =>
    let _ ← Graph.replace h none
    return none
  | some o =>
    let value ← MonadExcept.ofExcept o.toTruth
    if c.replace then
      let _ ← Graph.replace h (some value)
      return some value
    else
      return some (← Graph.revise h value)

namespace Operation

/-- Remove one atom, on demand with all links that contain it. -/
def removal (h : Handle) (cascade : Bool) : Update digest (List Handle) := do
  if cascade then Graph.removeCascade h
  else
    let _ ← Graph.remove h
    return [h]

/-- Perform an operation under some caps. -/
def perform (caps : Caps) : Operation → Serving digest Reply
  | .health => return .health
  | .census => return .census (.ofGraph (← get))
  | .listTypes => return .types (← get).types.declarations
  | .declareType d => return .declared d.name (← Serving.update d.run)
  | .atomsOfType typeName withSubtypes =>
    return .handles (← Serving.view (Graph.ofTypeNamed · typeName withSubtypes))
  | .insert i => return .stored (← Serving.update i.run)
  | .atom h => return .atom (← MonadExcept.ofExcept ((← get).describe h))
  | .remove h cascade => return .removed (← Serving.update (removal h cascade))
  | .incoming h => return .handles (← Serving.view (Graph.incoming · h))
  | .truth h => return .truth h (← Serving.view (Graph.truth · h))
  | .changeTruth h change => return .truth h (← Serving.update (change.run h))
  | .inquire i => return .answer (← Serving.update (i.run caps))

end Operation

end TypedHypergraph
