/-
# Unification

To unify a goal with an atom is to bind the slots of the goal so that the goal stands for the atom.
The slots bound on the way stay on the trail also when it fails; the search takes them back.

The recursion follows the goal, never the atoms, so that cycles or long chains in a graph do no
harm.
-/
import TypedHypergraph.Graph.Basic
import TypedHypergraph.Search.Frame

namespace TypedHypergraph.Graph

variable {digest : Content → UInt64}

/-- Whether a variable may stand for atoms of a type. -/
def allows (g : Graph digest) (slots : List Slot) (i : Nat) (type : TypeId) : Bool :=
  match slots[i]?.bind (·.type) with
  | some restriction => g.types.isA type restriction
  | none => true

mutual

/-- Unify a goal with an atom. -/
def unify (g : Graph digest) (slots : List Slot) (f : Frame) : Goal → Handle → Bool × Frame
  | .ground expected, h => (decide (expected = h), f)
  | .slot i, h =>
    match f.binding? i with
    | some bound => (decide (bound = h), f)
    | none =>
      match g.content? h with
      | some c => if g.allows slots i c.type then (true, f.bind i h) else (false, f)
      | none => (false, f)
  | .link type goals, h =>
    match g.content? h with
    | some (.link found members) =>
      if found = type ∧ members.length = goals.length then g.unifyAll slots f goals members
      else (false, f)
    | _ => (false, f)

/-- Unify goals with atoms one by one, up to the first failure. -/
def unifyAll (g : Graph digest) (slots : List Slot) (f : Frame) :
    List Goal → List Handle → Bool × Frame
  | goal :: goals, h :: hs =>
    match g.unify slots f goal h with
    | (true, f) => g.unifyAll slots f goals hs
    | (false, f) => (false, f)
  | _, _ => (true, f)

end

end TypedHypergraph.Graph
