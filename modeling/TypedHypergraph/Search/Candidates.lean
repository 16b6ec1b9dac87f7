/-
# Candidates

The atoms that are tried for a clause, ascending.  A link clause with a member that is known, be it
ground or bound, needs to look only at the links that contain the known atom; of several known
members the one in the fewest links decides.
-/
import TypedHypergraph.Graph.Basic
import TypedHypergraph.Search.Frame

namespace TypedHypergraph

variable {digest : Content → UInt64}

/-- The atom that a member of a goal is known to stand for. -/
def Goal.known? (f : Frame) : Goal → Option Handle
  | .ground h => some h
  | .slot i => f.binding? i
  | .link _ _ => none

namespace Graph

/-- Whether an atom has a type and a number of members. -/
def hasShape (g : Graph digest) (type : TypeId) (arity : Nat) (h : Handle) : Bool :=
  match g.content? h with
  | some c => decide (c.type = type) && decide (c.members.length = arity)
  | none => false

/-- The shortest of some lists of links, the first one among equals. -/
def fewest : List (List Handle) → Option (List Handle)
  | [] => none
  | links :: rest =>
    some (rest.foldl (fun least l => if l.length < least.length then l else least) links)

/-- The atoms that are tried for a goal. -/
def candidates (g : Graph digest) (slots : List Slot) (f : Frame) : Goal → List Handle
  | .ground h => if g.contains h then [h] else []
  | .slot i =>
    match f.binding? i with
    | some h => [h]
    | none =>
      match slots[i]?.bind (·.type) with
      | some type => g.handlesOfType type true
      | none => g.handles
  | .link type members =>
    match (members.filterMap (Goal.known? f)).mapM g.incidence.get? with
    | none => []
    | some known =>
      ((fewest known).getD (g.handlesOfType type false)).filter (g.hasShape type members.length)

end Graph

end TypedHypergraph
