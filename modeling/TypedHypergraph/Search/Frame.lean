/-
# Frames

What a search has assumed so far: the atom of each slot that is bound, the *trail* of the slots in
the order in which they were bound, and the atom that each clause has matched.  To go back, the
slots on the trail are unbound down to an earlier length of the trail.
-/
import TypedHypergraph.Plan.Basic

namespace TypedHypergraph

/-- What a search has bound so far, and how to undo it. -/
structure Frame where
  /-- For each slot the atom that it stands for. -/
  bindings : Array (Option Handle)
  /-- The bound slots, the last one first. -/
  trail : List Nat
  /-- For each clause the atom that it matched. -/
  groundings : Array (Option Handle)

namespace Frame

/-- Nothing is assumed. -/
def empty (plan : Plan) : Frame :=
  ⟨Array.replicate plan.slots.length none, [], Array.replicate plan.goals.length none⟩

/-- The atom of a slot. -/
def binding? (f : Frame) (i : Nat) : Option Handle := f.bindings[i]?.join

/-- The atom that a clause matched. -/
def grounding? (f : Frame) (clause : Nat) : Option Handle := f.groundings[clause]?.join

/-- The atom that is found at a place. -/
def find? (f : Frame) : Source → Option Handle
  | .slot i => f.binding? i
  | .clause c => f.grounding? c

/-- Bind a slot. -/
def bind (f : Frame) (i : Nat) (h : Handle) : Frame :=
  { f with bindings := f.bindings.setIfInBounds i (some h), trail := i :: f.trail }

/-- Note the atom that a clause matched. -/
def ground (f : Frame) (clause : Nat) (h : Handle) : Frame :=
  { f with groundings := f.groundings.setIfInBounds clause (some h) }

/-- Forget the atom that a clause matched. -/
def unground (f : Frame) (clause : Nat) : Frame :=
  { f with groundings := f.groundings.setIfInBounds clause none }

/-- Unbind slots, given as a trail, until a certain number is left. -/
def unwind (bindings : Array (Option Handle)) (mark : Nat) :
    List Nat → Array (Option Handle) × List Nat
  | [] => (bindings, [])
  | i :: rest =>
    if mark < rest.length + 1 then unwind (bindings.setIfInBounds i none) mark rest
    else (bindings, i :: rest)

/-- Unbind slots until the trail has a certain length. -/
def undoTo (f : Frame) (mark : Nat) : Frame :=
  let (bindings, trail) := unwind f.bindings mark f.trail
  { f with bindings, trail }

end Frame

end TypedHypergraph
