/-
# Checks during the search

Whether a constraint holds of what a frame assumes.  Truth values are read at the time of the
check.
-/
import TypedHypergraph.Graph.Basic
import TypedHypergraph.Search.Frame

namespace TypedHypergraph

variable {digest : Content → UInt64}

/-- A stored atom as predicates see it. -/
def Graph.seen? (g : Graph digest) (h : Handle) : Option SeenAtom :=
  (g.content? h).map fun c => ⟨h, c, g.truth? h⟩

/-- Whether a check holds.  A check on a place where no atom is found fails. -/
def Check.passes (g : Graph digest) (f : Frame) : Check → Bool
  | .truthAtLeast source minStrength minConfidence =>
    match (f.find? source).bind g.truth? with
    | some value => value.meets minStrength minConfidence
    | none => false
  | .typeIs source type withSubtypes =>
    match (f.find? source).bind g.content? with
    | some c => decide (c.type = type) || (withSubtypes && g.types.isA c.type type)
    | none => false
  | .distinct a b => decide (f.binding? a ≠ f.binding? b)
  | .predicate sources test =>
    match sources.mapM fun source => (f.find? source).bind g.seen? with
    | some atoms => test atoms
    | none => false

/-- The checks that are made at a depth. -/
def Plan.checksDue (plan : Plan) (depth : Nat) : List Check :=
  (plan.checksAt[depth]?.getD []).filterMap (plan.checks[·]?)

/-- Whether all checks that are made at a depth hold. -/
def Plan.checksPass (plan : Plan) (g : Graph digest) (f : Frame) (depth : Nat) : Bool :=
  (plan.checksDue depth).all (·.passes g f)

end TypedHypergraph
