/-
# Search plans

A plan is a pattern made ready for the search in one graph.  Types are looked up, ground parts are
replaced by the atoms they stand for, and variables are numbered in the order in which they occur:
the number of a variable is its *slot*.  The plan fixes the order in which clauses are searched and
the depth of the search at which each constraint is checked.
-/
import TypedHypergraph.Pattern.Basic

namespace TypedHypergraph

/-- What a clause asks for: a certain atom, the atom of a slot, or a link. -/
inductive Goal
  | ground (handle : Handle)
  | slot (index : Nat)
  | link (type : TypeId) (members : List Goal)
  deriving Repr

namespace Goal

mutual

/-- Append the slots of a goal to those seen so far. -/
def collect (seen : List Nat) : Goal → List Nat
  | .ground _ => seen
  | .slot i => if i ∈ seen then seen else seen ++ [i]
  | .link _ members => collectAll seen members

/-- Append the slots of several goals to those seen so far. -/
def collectAll (seen : List Nat) : List Goal → List Nat
  | [] => seen
  | goal :: rest => collectAll (collect seen goal) rest

end

/-- The slots of a goal, each once. -/
def slots (goal : Goal) : List Nat := goal.collect []

end Goal

/-- A numbered variable. -/
structure Slot where
  name : String
  /-- The type whose atoms, with those of its subtypes, the variable stands for. -/
  type : Option TypeId
  deriving DecidableEq, Repr

/-- Where a check finds its atom. -/
inductive Source
  | slot (index : Nat)
  | clause (index : Nat)
  deriving DecidableEq, Repr

/-- A constraint made ready. -/
inductive Check
  | truthAtLeast (source : Source) (minStrength minConfidence : Float)
  | typeIs (source : Source) (type : TypeId) (withSubtypes : Bool)
  | distinct (a b : Nat)
  | predicate (sources : List Source) (test : List SeenAtom → Bool)

/-- The places that a check looks at. -/
def Check.sources : Check → List Source
  | truthAtLeast source _ _ => [source]
  | typeIs source _ _ => [source]
  | distinct a b => [.slot a, .slot b]
  | predicate sources _ => sources

/-- A pattern made ready for search: its variables as slots, its clauses as goals in the order in
which they are searched, and each check at the depth where it is made. -/
structure Plan where
  slots : List Slot
  /-- The goals of the clauses, in the order of the pattern. -/
  goals : List Goal
  /-- For each depth of the search the clause that is searched there. -/
  order : List Nat
  checks : List Check
  /-- For each depth of the search the checks that are made there. -/
  checksAt : List (List Nat)

namespace Plan

/-- The plan of a pattern that cannot match. -/
def hopeless (slots : List Slot) : Plan := ⟨slots, [], [], [], []⟩

/-- Whether a plan has nothing to search. -/
def isEmpty (plan : Plan) : Bool := plan.order.isEmpty

/-- The names of the variables, slot by slot. -/
def variableNames (plan : Plan) : List String := plan.slots.map (·.name)

/-- The goal that is searched at a depth. -/
def goalAt? (plan : Plan) (depth : Nat) : Option Goal :=
  plan.order[depth]?.bind (plan.goals[·]?)

end Plan

end TypedHypergraph
