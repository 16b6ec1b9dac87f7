/-
# Patterns

A pattern is a conjunction of clauses with constraints.  A clause is a term whose leaves are
stored atoms, nodes given by type and name, and variables.  A solution gives every variable an
atom so that every clause is a stored atom and every constraint holds.

Terms for links and nodes match their exact type; the type of a variable and the constraint on a
type can include subtypes.
-/
import TypedHypergraph.Content
import TypedHypergraph.Truth

namespace TypedHypergraph

/-! ## Terms -/

/-- A variable of a pattern.  With a type it stands only for atoms of that type or a subtype. -/
structure Variable where
  name : String
  typeName : Option String
  deriving DecidableEq, Repr

/-- A clause, or a part of one. -/
inductive Term
  | stored (handle : Handle)
  | node (typeName name : String)
  | var (v : Variable)
  | link (typeName : String) (members : List Term)
  deriving Repr, Inhabited

namespace Term

mutual

/-- Append the names of the variables of a term to those seen so far. -/
def collect (seen : List String) : Term → List String
  | .stored _ => seen
  | .node _ _ => seen
  | .var v => if v.name ∈ seen then seen else seen ++ [v.name]
  | .link _ members => collectAll seen members

/-- Append the names of the variables of several terms to those seen so far. -/
def collectAll (seen : List String) : List Term → List String
  | [] => seen
  | term :: rest => collectAll (collect seen term) rest

end

end Term

/-! ## Constraints -/

/-- What a constraint looks at: the atom of a variable, or the atom that a clause matched. -/
inductive Target
  | var (name : String)
  | clause (index : Nat)
  deriving DecidableEq, Repr

/-- An atom that is shown to a predicate. -/
structure SeenAtom where
  handle : Handle
  content : Content
  truth : Option Truth
  deriving Repr

/-- A test on the atoms of some targets, in the order of the targets. -/
structure Predicate where
  targets : List Target
  test : List SeenAtom → Bool

/-- The constraints that can be written down. -/
inductive Condition
  /-- The truth value of the target is known and reaches both minimums. -/
  | truthAtLeast (target : Target) (minStrength minConfidence : Float)
  /-- The target has a type, or on demand one of its subtypes. -/
  | typeIs (target : Target) (typeName : String) (withSubtypes : Bool)
  /-- Two variables stand for different atoms. -/
  | distinct (a b : String)
  deriving Repr

/-- What a solution has to satisfy besides its clauses. -/
inductive Constraint
  | condition (c : Condition)
  | predicate (p : Predicate)

/-! ## Patterns and queries -/

/-- Clauses that are to be matched together, under constraints. -/
structure Pattern where
  clauses : List Term
  constraints : List Constraint

/-- The names of the variables of a pattern, each where it first occurs. -/
def Pattern.variableNames (p : Pattern) : List String := Term.collectAll [] p.clauses

/-- Bounds on the work for one query; without a number there is no bound. -/
structure Caps where
  /-- Stop after this many solutions. -/
  results : Option Nat
  /-- Stop after this many atoms have been tried. -/
  steps : Option Nat
  deriving DecidableEq, Repr

namespace Caps

/-- No bound at all. -/
def none : Caps := ⟨.none, .none⟩

/-- The smaller of two bounds. -/
def least : Option Nat → Option Nat → Option Nat
  | some a, some b => some (min a b)
  | some a, .none => some a
  | .none, b => b

/-- Both bounds at once. -/
def meet (a b : Caps) : Caps := ⟨least a.results b.results, least a.steps b.steps⟩

end Caps

/-- A pattern with the caps on the search for it. -/
structure Query where
  pattern : Pattern
  caps : Caps

end TypedHypergraph
