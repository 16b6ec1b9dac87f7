/-
# Refusals

What can go wrong with an operation on a graph, as causes, together with the two texts by which
a cause is told to the outside: a fixed word for its kind and a message for a reader.

Storing an atom that is already there is no refusal.
-/
import TypedHypergraph.Handle
import TypedHypergraph.Limits
import TypedHypergraph.Decimal.Shortest

namespace TypedHypergraph

/-! ## Causes -/

/-- Why the description of an atom or of a type is not well formed. -/
inductive AtomFault
  | typeNameLength
  | variableType
  | linkType (typeName : String)
  | nodeType (typeName : String)
  | nameLength (bytes : Nat)
  | arity (members : Nat)
  | depth
  deriving DecidableEq, Repr

/-- Why a pattern is not well formed. -/
inductive PatternFault
  | clauseCount (clauses : Nat)
  | depth
  | groundVariable (typeName name : String)
  | namelessVariable
  | conflictingTypes (variableName : String)
  | clauseOutOfRange (index clauses : Nat)
  deriving DecidableEq, Repr

/-- Why an operation on a graph was refused. -/
inductive Refusal
  | notFound (handle : Handle)
  | stillReferenced (handle : Handle) (referrers : List Handle)
  | unboundVariable (name : String)
  | typeUndeclared (name : String)
  | typeIdUndeclared (type : TypeId)
  | typeConflict (name : String) (existingParent : Option String)
  | invalidAtom (fault : AtomFault)
  | invalidTruth (strength confidence : Float)
  | invalidPattern (fault : PatternFault)
  deriving Repr

/-! ## Texts -/

/-- What is wrong with a description, in words. -/
def AtomFault.message : AtomFault → String
  | .typeNameLength => s!"type name must be 1..={Limits.typeNameBytes} bytes"
  | .variableType => "variable atoms exist only inside patterns"
  | .linkType typeName => s!"type {typeName} is a link type"
  | .nodeType typeName => s!"type {typeName} is a node type"
  | .nameLength bytes =>
    s!"node name length {bytes} exceeds maximum {Limits.nodeNameBytes} bytes"
  | .arity members => s!"link arity {members} exceeds maximum {Limits.arity}"
  | .depth => s!"atom description nested deeper than {Limits.depth}"

/-- What is wrong with a pattern, in words. -/
def PatternFault.message : PatternFault → String
  | .clauseCount clauses => s!"{clauses} clauses exceeds maximum {Limits.clauses}"
  | .depth => s!"clause nested deeper than {Limits.depth}"
  | .groundVariable typeName name =>
    s!"{typeName} {name} used as a ground node; declare it as a variable"
  | .namelessVariable => "variable name must not be empty"
  | .conflictingTypes variableName => s!"variable {variableName} declared with conflicting types"
  | .clauseOutOfRange index clauses => s!"constraint targets clause {index} of {clauses}"

namespace Refusal

/-- The fixed word for the kind of a refusal. -/
def kind : Refusal → String
  | notFound _ => "not_found"
  | stillReferenced _ _ => "referential_integrity_violation"
  | unboundVariable _ => "unbound_variable"
  | typeUndeclared _ => "type_undeclared"
  | typeIdUndeclared _ => "type_undeclared"
  | typeConflict _ _ => "type_conflict"
  | invalidAtom _ => "invalid_atom"
  | invalidTruth _ _ => "invalid_truth_value"
  | invalidPattern _ => "invalid_pattern"

/-- What a refusal tells a reader. -/
def message : Refusal → String
  | notFound handle => s!"Atom not found: {handle}"
  | stillReferenced handle referrers =>
    s!"Atom {handle} is still referenced by {referrers.length} link(s)"
  | unboundVariable name => s!"Unbound variable in pattern: {name}"
  | typeUndeclared name => s!"Type not declared: {name}"
  | typeIdUndeclared type => s!"Type not declared: type id {type.index}"
  | typeConflict name existingParent =>
    let parent := existingParent.getD "<root>"
    s!"Type {name} already declared with parent {parent}"
  | invalidAtom fault => "Invalid atom: " ++ fault.message
  | invalidTruth strength confidence =>
    "Invalid truth value: strength " ++ Decimal.text strength ++ ", confidence "
      ++ Decimal.text confidence
  | invalidPattern fault => "Invalid pattern: " ++ fault.message

/-- The links that stand in the way of a removal; none for the other kinds. -/
def referrers : Refusal → List Handle
  | stillReferenced _ referrers => referrers
  | _ => []

end Refusal

end TypedHypergraph
