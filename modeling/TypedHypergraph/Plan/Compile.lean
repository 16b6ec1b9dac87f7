/-
# From patterns to plans

Every part of a pattern is checked, also behind a part that is not stored, so that whether a
pattern is well formed does not depend on the atoms of the graph.  A pattern with a ground part
that is not stored, or without clauses, has no solutions; its plan is empty but still lists the
variables.
-/
import TypedHypergraph.Plan.Order

namespace TypedHypergraph

/-! ## Slots -/

/-- The slot of a name, if it has one. -/
def slotOf? (slots : List Slot) (name : String) : Option Nat :=
  slots.findIdx? (·.name = name)

/-- Give a name a slot, or find the one it has.  The type of a slot is the one type written at any
occurrence of its name. -/
def bindSlot (slots : List Slot) (name : String) (type : Option TypeId) :
    Except Refusal (Nat × List Slot) :=
  match slotOf? slots name with
  | none => .ok (slots.length, slots ++ [⟨name, type⟩])
  | some i =>
    match slots[i]?.bind (·.type), type with
    | some a, some b =>
      if a = b then .ok (i, slots) else .error (.invalidPattern (.conflictingTypes name))
    | none, some b => .ok (i, slots.modify i fun s => { s with type := some b })
    | _, none => .ok (i, slots)

/-! ## Terms -/

namespace Graph

variable {digest : Content → UInt64}

/-- The type that a variable is restricted to. -/
def resolveRestriction (g : Graph digest) : Option String → Except Refusal (Option TypeId)
  | none => .ok none
  | some typeName => (g.types.resolve typeName).map some

/-- The handles of goals that are all ground. -/
def groundAll? (goals : List Goal) : Option (List Handle) := goals.mapM Goal.groundHandle?

mutual

/-- Make a term ready that stands at a given depth.  There is no goal if a ground part of the term
is not stored. -/
def compileTerm (g : Graph digest) (depth : Nat) (slots : List Slot) :
    Term → Except Refusal (Option Goal × List Slot)
  | .stored h => do
    if Limits.depth < depth then
      throw (.invalidPattern .depth)
    return (if g.contains h then some (.ground h) else none, slots)
  | .node typeName name => do
    if Limits.depth < depth then
      throw (.invalidPattern .depth)
    let type ← g.types.resolve typeName
    if g.types.isA type .variableNode then
      throw (.invalidPattern (.groundVariable typeName name))
    return ((g.lookup (.node type name)).map .ground, slots)
  | .var v => do
    if Limits.depth < depth then
      throw (.invalidPattern .depth)
    if v.name.isEmpty then
      throw (.invalidPattern .namelessVariable)
    let type ← g.resolveRestriction v.typeName
    let (i, slots) ← bindSlot slots v.name type
    return (some (.slot i), slots)
  | .link typeName members => do
    if Limits.depth < depth then
      throw (.invalidPattern .depth)
    let type ← g.types.resolve typeName
    let (goals, slots) ← g.compileTerms (depth + 1) slots members
    match goals with
    | none => return (none, slots)
    | some goals =>
      match groundAll? goals with
      | some handles => return ((g.lookup (.link type handles)).map .ground, slots)
      | none => return (some (.link type goals), slots)

/-- Make terms ready from left to right.  There are no goals if one of the terms has none. -/
def compileTerms (g : Graph digest) (depth : Nat) (slots : List Slot) :
    List Term → Except Refusal (Option (List Goal) × List Slot)
  | [] => return (some [], slots)
  | term :: rest => do
    let (goal, slots) ← g.compileTerm depth slots term
    let (goals, slots) ← g.compileTerms depth slots rest
    match goal, goals with
    | some goal, some goals => return (some (goal :: goals), slots)
    | _, _ => return (none, slots)

end

end Graph

/-! ## Constraints -/

/-- The slot of a variable that some clause has to introduce. -/
def resolveVariable (slots : List Slot) (name : String) : Except Refusal Nat :=
  match slotOf? slots name with
  | some i => .ok i
  | none => .error (.unboundVariable name)

/-- Where a target is found, given the number of clauses. -/
def resolveTarget (slots : List Slot) (clauses : Nat) : Target → Except Refusal Source
  | .var name => (resolveVariable slots name).map .slot
  | .clause index =>
    if index < clauses then .ok (.clause index)
    else .error (.invalidPattern (.clauseOutOfRange index clauses))

namespace TypeTree

/-- Make a constraint ready.  The minimums of a truth value have to be in range themselves. -/
def compileConstraint (types : TypeTree) (slots : List Slot) (clauses : Nat) :
    Constraint → Except Refusal Check
  | .condition (.truthAtLeast target minStrength minConfidence) => do
    let _ ← (Observation.mk minStrength minConfidence).toTruth
    return .truthAtLeast (← resolveTarget slots clauses target) minStrength minConfidence
  | .condition (.typeIs target typeName withSubtypes) => do
    let source ← resolveTarget slots clauses target
    let type ← types.resolve typeName
    return .typeIs source type withSubtypes
  | .condition (.distinct a b) => do
    let i ← resolveVariable slots a
    let j ← resolveVariable slots b
    return .distinct i j
  | .predicate p => do
    return .predicate (← p.targets.mapM (resolveTarget slots clauses)) p.test

end TypeTree

/-! ## Patterns -/

namespace Graph

variable {digest : Content → UInt64}

/-- Make a pattern ready for the search in a graph. -/
def compile (g : Graph digest) (p : Pattern) : Except Refusal Plan := do
  if Limits.clauses < p.clauses.length then
    throw (.invalidPattern (.clauseCount p.clauses.length))
  let (goals, slots) ← g.compileTerms 0 [] p.clauses
  let checks ← p.constraints.mapM (g.types.compileConstraint slots p.clauses.length)
  match goals with
  | none => return .hopeless slots
  | some [] => return .hopeless slots
  | some goals =>
    let order := Plan.clauseOrder g slots goals
    return { slots, goals, order, checks, checksAt := Plan.schedule goals order checks }

end Graph

end TypedHypergraph
