/-
# Truth values

A truth value is a strength and a confidence, both between zero and one.  The place for a truth
value at an atom may be empty, which means that nothing is known.

A new observation is merged by `TruthValue.revise`: the strengths are averaged with the
confidences as weights, and the confidence grows towards one.  Everything here is written for any
scale of numbers with order and arithmetic, so that the running program works with doubles and
the laws can be stated where arithmetic is exact.
-/
import TypedHypergraph.Error

namespace TypedHypergraph

/-- A strength and a confidence. -/
structure TruthValue (α : Type) where
  strength : α
  confidence : α
  deriving DecidableEq, Repr, BEq

namespace TruthValue

variable {α : Type} [Add α] [Sub α] [Mul α] [Div α] [LT α] [LE α] [DecidableLT α]
  [DecidableLE α] [OfNat α 0] [OfNat α 1]

/-! ## Range -/

/-- Whether a number lies between zero and one; a value that is no number does not. -/
def inUnit (x : α) : Bool := decide ((0 : α) ≤ x) && decide (x ≤ (1 : α))

/-- A truth value with both components in range. -/
def make? (strength confidence : α) : Option (TruthValue α) :=
  if inUnit strength && inUnit confidence then some ⟨strength, confidence⟩ else none

/-- The nearest number between zero and one. -/
def clamp (x : α) : α :=
  let low := if x < 0 then 0 else x
  if 1 < low then 1 else low

/-! ## Revision -/

/-- Merge an observation into a value.  Where neither carries any confidence there is nothing to
weigh, and the strength of the observation is taken as it is. -/
def revise (value observation : TruthValue α) : TruthValue α :=
  let total := value.confidence + observation.confidence
  let strength :=
    if 0 < total then
      (value.strength * value.confidence + observation.strength * observation.confidence) / total
    else observation.strength
  let confidence := value.confidence + observation.confidence * (1 - value.confidence)
  ⟨clamp strength, clamp confidence⟩

/-- What a place holds after an observation: where nothing is known, the observation itself. -/
def absorb (place : Option (TruthValue α)) (observation : TruthValue α) : TruthValue α :=
  match place with
  | some value => value.revise observation
  | none => observation

/-- Whether both components reach the given minimums. -/
def meets (value : TruthValue α) (minStrength minConfidence : α) : Bool :=
  decide (minStrength ≤ value.strength) && decide (minConfidence ≤ value.confidence)

end TruthValue

/-! ## Doubles -/

/-- The truth values that atoms carry. -/
abbrev Truth := TruthValue Float

/-- A strength and a confidence as they were told, not yet checked for their range. -/
structure Observation where
  strength : Float
  confidence : Float
  deriving Repr

namespace Observation

/-- The truth value that was told, if its components are in range. -/
def toTruth (o : Observation) : Except Refusal Truth :=
  match TruthValue.make? o.strength o.confidence with
  | some value => .ok value
  | none => .error (.invalidTruth o.strength o.confidence)

/-- A truth value told again as it is. -/
def ofTruth (value : Truth) : Observation := ⟨value.strength, value.confidence⟩

end Observation

end TypedHypergraph
