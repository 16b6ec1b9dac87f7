/-
# Answers to inquiries

An inquiry is answered by all its rows within the caps.  One row more than wanted is searched for,
so that it can be said whether there are more.
-/
import TypedHypergraph.Request.Basic
import TypedHypergraph.Search.Rows

namespace TypedHypergraph

/-- What a query answers. -/
structure Answer where
  rows : List Row
  /-- Whether the search ended because it had tried as many atoms as it may. -/
  exhausted : Bool
  /-- Whether there are more rows than the cap on rows lets through. -/
  truncated : Bool

namespace Caps

/-- The same caps with one row more. -/
def widen (c : Caps) : Caps :=
  { c with results := c.results.map fun most => min (most + 1) Limits.lastCount }

/-- The rows that a cap lets through. -/
def cut {α : Type} (most : Option Nat) (rows : List α) : List α :=
  match most with
  | some most => rows.take most
  | .none => rows

/-- Whether a cap does not let all rows through. -/
def cuts {α : Type} (most : Option Nat) (rows : List α) : Bool :=
  match most with
  | some most => decide (most < rows.length)
  | .none => false

end Caps

namespace Graph

variable {digest : Content → UInt64}

/-- Answer an inquiry under the caps of the one who answers. -/
def answer (g : Graph digest) (i : Inquiry) (caps : Caps) : Except Refusal Answer := do
  let query := i.toQuery caps
  let plan ← g.compile query.pattern
  let (rows, search) := (Search.start g plan query.caps.widen).collect g []
  return ⟨Caps.cut query.caps.results rows, search.exhausted, Caps.cuts query.caps.results rows⟩

end Graph

end TypedHypergraph
