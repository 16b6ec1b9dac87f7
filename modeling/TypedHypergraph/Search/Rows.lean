/-
# Rows

The rows of a search come one at a time: the search takes turns up to the next row and can be asked
again.  Once it has ended, asking again gives nothing and changes nothing.  A cap on rows ends the
search before it looks for a row that is not wanted.
-/
import TypedHypergraph.Plan.Compile
import TypedHypergraph.Search.Turn

namespace TypedHypergraph

namespace Search

variable {digest : Content → UInt64} {plan : Plan}

/-! ## One row -/

/-- Take turns up to the next row, or to the end. -/
def pull (g : Graph digest) (s : Search plan) : Option Row × Search plan :=
  match _turned : s.turn g with
  | .onward s' => pull g s'
  | .row r s' => (some r, s')
  | .over s' => (none, s')
termination_by s.shape
decreasing_by exact .single (shorter_of_turn (.inl _turned))

/-- Whether as many rows have been found as are wanted. -/
def full (s : Search plan) : Bool :=
  match s.caps.results with
  | some most => decide (most ≤ s.found)
  | none => false

/-- The next row, if there is one. -/
def next (g : Graph digest) (s : Search plan) : Option Row × Search plan :=
  if s.done then (none, s)
  else if s.full then (none, { s with done := true })
  else s.pull g

/-- After a row less is left to be done. -/
theorem shorter_of_pull {g : Graph digest} {s s' : Search plan} {r : Row}
    (h : s.pull g = (some r, s')) :
    Relation.TransGen (Shape.Shorter plan.order.length) s'.shape s.shape := by
  fun_induction pull g s with
  | case1 s s₁ h₁ ih => exact .tail (ih h) (shorter_of_turn (.inl h₁))
  | case2 s r₁ s₁ h₁ =>
    simp only [Prod.mk.injEq, Option.some.injEq] at h
    obtain ⟨rfl, rfl⟩ := h
    exact .single (shorter_of_turn (.inr ⟨_, h₁⟩))
  | case3 s s₁ h₁ => simp at h

/-- A search is shorter after each row, in the order by which all rows are collected. -/
theorem shorter_of_next {g : Graph digest} {s s' : Search plan} {r : Row}
    (h : s.next g = (some r, s')) :
    Relation.TransGen (Shape.Shorter plan.order.length) s'.shape s.shape := by
  unfold next at h
  split at h
  · simp at h
  · split at h
    · simp at h
    · exact shorter_of_pull h

/-! ## All rows -/

/-- All rows from here on, behind some that have been found before (the last one first), and the
search at its end. -/
def collect (g : Graph digest) (s : Search plan) (before : List Row) : List Row × Search plan :=
  match _found : s.next g with
  | (some r, s') => collect g s' (r :: before)
  | (none, s') => (before.reverse, s')
termination_by s.shape
decreasing_by exact shorter_of_next _found

end Search

/-! ## Queries -/

namespace Graph

variable {digest : Content → UInt64}

/-- All rows of a query within its caps. -/
def matchAll (g : Graph digest) (q : Query) : Except Refusal (List Row) := do
  let plan ← g.compile q.pattern
  return ((Search.start g plan q.caps).collect g []).1

end Graph

end TypedHypergraph
