/-
# Turns of a search

A search goes through the clauses in the order of its plan, depth first.  On its stack stands for
each depth that it has entered a *choice point*: the atoms still to be tried there, and the length
of the trail when the depth was entered.  A turn takes back what was assumed for the last atom of
the deepest choice point and tries the next atom.  If it fits and the checks of the depth hold,
the search goes one level down, or has found a row if there is none.

Structure is read from the graph at every turn, and so are truth values, which may change between
two rows.
-/
import TypedHypergraph.Search.Candidates
import TypedHypergraph.Search.Checks
import TypedHypergraph.Search.Shape
import TypedHypergraph.Search.Unify

namespace TypedHypergraph

/-- A solution: the atoms of the variables, and the atom that each clause matched. -/
structure Row where
  values : Std.TreeMap String Handle
  groundings : List Handle

/-- A depth that a search has entered, with what is left to try there. -/
structure ChoicePoint where
  /-- The atoms that have not been tried. -/
  remaining : List Handle
  /-- The length of the trail when the depth was entered. -/
  mark : Nat
  deriving Repr

/-- A search over a plan, between two turns.  Its two counters are natural numbers without a bound,
where a program counts in machine words: they could differ only after as many turns as no search
can take. -/
structure Search (plan : Plan) where
  caps : Caps
  frame : Frame
  /-- The choice points, the deepest one first. -/
  stack : List ChoicePoint
  /-- Whether there is nothing more to come. -/
  done : Bool
  /-- Whether the search ended because it had tried as many atoms as it may. -/
  exhausted : Bool
  /-- The number of atoms tried, unbounded. -/
  steps : Nat
  /-- The number of rows found, unbounded. -/
  found : Nat

/-- How a turn ends. -/
inductive Turn (plan : Plan)
  | onward (s : Search plan)
  | row (r : Row) (s : Search plan)
  | over (s : Search plan)

/-- The solution that a frame stands for when all clauses have matched. -/
def Plan.rowOf (plan : Plan) (f : Frame) : Row where
  values := (plan.slots.zip f.bindings.toList).foldl
    (fun values (slot, bound) =>
      match bound with
      | some h => values.insert slot.name h
      | none => values) ∅
  groundings := f.groundings.toList.filterMap id

namespace Search

variable {digest : Content → UInt64} {plan : Plan}

/-! ## Beginning -/

/-- The atoms that are tried at a depth. -/
def candidatesAt (g : Graph digest) (plan : Plan) (f : Frame) (depth : Nat) : List Handle :=
  match plan.goalAt? depth with
  | some goal => g.candidates plan.slots f goal
  | none => []

/-- A search that has not tried any atom. -/
def start (g : Graph digest) (plan : Plan) (caps : Caps) : Search plan :=
  let frame := Frame.empty plan
  { caps
    frame
    stack := if plan.isEmpty then [] else [⟨candidatesAt g plan frame 0, 0⟩]
    done := plan.isEmpty
    exhausted := false
    steps := 0
    found := 0 }

/-- The numbers of atoms still to be tried. -/
def shape (s : Search plan) : Shape plan.order.length := s.stack.map (·.remaining.length)

/-! ## One turn -/

/-- Take back all that was assumed for the last atom tried at a depth. -/
def retreat (plan : Plan) (f : Frame) (depth mark : Nat) : Frame :=
  let f := f.undoTo mark
  match plan.order[depth]? with
  | some clause => f.unground clause
  | none => f

/-- Let the clause of a depth match an atom, if it can and the checks of the depth hold. -/
def attempt (g : Graph digest) (plan : Plan) (f : Frame) (depth : Nat) (h : Handle) :
    Bool × Frame :=
  match plan.order[depth]?, plan.goalAt? depth with
  | some clause, some goal =>
    match g.unify plan.slots f goal h with
    | (true, f) =>
      let f := f.ground clause h
      (plan.checksPass g f depth, f)
    | (false, f) => (false, f)
  | _, _ => (false, f)

/-- Whether a number of atoms tried is beyond a cap. -/
def beyond (cap : Option Nat) (n : Nat) : Bool :=
  match cap with
  | some most => decide (most < n)
  | none => false

/-- One turn of a search.  The atom that goes beyond the cap on steps is counted as tried. -/
def turn (g : Graph digest) (s : Search plan) : Turn plan :=
  match s.stack with
  | [] => .over { s with done := true }
  | ⟨remaining, mark⟩ :: below =>
    let depth := below.length
    let frame := retreat plan s.frame depth mark
    match remaining with
    | [] =>
      if below.isEmpty then .over { s with frame, stack := below, done := true }
      else .onward { s with frame, stack := below }
    | h :: rest =>
      let s : Search plan :=
        { s with frame, stack := ⟨rest, mark⟩ :: below, steps := s.steps + 1 }
      if beyond s.caps.steps s.steps then .over { s with done := true, exhausted := true }
      else
        match attempt g plan frame depth h with
        | (false, frame) => .onward { s with frame }
        | (true, frame) =>
          if plan.order.length ≤ depth + 1 then
            .row (plan.rowOf frame) { s with frame, found := s.found + 1 }
          else
            let next : ChoicePoint := ⟨candidatesAt g plan frame (depth + 1), frame.trail.length⟩
            .onward { s with frame, stack := next :: s.stack }

/-- After a turn less is left to be done. -/
theorem shorter_of_turn {g : Graph digest} {s s' : Search plan}
    (h : s.turn g = .onward s' ∨ ∃ r, s.turn g = .row r s') :
    Shape.Shorter plan.order.length s'.shape s.shape := by
  unfold turn at h
  unfold shape
  split at h
  · simp at h
  · rename_i remaining mark below hs
    rw [hs]
    cases remaining with
    | nil =>
      simp only at h
      split at h
      · simp at h
      · simp only [Turn.onward.injEq, reduceCtorEq, exists_false, or_false] at h
        subst h
        exact .close _
    | cons x rest =>
      simp only at h
      split at h
      · simp at h
      · split at h
        · simp only [Turn.onward.injEq, reduceCtorEq, exists_false, or_false] at h
          subst h
          exact .use _ _
        · split at h
          · simp only [reduceCtorEq, false_or, Turn.row.injEq, exists_eq_left'] at h
            subst h
            exact .use _ _
          · rename_i hlen
            simp only [Turn.onward.injEq, reduceCtorEq, exists_false, or_false] at h
            subst h
            refine .descend _ _ _ ?_
            simp only [List.length_map]
            omega

end Search

end TypedHypergraph
