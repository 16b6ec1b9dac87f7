/-
# The order of clauses and the time of checks

The clauses are ordered greedily.  Of those that are left the next is one with the fewest slots
that are not bound yet; of several, one that is *anchored*, that is, held by a certain atom or by a
bound slot at its top; then one with the smallest estimate of the atoms to be tried; then the one
that stands first in the pattern.

A check is made at the first depth at which all that it looks at is bound.
-/
import TypedHypergraph.Graph.Basic
import TypedHypergraph.Plan.Basic

namespace TypedHypergraph

/-! ## Rank -/

/-- How far a clause is from being searched next; smaller is sooner. -/
structure Rank where
  /-- The number of slots not bound yet. -/
  unbound : Nat
  /-- Whether the clause is not anchored. -/
  adrift : Bool
  estimate : Nat
  clause : Nat
  deriving DecidableEq, Repr

/-- The lexicographic order of ranks. -/
def Rank.compare (a b : Rank) : Ordering :=
  (Ord.compare a.unbound b.unbound).then <|
    (Ord.compare a.adrift.toNat b.adrift.toNat).then <|
      (Ord.compare a.estimate b.estimate).then (Ord.compare a.clause b.clause)

namespace Goal

/-- Whether a goal is held by a certain atom or a bound slot, itself or as one of its members. -/
def isAnchored (bound : List Nat) : Goal → Bool
  | .ground _ => true
  | .slot i => decide (i ∈ bound)
  | .link _ members => members.any fun
    | .ground _ => true
    | .slot i => decide (i ∈ bound)
    | .link _ _ => false

/-- The atom that a member of a goal stands for, whatever is bound. -/
def groundHandle? : Goal → Option Handle
  | .ground h => some h
  | _ => none

/-- The smallest number of a list and a first number. -/
def leastOf (first : Nat) (rest : List Nat) : Nat := rest.foldl min first

/-- An upper bound on the number of atoms that will be tried for a goal. -/
def estimate {digest : Content → UInt64} (g : Graph digest) (slots : List Slot) (bound : List Nat) :
    Goal → Nat
  | .ground _ => 1
  | .slot i =>
    if i ∈ bound then 1
    else
      match slots[i]?.bind (·.type) with
      | some type => (g.types.subtypes type).foldl (fun n type => n + g.countOfType type) 0
      | none => g.size
  | .link type members =>
    leastOf (g.countOfType type)
      ((members.filterMap groundHandle?).filterMap fun h =>
        if g.incidence.contains h then some (g.incidence.degree h) else none)

end Goal

/-! ## Ordering -/

namespace Plan

variable {digest : Content → UInt64}

/-- The rank of a clause, given as its goal and its place, when some slots are bound. -/
def rank (g : Graph digest) (slots : List Slot) (bound : List Nat) (clause : Goal × Nat) : Rank :=
  { unbound := (clause.1.slots.filter (· ∉ bound)).length
    adrift := !clause.1.isAnchored bound
    estimate := clause.1.estimate g slots bound
    clause := clause.2 }

/-- The clause with the least rank among some clauses. -/
def best (rankOf : Goal × Nat → Rank) : List (Goal × Nat) → Option (Goal × Nat)
  | [] => none
  | clause :: rest =>
    some <| rest.foldl
      (fun least c => if (rankOf c).compare (rankOf least) = .lt then c else least) clause

/-- Order the clauses that are left, given the slots that are bound; the fuel is their number. -/
def arrange (g : Graph digest) (slots : List Slot) : Nat → List (Goal × Nat) → List Nat → List Nat
  | 0, _, _ => []
  | fuel + 1, left, bound =>
    match best (rank g slots bound) left with
    | none => []
    | some clause =>
      clause.2 ::
        arrange g slots fuel (left.filter (·.2 ≠ clause.2)) (clause.1.collect bound)

/-- All clauses in the order in which they are searched. -/
def clauseOrder (g : Graph digest) (slots : List Slot) (goals : List Goal) : List Nat :=
  arrange g slots goals.length goals.zipIdx []

/-! ## Checks -/

/-- The first depth at which a place is bound; beyond the last depth if there is none. -/
def boundAt (goals : List Goal) (order : List Nat) : Source → Nat
  | .slot i => order.findIdx fun clause => i ∈ ((goals[clause]?).map (·.slots)).getD []
  | .clause c => order.findIdx (· = c)

/-- The depth at which a check is made: the first one if it looks at nothing. -/
def readyAt (goals : List Goal) (order : List Nat) (check : Check) : Nat :=
  min ((check.sources.map (boundAt goals order)).foldl max 0) (order.length - 1)

/-- For each depth the places, in the list of checks, of those that are made there. -/
def schedule (goals : List Goal) (order : List Nat) (checks : List Check) : List (List Nat) :=
  (List.range order.length).map fun depth =>
    (List.range checks.length).filter fun i =>
      (checks[i]?.map (readyAt goals order)) = some depth

end Plan

end TypedHypergraph
