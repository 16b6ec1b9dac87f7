/-
# Why a search ends

Of the stack of a search only the numbers of atoms still to be tried matter here, the deepest level
first.  A turn of the search takes an exhausted level away, or uses up one atom of the deepest
level, or does the latter and opens a level below it; and there are never more levels than
clauses.  How many atoms a new level holds is not known beforehand, so that no number counts the
turns that are left.  Yet there is no infinite sequence of turns: `Shape.shorter_wellFounded`.
-/
import TypedHypergraph.Handle

namespace TypedHypergraph

/-- The numbers of atoms still to be tried, the deepest level first.  The parameter is the greatest
number of levels there can be. -/
def Shape (_levels : Nat) : Type := List Nat

namespace Shape

/-- What one turn of a search does to the shape of its stack. -/
inductive Shorter (levels : Nat) : Shape levels → Shape levels → Prop
  | close (below : List Nat) : Shorter levels below (0 :: below)
  | use (n : Nat) (below : List Nat) : Shorter levels (n :: below) ((n + 1) :: below)
  | descend (m n : Nat) (below : List Nat) (room : below.length + 1 < levels) :
    Shorter levels (m :: n :: below) ((n + 1) :: below)

/-- The empty stack is accessible. -/
theorem acc_nil {levels : Nat} : Acc (Shorter levels) [] :=
  ⟨_, fun _ h => nomatch h⟩

/-- A stack is accessible with any level on top, if the one below it is; there is room for only so
many levels. -/
theorem acc_cons {levels : Nat} :
    ∀ (room : Nat) (below : List Nat), levels ≤ below.length + room →
      Acc (Shorter levels) below → ∀ n : Nat, Acc (Shorter levels) (n :: below)
  | 0, below, full, acc, n => by
    induction n with
    | zero => exact ⟨_, fun _ h => by cases h; exact acc⟩
    | succ n ih =>
      refine ⟨_, fun _ h => ?_⟩
      cases h with
      | use => exact ih
      | descend m _ _ free => omega
  | room + 1, below, full, acc, n => by
    induction n with
    | zero => exact ⟨_, fun _ h => by cases h; exact acc⟩
    | succ n ih =>
      refine ⟨_, fun _ h => ?_⟩
      cases h with
      | use => exact ih
      | descend m _ _ free =>
        exact acc_cons room (n :: below) (by simp only [List.length_cons]; omega) ih m

/-- Every stack is accessible. -/
theorem acc {levels : Nat} : ∀ s : List Nat, Acc (Shorter levels) s
  | [] => acc_nil
  | n :: below => acc_cons levels below (by omega) (acc below) n

/-- The order of stacks is well-founded, so that every search comes to an end. -/
theorem shorter_wellFounded (levels : Nat) : WellFounded (Shorter levels) := ⟨acc⟩

/-- One shape comes before another if some turns lead from the other to it. -/
instance (levels : Nat) : WellFoundedRelation (Shape levels) :=
  ⟨Relation.TransGen (Shorter levels), (shorter_wellFounded levels).transGen⟩

end Shape

end TypedHypergraph
