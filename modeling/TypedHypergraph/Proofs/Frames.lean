/-
# Going back

Binding slots that are free, any number of them (`Frame.Binds`), is taken back completely by undoing
the trail (`Frame.Binds.undoTo`), and matching a clause by forgetting its atom.  So a search finds a
frame again as it was after whatever it tried from there (`Search.retreat_attempt`).
-/
import Mathlib.Tactic
import TypedHypergraph.Search.Turn

namespace TypedHypergraph

namespace Frame

/-! ## Reading after writing -/

/-- In an array of atoms that may be missing, setting one place changes what is read at that place
only. -/
theorem getElem?_join_setIfInBounds (a : Array (Option Handle)) (i j : Nat) (x : Option Handle) :
    (a.setIfInBounds i x)[j]?.join = if i = j ∧ i < a.size then x else a[j]?.join := by
  rw [Array.getElem?_setIfInBounds]
  by_cases hij : i = j
  · subst hij
    by_cases hi : i < a.size
    · simp [hi]
    · simp [hi]
  · simp [hij]

/-- Binding a slot changes what is read at that slot only. -/
theorem binding?_bind (f : Frame) (i : Nat) (h : Handle) (j : Nat) :
    (f.bind i h).binding? j = if i = j ∧ i < f.bindings.size then some h else f.binding? j :=
  getElem?_join_setIfInBounds _ _ _ _

/-- Grounding a clause changes what is read at that clause only. -/
theorem grounding?_ground (f : Frame) (c : Nat) (h : Handle) (c' : Nat) :
    (f.ground c h).grounding? c' =
      if c = c' ∧ c < f.groundings.size then some h else f.grounding? c' :=
  getElem?_join_setIfInBounds _ _ _ _

/-- To clear what is clear changes nothing. -/
theorem setIfInBounds_none {a : Array (Option Handle)} {i : Nat} (h : a[i]?.join = none) :
    a.setIfInBounds i none = a := by
  apply Array.ext_getElem?
  intro j
  rw [Array.getElem?_setIfInBounds]
  by_cases hij : i = j
  · subst hij
    rw [if_pos rfl]
    cases hx : a[i]? with
    | none =>
      rw [if_neg (by simpa using hx)]
    | some x =>
      rw [hx] at h
      rw [if_pos (Array.getElem?_eq_some_iff.mp hx).1]
      exact congrArg some h.symm
  · rw [if_neg hij]

/-- To clear what was clear before it was set takes the setting back. -/
theorem setIfInBounds_set_none {a : Array (Option Handle)} {i : Nat} (x : Option Handle)
    (h : a[i]?.join = none) : (a.setIfInBounds i x).setIfInBounds i none = a := by
  rw [Array.setIfInBounds_setIfInBounds, setIfInBounds_none h]

/-- Taking a grounding back that there is not changes nothing. -/
theorem unground_self {f : Frame} {c : Nat} (h : f.grounding? c = none) : f.unground c = f := by
  unfold unground
  rw [setIfInBounds_none h]

/-- A new grounding that is taken back leaves no trace. -/
theorem unground_ground {f : Frame} {c : Nat} (h : f.grounding? c = none) (a : Handle) :
    (f.ground c a).unground c = f := by
  unfold unground ground
  dsimp only
  rw [setIfInBounds_set_none _ h]

/-! ## Undoing -/

/-- Undoing nothing changes nothing. -/
theorem undoTo_self (f : Frame) : f.undoTo f.trail.length = f := by
  rcases f with ⟨bindings, trail, groundings⟩
  unfold undoTo
  cases trail with
  | nil => rfl
  | cons i rest => simp [unwind]

/-- Undoing bindings does not touch groundings. -/
theorem undoTo_ground (f : Frame) (c : Nat) (h : Handle) (mark : Nat) :
    (f.ground c h).undoTo mark = (f.undoTo mark).ground c h := rfl

/-- The slot that was bound last is the first to be free again. -/
theorem undoTo_bind {f : Frame} {i : Nat} (free : f.binding? i = none) (h : Handle) {mark : Nat}
    (hmark : mark ≤ f.trail.length) : (f.bind i h).undoTo mark = f.undoTo mark := by
  have first : unwind (f.bindings.setIfInBounds i (some h)) mark (i :: f.trail)
      = unwind f.bindings mark f.trail := by
    rw [unwind, if_pos (Nat.lt_succ_of_le hmark), setIfInBounds_set_none _ free]
  unfold undoTo bind
  dsimp only
  rw [first]

/-- Some free slots have been bound. -/
inductive Binds : Frame → Frame → Prop
  | refl (f : Frame) : Binds f f
  | bind {f f' : Frame} (before : Binds f f') {i : Nat} (free : f'.binding? i = none)
    (h : Handle) : Binds f (f'.bind i h)

namespace Binds

variable {f f' f'' : Frame}

theorem trans (h : Binds f f') (h' : Binds f' f'') : Binds f f'' := by
  induction h' with
  | refl => exact h
  | bind _ free a ih => exact ih.bind free a

/-- Adding bindings never shortens the trail. -/
theorem trail_le (h : Binds f f') : f.trail.length ≤ f'.trail.length := by
  induction h with
  | refl => exact le_rfl
  | bind _ _ _ ih => exact ih.trans (Nat.le_succ _)

/-- Adding bindings does not touch groundings. -/
theorem groundings (h : Binds f f') : f'.groundings = f.groundings := by
  induction h with
  | refl => rfl
  | bind _ _ _ ih => exact ih

/-- Adding bindings does not add slots. -/
theorem size (h : Binds f f') : f'.bindings.size = f.bindings.size := by
  induction h with
  | refl => rfl
  | bind _ _ _ ih => exact (Array.size_setIfInBounds ..).trans ih

/-- Bound slots stay bound. -/
theorem mono (h : Binds f f') {i : Nat} {a : Handle} (ha : f.binding? i = some a) :
    f'.binding? i = some a := by
  induction h with
  | refl => exact ha
  | @bind f' _ j free b ih =>
    rw [binding?_bind, if_neg]
    · exact ih
    · rintro ⟨rfl, -⟩
      rw [ih] at free
      cases free

/-- **Undoing** brings the frame back in which no further slot had been bound. -/
theorem undoTo (h : Binds f f') : f'.undoTo f.trail.length = f := by
  induction h with
  | refl => exact undoTo_self f
  | bind before free a ih => rw [undoTo_bind free a before.trail_le, ih]

end Binds

end Frame

/-! ## Unification binds free slots -/

namespace Graph

variable {digest : Content → UInt64} {g : Graph digest}

mutual

/-- **Unification** binds free slots and does nothing else, whether it succeeds or not. -/
theorem binds_unify (slots : List Slot) : ∀ (goal : Goal) (f : Frame) (h : Handle),
    f.Binds (g.unify slots f goal h).2
  | .ground m, f, h => by
    rw [unify]
    exact .refl f
  | .slot i, f, h => by
    rw [unify]
    cases hb : f.binding? i with
    | some bound => exact .refl f
    | none =>
      cases g.content? h with
      | none => exact .refl f
      | some c =>
        dsimp only
        split
        · exact (Frame.Binds.refl f).bind hb h
        · exact .refl f
  | .link type goals, f, h => by
    rw [unify]
    split
    · split
      · exact binds_unifyAll slots goals f _
      · exact .refl f
    · exact .refl f

/-- Unifying several goals only adds bindings, also where it fails. -/
theorem binds_unifyAll (slots : List Slot) : ∀ (goals : List Goal) (f : Frame) (hs : List Handle),
    f.Binds (g.unifyAll slots f goals hs).2
  | [], f, hs => by
    rw [unifyAll]
    · exact .refl f
    · simp
  | goal :: goals, f, [] => by
    rw [unifyAll]
    · exact .refl f
    · simp
  | goal :: goals, f, h :: hs => by
    rw [unifyAll]
    have first := binds_unify slots goal f h
    rcases hu : g.unify slots f goal h with ⟨_ | _, f₁⟩
    · rw [hu] at first
      exact first
    · rw [hu] at first
      exact first.trans (binds_unifyAll slots goals f₁ hs)

end

end Graph

namespace Search

variable {digest : Content → UInt64} {plan : Plan} {g : Graph digest}

/-! ## Nothing is assumed -/

/-- In the empty frame no clause is grounded. -/
theorem grounding?_empty (plan : Plan) (c : Nat) : (Frame.empty plan).grounding? c = none := by
  unfold Frame.grounding? Frame.empty
  rw [Array.getElem?_replicate]
  split <;> rfl

/-- In the empty frame no slot is bound. -/
theorem binding?_empty (plan : Plan) (i : Nat) : (Frame.empty plan).binding? i = none := by
  unfold Frame.binding? Frame.empty
  rw [Array.getElem?_replicate]
  split <;> rfl

/-! ## Retreat -/

/-- To retreat from a clause is to undo the bindings since its mark and to take its grounding back.
-/
theorem retreat_eq {depth clause : Nat} (hc : plan.order[depth]? = some clause) (f : Frame)
    (mark : Nat) : retreat plan f depth mark = (f.undoTo mark).unground clause := by
  rw [retreat, hc]

/-- To attempt an atom at a depth is to unify it with the goal there and then to make the checks. -/
theorem attempt_eq {depth clause : Nat} {goal : Goal} (hc : plan.order[depth]? = some clause)
    (hgoal : plan.goalAt? depth = some goal) (f : Frame) (h : Handle) :
    attempt g plan f depth h =
      match g.unify plan.slots f goal h with
      | (true, f) => (plan.checksPass g (f.ground clause h) depth, f.ground clause h)
      | (false, f) => (false, f) := by
  rcases hu : g.unify plan.slots f goal h with ⟨_ | _, f'⟩
  · simp only [attempt, hc, hgoal, hu]
  · simp only [attempt, hc, hgoal, hu]

/-- **After an attempt** the retreat leads back to the frame from which it was made. -/
theorem retreat_attempt {depth clause : Nat} (hc : plan.order[depth]? = some clause) {f : Frame}
    (free : f.grounding? clause = none) (h : Handle) :
    retreat plan (attempt g plan f depth h).2 depth f.trail.length = f := by
  rw [retreat_eq hc]
  cases hgoal : plan.goalAt? depth with
  | none =>
    have same : (attempt g plan f depth h).2 = f := by
      rw [attempt, hc, hgoal]
    rw [same, Frame.undoTo_self, Frame.unground_self free]
  | some goal =>
    rw [attempt_eq hc hgoal]
    have binds := Graph.binds_unify (g := g) plan.slots goal f h
    rcases hu : g.unify plan.slots f goal h with ⟨_ | _, f₁⟩
    · rw [hu] at binds
      dsimp only
      rw [binds.undoTo, Frame.unground_self free]
    · rw [hu] at binds
      dsimp only
      rw [Frame.undoTo_ground, binds.undoTo, Frame.unground_ground free]

end Search

end TypedHypergraph
