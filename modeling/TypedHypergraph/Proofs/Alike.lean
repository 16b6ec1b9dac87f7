/-
# Graphs that differ in truth values

Two graphs are *alike* (`Graph.Alike`) if nothing but the truth values of their atoms is different.
To revise, to overwrite and to clear truth values, accepted or refused, leads to a graph that is
alike (`Graph.alike_run`).

The search tries the same atoms for a goal in graphs that are alike (`Graph.Alike.candidates`), and
unifies it with an atom in the same way (`Graph.Alike.unify`).  What a constraint says may be
different, unless it is *structural* (`Constraint.Structural.holds_iff`).
-/
import TypedHypergraph.Proofs.Candidates
import TypedHypergraph.Proofs.Guards
import TypedHypergraph.Proofs.Solutions

namespace TypedHypergraph

variable {digest : Content → UInt64}

/-- A call of one of the operations that change nothing but truth values.  To clear a truth value is
to replace it by nothing. -/
inductive TruthUpdate
  | revise (h : Handle) (observation : Truth)
  | replace (h : Handle) (value : Option Truth)

/-- An update of a truth value as an action on the graph. -/
def TruthUpdate.action : TruthUpdate → Action
  | revise h observation => .revise h observation
  | replace h value => .replace h value

namespace Graph

variable {g m : Graph digest}

/-- Nothing but truth values is different. -/
structure Alike (g m : Graph digest) : Prop where
  types : m.types = g.types
  content? : ∀ h, m.content? h = g.content? h
  byType : m.byType = g.byType
  incidence : m.incidence = g.incidence

namespace Alike

theorem refl (g : Graph digest) : Alike g g := ⟨rfl, fun _ => rfl, rfl, rfl⟩

theorem symm (h : Alike g m) : Alike m g :=
  ⟨h.types.symm, fun x => (h.content? x).symm, h.byType.symm, h.incidence.symm⟩

theorem trans {k : Graph digest} (h : Alike g m) (h' : Alike m k) : Alike g k :=
  ⟨h'.types.trans h.types, fun x => (h'.content? x).trans (h.content? x),
    h'.byType.trans h.byType, h'.incidence.trans h.incidence⟩

/-- A graph is like the one in which an atom has another truth value. -/
theorem setTruth (g : Graph digest) (h : Handle) (value : Option Truth) :
    Alike g (g.setTruth h value) :=
  ⟨rfl, content?_setTruth h value, rfl, rfl⟩

/-! ## The search in graphs that are alike -/

section Search

variable {slots : List Slot}

/-- Graphs that are alike hold atoms under the same handles. -/
theorem contains (h : Alike g m) (x : Handle) : m.contains x = g.contains x := by
  rw [Bool.eq_iff_iff, contains_iff, contains_iff, h.content? x]

/-- Graphs that are alike list the same handles. -/
theorem handles (h : Alike g m) : m.handles = g.handles := by
  apply ascending_ext ascending_handles ascending_handles
  intro x
  rw [mem_handles, mem_handles, h.contains x]

/-- Graphs that are alike list the same atoms of a type. -/
theorem handlesOfType (h : Alike g m) (type : TypeId) (withSubtypes : Bool) :
    m.handlesOfType type withSubtypes = g.handlesOfType type withSubtypes := by
  unfold Graph.handlesOfType
  rw [h.byType, h.types]

/-- Graphs that are alike let a variable stand for atoms of the same types. -/
theorem allows (h : Alike g m) (i : Nat) (type : TypeId) :
    m.allows slots i type = g.allows slots i type := by
  unfold Graph.allows
  rw [h.types]

/-- **The same atoms** are tried for a goal. -/
theorem candidates (h : Alike g m) (f : Frame) (goal : Goal) :
    m.candidates slots f goal = g.candidates slots f goal := by
  have shape : m.hasShape = g.hasShape := by
    funext type arity x
    rw [hasShape, hasShape, h.content? x]
  unfold Graph.candidates
  simp only [h.contains, h.handles, h.handlesOfType, h.incidence, shape]

mutual

/-- **Unification** with an atom is the same. -/
theorem unify (h : Alike g m) : ∀ (goal : Goal) (f : Frame) (x : Handle),
    m.unify slots f goal x = g.unify slots f goal x
  | .ground expected, f, x => by rw [Graph.unify, Graph.unify]
  | .slot i, f, x => by
    rw [Graph.unify, Graph.unify]
    simp only [h.content?, h.allows]
  | .link type goals, f, x => by
    rw [Graph.unify, Graph.unify]
    simp only [h.content?, unifyAll h goals]

/-- Several goals unify with the same members in graphs that are alike, and to the same frame. -/
theorem unifyAll (h : Alike g m) : ∀ (goals : List Goal) (f : Frame) (hs : List Handle),
    m.unifyAll slots f goals hs = g.unifyAll slots f goals hs
  | [], f, hs => by rw [Graph.unifyAll, Graph.unifyAll] <;> simp
  | goal :: goals, f, [] => by rw [Graph.unifyAll, Graph.unifyAll] <;> simp
  | goal :: goals, f, x :: hs => by
    rw [Graph.unifyAll, Graph.unifyAll]
    simp only [unify h goal, unifyAll h goals]

end

end Search

end Alike

/-! ## Updates of truth values -/

/-- An update of a truth value leaves a graph that is like the one before. -/
theorem alike_apply (g : Graph digest) (u : TruthUpdate) : Alike g (g.apply u.action) := by
  cases u with
  | revise h observation =>
    rw [TruthUpdate.action, apply, after, revise_eq]
    by_cases hh : g.contains h
    · rw [if_pos hh]
      exact .setTruth g h _
    · rw [if_neg hh]
      exact .refl g
  | replace h value =>
    rw [TruthUpdate.action, apply, after, replace_eq]
    by_cases hh : g.contains h
    · rw [if_pos hh]
      exact .setTruth g h value
    · rw [if_neg hh]
      exact .refl g

/-- **Updates of truth values**, accepted or refused, change nothing else. -/
theorem alike_run (g : Graph digest) (updates : List TruthUpdate) :
    Alike g (g.run (updates.map (·.action))) := by
  induction updates generalizing g with
  | nil => exact .refl g
  | cons u updates ih => exact (alike_apply g u).trans (ih _)

end Graph

/-! ## Structural constraints -/

/-- An atom is seen with the same handle and content. -/
def SeenAtom.Alike (a b : SeenAtom) : Prop := a.handle = b.handle ∧ a.content = b.content

/-- A constraint that does not read truth values.  A predicate does not if truth values make no
difference to it. -/
def Constraint.Structural : Constraint → Prop
  | .condition (.truthAtLeast _ _ _) => False
  | .condition (.typeIs _ _ _) => True
  | .condition (.distinct _ _) => True
  | .predicate p => ∀ seen seen', List.Forall₂ SeenAtom.Alike seen seen' →
    p.test seen = p.test seen'

namespace Graph

variable {g m : Graph digest} {values : String → Option Handle} {groundings : List Handle}

/-- An atom that is seen in a graph is seen alike in another one. -/
theorem Alike.exists_seen? (h : Alike g m) {x : Handle} {a : SeenAtom}
    (ha : g.seen? x = some a) : ∃ b, m.seen? x = some b ∧ SeenAtom.Alike a b := by
  rw [seen?] at ha
  obtain ⟨c, hc, rfl⟩ := Option.map_eq_some_iff.mp ha
  rw [seen?, h.content? x, hc]
  exact ⟨_, rfl, rfl, rfl⟩

/-- The atoms that one graph shows for some targets are shown by a graph like it, up to their truth
values. -/
theorem Alike.exists_seen_all (h : Alike g m) {targets : List Target} {seen : List SeenAtom}
    (hseen : List.Forall₂ (fun target atom =>
      (target.atom? values groundings).bind g.seen? = some atom) targets seen) :
    ∃ seen', List.Forall₂ (fun target atom =>
      (target.atom? values groundings).bind m.seen? = some atom) targets seen' ∧
        List.Forall₂ SeenAtom.Alike seen seen' := by
  induction hseen with
  | nil => exact ⟨[], .nil, .nil⟩
  | cons hatom _ ih =>
    obtain ⟨more, hmore, halike⟩ := ih
    obtain ⟨x, hx, ha⟩ := Option.bind_eq_some_iff.mp hatom
    obtain ⟨b, hb, hab⟩ := h.exists_seen? ha
    refine ⟨b :: more, .cons ?_ hmore, .cons hab halike⟩
    rw [hx, Option.bind_some, hb]

end Graph

namespace Constraint.Structural

variable {g m : Graph digest} {values : String → Option Handle} {groundings : List Handle}

/-- A structural constraint that holds in a graph holds in every graph like it. -/
theorem holds_of_holds {c : Constraint} (structural : c.Structural) (h : g.Alike m)
    (hc : c.Holds g values groundings) : c.Holds m values groundings := by
  cases c with
  | condition condition =>
    cases condition with
    | truthAtLeast target minStrength minConfidence => exact structural.elim
    | typeIs target typeName withSubtypes =>
      rw [Holds, Condition.Holds] at hc ⊢
      rw [h.types]
      simp only [h.content?]
      exact hc
    | distinct a b => exact hc
  | predicate p =>
    obtain ⟨seen, hseen, htest⟩ := hc
    obtain ⟨seen', hseen', halike⟩ := h.exists_seen_all hseen
    refine ⟨seen', hseen', ?_⟩
    rw [← structural seen seen' halike]
    exact htest

/-- **A structural constraint** says the same in graphs that are alike. -/
theorem holds_iff {c : Constraint} (structural : c.Structural) (h : g.Alike m) :
    c.Holds m values groundings ↔ c.Holds g values groundings :=
  ⟨structural.holds_of_holds h.symm, structural.holds_of_holds h⟩

end Constraint.Structural

end TypedHypergraph
