/-
# Searching without checks

A pattern without its constraints (`Pattern.bare`) has the plan of the pattern without its checks
(`Graph.compile_bare`).  The frames that this plan reaches are those that are placed
(`Plan.reached_unchecked_iff`).

In graphs that are alike, an attempt to match an atom differs from the unchecked one only in that
the checks of the depth may turn it down (`Graph.Alike.attempt_eq`).
-/
import TypedHypergraph.Proofs.Alike
import TypedHypergraph.Proofs.Compiling
import TypedHypergraph.Proofs.Placing

namespace TypedHypergraph

variable {digest : Content → UInt64} {g m : Graph digest} {p : Pattern} {plan : Plan}

/-! ## Plans -/

namespace Plan

/-- The plan that searches the same clauses in the same order but checks nothing. -/
def unchecked (plan : Plan) : Plan :=
  { plan with checks := [], checksAt := schedule plan.goals plan.order [] }

@[simp] theorem order_unchecked (plan : Plan) : plan.unchecked.order = plan.order := rfl

@[simp] theorem rowOf_unchecked (plan : Plan) (f : Frame) :
    plan.unchecked.rowOf f = plan.rowOf f := rfl

@[simp] theorem retreat_unchecked (plan : Plan) (f : Frame) (depth mark : Nat) :
    Search.retreat plan.unchecked f depth mark = Search.retreat plan f depth mark := rfl

/-- A plan that is ready is ready without its checks. -/
theorem Ready.unchecked (ready : plan.Ready) : plan.unchecked.Ready where
  order := ready.order
  checksAt := rfl
  mentions := ready.mentions
  sources := by simp [Plan.unchecked]

/-- Without checks none fails. -/
theorem checksPass_unchecked (g : Graph digest) (f : Frame) (depth : Nat) :
    plan.unchecked.checksPass g f depth = true := by
  simp [checksPass, checksDue, unchecked]

/-- Without checks, a frame is reached as soon as it is placed. -/
theorem reached_unchecked_iff {f : Frame} {hs : List Handle} :
    Reached g plan.unchecked f hs ↔ Placed g plan f hs := by
  constructor
  · intro h
    exact ⟨h.bindings, h.groundings, h.grounding, h.holds, h.suits⟩
  · intro h
    exact {
      bindings := h.bindings
      groundings := h.groundings
      grounding := h.grounding
      holds := h.holds
      suits := h.suits
      checks := by simp [unchecked] }

end Plan

/-! ## Attempts -/

namespace Graph.Alike

open Search

/-- The candidates in graphs that are alike are the same, also for the plan without its checks. -/
theorem candidatesAt (h : Alike g m) (f : Frame) (depth : Nat) :
    candidatesAt m plan f depth = candidatesAt g plan.unchecked f depth := by
  unfold Search.candidatesAt
  cases hgoal : plan.goalAt? depth with
  | none =>
    have hgoal' : plan.unchecked.goalAt? depth = none := hgoal
    rw [hgoal']
  | some goal =>
    have hgoal' : plan.unchecked.goalAt? depth = some goal := hgoal
    rw [hgoal']
    exact h.candidates f goal

/-- **An attempt** leaves the frame that the unchecked one leaves, and succeeds if that one does and
the checks of the depth pass. -/
theorem attempt_eq (h : Alike g m) (f : Frame) (depth : Nat) (x : Handle) :
    let unchecked := attempt g plan.unchecked f depth x
    attempt m plan f depth x
      = (unchecked.1 && plan.checksPass m unchecked.2 depth, unchecked.2) := by
  intro unchecked
  cases hc : plan.order[depth]? with
  | none =>
    have hc' : plan.unchecked.order[depth]? = none := hc
    simp only [unchecked, attempt, hc, hc', Bool.false_and]
  | some clause =>
    have hc' : plan.unchecked.order[depth]? = some clause := hc
    cases hgoal : plan.goalAt? depth with
    | none =>
      have hgoal' : plan.unchecked.goalAt? depth = none := hgoal
      simp only [unchecked, attempt, hc, hc', hgoal, hgoal', Bool.false_and]
    | some goal =>
      have hgoal' : plan.unchecked.goalAt? depth = some goal := hgoal
      have same : m.unify plan.slots f goal x = g.unify plan.unchecked.slots f goal x :=
        h.unify goal f x
      simp only [unchecked]
      rw [Search.attempt_eq hc hgoal, Search.attempt_eq hc' hgoal', same]
      rcases g.unify plan.unchecked.slots f goal x with ⟨_ | _, f₁⟩
      · rfl
      · simp only [Plan.checksPass_unchecked, Bool.true_and]

end Graph.Alike

/-! ## Patterns -/

/-- The clauses of a pattern without its constraints. -/
def Pattern.bare (p : Pattern) : Pattern := ⟨p.clauses, []⟩

/-- **Without its constraints** a pattern that is accepted is accepted as well, and its plan is the
same but for the checks. -/
theorem Graph.compile_bare (accepted : g.compile p = .ok plan) :
    g.compile p.bare = .ok plan.unchecked := by
  unfold compile at accepted ⊢
  simp only [Guards.ite_throw_eq_ok, Guards.bind_eq_ok] at accepted ⊢
  obtain ⟨few, ⟨goals, slots⟩, hterms, checks, -, hplan⟩ := accepted
  refine ⟨few, ⟨goals, slots⟩, hterms, [], rfl, ?_⟩
  rcases goals with _ | _ | ⟨x, xs⟩
  · rw [← Guards.pure_eq_ok.mp hplan]
    rfl
  · rw [← Guards.pure_eq_ok.mp hplan]
    rfl
  · rw [← Guards.pure_eq_ok.mp hplan]
    rfl

/-- **A structural solution** keeps to the clauses, to the types of variables and to the constraints
that do not read truth values. -/
structure Pattern.StructuralSolution (g : Graph digest) (p : Pattern)
    (values : String → Option Handle) (groundings : List Handle) : Prop where
  bare : p.bare.Solution g values groundings
  constraints : ∀ c ∈ p.constraints, c.Structural → c.Holds g values groundings

end TypedHypergraph
