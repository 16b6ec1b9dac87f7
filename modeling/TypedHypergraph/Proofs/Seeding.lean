/-
# Nothing is lost by looking at candidates only

A frame is *assigned* at a depth of a search (`Plan.Assigned`) if exactly the slots of the clauses
before this depth are bound in it, to stored atoms that suit them.  The candidates for the clause of
the depth come from five places: they are the one atom that the clause asks for, the atom of a slot
that is bound, the atoms of the type of a slot that is free, the links over one of the members that
are known, or the links of a type.  From wherever they come, the clause accepts the same of them, in
the same order, as of all atoms of the graph (`Graph.Reachable.seedsAll`).
-/
import TypedHypergraph.Proofs.Compiling
import TypedHypergraph.Proofs.Candidates
import TypedHypergraph.Proofs.Run

namespace TypedHypergraph

variable {digest : Content → UInt64} {g : Graph digest} {p : Pattern} {plan : Plan} {f : Frame}

/-! ## What is accepted is stored -/

namespace Graph

variable {slots : List Slot} {goal : Goal} {h : Handle}

/-- Whether a goal can be unified with an atom. -/
def fits (g : Graph digest) (slots : List Slot) (f : Frame) (goal : Goal) (h : Handle) : Bool :=
  (g.unify slots f goal h).1

/-- A candidate that a goal accepts is stored, also if the supply of handles is used up. -/
theorem contains_of_fits (suits : ∀ i h, f.binding? i = some h → g.Suits slots i h)
    (hh : h ∈ g.candidates slots f goal) (fits : g.fits slots f goal h = true) :
    g.contains h := by
  apply contains_of_mem_candidates suits hh
  rintro i type rfl hb -
  rw [Graph.fits, unify] at fits
  cases hc : g.content? h with
  | none => simp [hb, hc] at fits
  | some c => exact contains_of_content? hc

/-- **An atom that a goal accepts** is among its candidates. -/
theorem mem_candidates_of_fits (hg : g.Covered) (ht : g.types.WellFormed)
    (declared : ∀ s ∈ slots, ∀ type, s.type = some type → g.types.contains type)
    (places : ∀ i, goal.Mentions i → i < f.bindings.size)
    (suits : ∀ i h, f.binding? i = some h → g.Suits slots i h) (stored : g.contains h)
    (fits : g.fits slots f goal h = true) : h ∈ g.candidates slots f goal := by
  -- the slots are bound afterwards so that the goal holds
  obtain ⟨holds, adds⟩ := unify_sound goal places (Prod.ext fits rfl)
  have binds := binds_unify (g := g) slots goal f h
  have suits' : ∀ i a, goal.Mentions i → (g.unify slots f goal h).2.binding? i = some a →
      g.Suits slots i a := by
    intro i a _ ha
    rcases adds i a ha with before | ⟨-, hs⟩
    · exact suits i a before
    · exact hs
  exact mem_candidates hg ht declared (fun i a ha => binds.mono ha) suits' holds stored

/-- **A goal accepts the same** of its candidates as of all atoms, in the same order. -/
theorem filter_candidates (hg : g.Covered) (ht : g.types.WellFormed)
    (declared : ∀ s ∈ slots, ∀ type, s.type = some type → g.types.contains type)
    (places : ∀ i, goal.Mentions i → i < f.bindings.size)
    (suits : ∀ i h, f.binding? i = some h → g.Suits slots i h) :
    (g.candidates slots f goal).filter (g.fits slots f goal)
      = g.handles.filter (g.fits slots f goal) := by
  apply ascending_ext ((ascending_candidates goal).filter _) (ascending_handles.filter _)
  intro h
  rw [List.mem_filter, List.mem_filter, mem_handles]
  constructor
  · rintro ⟨hh, fits⟩
    exact ⟨contains_of_fits suits hh fits, fits⟩
  · rintro ⟨stored, fits⟩
    exact ⟨mem_candidates_of_fits hg ht declared places suits stored fits, fits⟩

end Graph

/-! ## Frames of a depth -/

namespace Plan

/-- A slot occurs in a clause that is searched before a depth. -/
def Introduced (plan : Plan) (depth i : Nat) : Prop :=
  ∃ e < depth, ∃ goal, plan.goalAt? e = some goal ∧ goal.Mentions i

/-- Exactly the slots of the clauses before a depth are bound, to stored atoms that suit them. -/
structure Assigned (g : Graph digest) (plan : Plan) (depth : Nat) (f : Frame) : Prop where
  size : f.bindings.size = plan.slots.length
  bound_iff : ∀ i, (∃ h, f.binding? i = some h) ↔ plan.Introduced depth i
  suits : ∀ i h, f.binding? i = some h → g.Suits plan.slots i h

end Plan

/-- What the candidates for the clause of a depth are to the atoms of the graph. -/
structure Search.Seeded (g : Graph digest) (plan : Plan) (f : Frame) (depth : Nat) (goal : Goal) :
    Prop where
  ascending : (candidatesAt g plan f depth).Pairwise (· < ·)
  /-- Nothing but stored atoms is tried, given `Graph.HandlesLeft`. -/
  stored : g.HandlesLeft → ∀ h ∈ candidatesAt g plan f depth, g.contains h
  /-- No atom that the clause accepts is missing. -/
  complete : ∀ h, g.contains h → g.fits plan.slots f goal h = true → h ∈ candidatesAt g plan f depth
  /-- The clause accepts the same as of all atoms, in the same order. -/
  accepts : (candidatesAt g plan f depth).filter (g.fits plan.slots f goal)
    = g.handles.filter (g.fits plan.slots f goal)
  /-- So do the clause and the checks of the depth together. -/
  succeeds : (candidatesAt g plan f depth).filter (fun h => (attempt g plan f depth h).1)
    = g.handles.filter fun h => (attempt g plan f depth h).1

namespace Graph

open Search

/-- An attempt succeeds only with an atom that the clause accepts. -/
theorem fits_of_attempt {depth clause : Nat} {goal : Goal} {h : Handle}
    (hclause : plan.order[depth]? = some clause) (hgoal : plan.goalAt? depth = some goal)
    (ha : (attempt g plan f depth h).1 = true) : g.fits plan.slots f goal h = true := by
  rw [attempt_eq hclause hgoal] at ha
  rw [fits]
  rcases hu : g.unify plan.slots f goal h with ⟨_ | _, f'⟩
  · rw [hu] at ha
    cases ha
  · rfl

/-- To pick by a test that implies another one is to pick by that one first. -/
theorem filter_eq_filter_filter {α : Type} {test weaker : α → Bool} (xs : List α)
    (implies : ∀ x, test x = true → weaker x = true) :
    xs.filter test = (xs.filter weaker).filter test := by
  rw [List.filter_filter]
  apply List.filter_congr
  intro x _
  cases hx : test x with
  | false => rfl
  | true => rw [implies x hx, Bool.and_self]

/-- **No candidate is lost**: for a pattern that is accepted in a reachable graph, at every depth of
its plan and for all atoms of the slots that are bound there, trying the candidates is as good as
trying every atom. -/
theorem Reachable.seedsAll (hg : g.Reachable) (accepted : g.compile p = .ok plan) {depth : Nat}
    (hdepth : depth < plan.order.length) (assigned : plan.Assigned g depth f) :
    ∃ goal, plan.goalAt? depth = some goal ∧ Seeded g plan f depth goal := by
  have nonempty : plan.order ≠ [] := List.length_pos_iff.mp (Nat.zero_lt_of_lt hdepth)
  have hc := compiled_of_order_ne_nil hg.covered accepted nonempty
  have ht := hg.typesMakeSense.wellFormed
  have declared := hc.describes.declared_slots ht
  obtain ⟨clause, goal, hclause, hgoal, hat⟩ := hc.ready.exists_goalAt? hdepth
  have places : ∀ i, goal.Mentions i → i < f.bindings.size := by
    intro i hi
    rw [assigned.size]
    exact (hc.ready.mentions i).mpr ⟨goal, List.mem_of_getElem? hgoal, hi⟩
  have tried : candidatesAt g plan f depth = g.candidates plan.slots f goal := by
    rw [candidatesAt, hat]
  have accepts := filter_candidates hg.covered ht declared places assigned.suits
  refine ⟨goal, hat, ?_⟩
  constructor
  case ascending =>
    rw [tried]
    exact ascending_candidates goal
  case stored =>
    intro room h hh
    rw [tried] at hh
    exact (hg.coherent room).contains_of_mem_candidates assigned.suits hh
  case complete =>
    intro h stored fits
    rw [tried]
    exact mem_candidates_of_fits hg.covered ht declared places assigned.suits stored fits
  case accepts =>
    rw [tried]
    exact accepts
  case succeeds =>
    have implies : ∀ h, (attempt g plan f depth h).1 = true → g.fits plan.slots f goal h = true :=
      fun h => fits_of_attempt hclause hat
    rw [tried, filter_eq_filter_filter _ implies, accepts, ← filter_eq_filter_filter _ implies]

/-- A link over a link, with two members that are known: the candidates are the links over the one
that is in fewer links. -/
theorem seedsAll_of_nested_link :
    let g := (empty : Graph fun _ => 0).run
      [.declareType "Word" (some "Node"), .addNode "Word" "a", .addNode "Node" "b",
        .addLink "Link" [⟨0⟩, ⟨1⟩], .addLink "Link" [⟨1⟩, ⟨0⟩],
        .addLink "Link" [⟨0⟩, ⟨1⟩, ⟨2⟩], .addLink "Link" [⟨0⟩, ⟨1⟩, ⟨3⟩],
        .addLink "Link" [⟨1⟩, ⟨1⟩, ⟨3⟩]]
    let x := Term.var ⟨"x", some "Word"⟩
    let y := Term.var ⟨"y", none⟩
    let p : Pattern := ⟨[.link "Link" [x, .node "Node" "b", .link "Link" [y, x]], x], []⟩
    g.Reachable ∧ g.HandlesLeft ∧ ∃ plan, g.compile p = .ok plan ∧
      plan.order = [1, 0] ∧
      let f := (Frame.empty plan).bind 0 ⟨0⟩
      plan.Assigned g 1 f ∧ candidatesAt g plan f 1 = [⟨4⟩, ⟨5⟩] ∧
        ∃ goal, plan.goalAt? 1 = some goal ∧ Seeded g plan f 1 goal := by
  intro g x y p
  have reachable : g.Reachable := ⟨_, rfl⟩
  have room : g.HandlesLeft := by decide +kernel
  let plan : Plan := ((g.compile p).toOption).getD (.hopeless [])
  have accepted : g.compile p = .ok plan := rfl
  have order : plan.order = [1, 0] := by decide +kernel
  have first : plan.goalAt? 0 = some (.slot 0) := rfl
  -- behind the first clause `x` alone is bound, to the first word
  have bound : ∀ i, ((Frame.empty plan).bind 0 ⟨0⟩).binding? i
      = if 0 = i then some ⟨0⟩ else none := by
    intro i
    have within : 0 < (Frame.empty plan).bindings.size := by decide +kernel
    rw [Frame.binding?_bind, binding?_empty]
    simp [within]
  have assigned : plan.Assigned g 1 ((Frame.empty plan).bind 0 ⟨0⟩) := by
    constructor
    case size => rfl
    case bound_iff =>
      intro i
      rw [bound]
      constructor
      · intro h
        split at h
        · rename_i hi
          exact ⟨0, Nat.zero_lt_one, .slot 0, first, by rw [Goal.Mentions]; exact hi⟩
        · simp at h
      · rintro ⟨e, he, goal, hgoal, hi⟩
        rw [Nat.lt_one_iff.mp he, first, Option.some.injEq] at hgoal
        rw [← hgoal, Goal.Mentions] at hi
        exact ⟨⟨0⟩, if_pos hi⟩
    case suits =>
      intro i h hi
      rw [bound] at hi
      split at hi
      · rename_i heq
        cases hi
        cases heq
        exact ⟨.node ⟨4⟩ "a", by decide +kernel, by decide +kernel⟩
      · cases hi
  have tried : candidatesAt g plan ((Frame.empty plan).bind 0 ⟨0⟩) 1 = [⟨4⟩, ⟨5⟩] := by
    decide +kernel
  exact ⟨reachable, room, plan, accepted, order, assigned, tried,
    Reachable.seedsAll reachable accepted (by rw [order]; decide) assigned⟩

end Graph

end TypedHypergraph
