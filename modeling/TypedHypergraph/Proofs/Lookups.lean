/-
# Look-ups that are in range

The search looks its slots and clauses up by number.  Here are its parts once more with look-ups
that are checked: one that is out of range gives nothing, and then nothing comes of the whole turn
(`Search.turn?`).

In a frame that *fits* a plan (`Frame.Fits`) no look-up is out of range, whatever graph is searched
and whatever atom is tried, so that the checked parts give what the parts give
(`Search.attempt?_eq`, `Search.retreat?_eq`).  All frames on the course of a search fit
(`Search.Course.fits`), and so each of its turns is the checked one (`Search.Course.turn?_eq`).
-/
import TypedHypergraph.Proofs.Course
import TypedHypergraph.Proofs.Tables

namespace TypedHypergraph

variable {digest : Content → UInt64} {g m : Graph digest} {p : Pattern} {plan : Plan}

/-! ## Checked look-ups -/

namespace Frame

/-- The atom at a place that there is. -/
def look? (f : Frame) : Source → Option (Option Handle)
  | .slot i => f.bindings[i]?
  | .clause c => f.groundings[c]?

/-- Unbind slots that there are, given as a trail, until a certain number is left. -/
def unwind? (bindings : Array (Option Handle)) (mark : Nat) :
    List Nat → Option (Array (Option Handle) × List Nat)
  | [] => some (bindings, [])
  | i :: rest =>
    if mark < rest.length + 1 then do
      let bindings ← put? bindings i none
      unwind? bindings mark rest
    else some (bindings, i :: rest)

/-- Undo the bindings since a mark, where each slot on the trail has to be one that there is. -/
def undoTo? (f : Frame) (mark : Nat) : Option Frame := do
  let (bindings, trail) ← unwind? f.bindings mark f.trail
  return { f with bindings, trail }

end Frame

namespace Graph

mutual

/-- Unify a goal with an atom, where each slot has to be one that there is. -/
def unify? (g : Graph digest) (slots : List Slot) (f : Frame) :
    Goal → Handle → Option (Bool × Frame)
  | .ground expected, h => some (decide (expected = h), f)
  | .slot i, h => do
    match ← f.bindings[i]? with
    | some bound => return (decide (bound = h), f)
    | none =>
      match g.content? h with
      | some c => do
        let slot ← slots[i]?
        if slot.type.all (g.types.isA c.type ·) then do
          let bindings ← put? f.bindings i (some h)
          return (true, { f with bindings, trail := i :: f.trail })
        else return (false, f)
      | none => return (false, f)
  | .link type goals, h =>
    match g.content? h with
    | some (.link found members) =>
      if found = type ∧ members.length = goals.length then g.unifyAll? slots f goals members
      else some (false, f)
    | _ => some (false, f)

/-- Unify several goals with the members of a link, one after the other, until one does not unify.
-/
def unifyAll? (g : Graph digest) (slots : List Slot) (f : Frame) :
    List Goal → List Handle → Option (Bool × Frame)
  | goal :: goals, h :: hs => do
    match ← g.unify? slots f goal h with
    | (true, f) => g.unifyAll? slots f goals hs
    | (false, f) => return (false, f)
  | _, _ => some (true, f)

end

/-- The atom that a member of a goal is known to stand for. -/
def known? (f : Frame) : Goal → Option (Option Handle)
  | .ground h => some (some h)
  | .slot i => f.bindings[i]?
  | .link _ _ => some none

/-- The atoms that are tried for a goal, where each slot has to be one that there is. -/
def candidates? (g : Graph digest) (slots : List Slot) (f : Frame) : Goal → Option (List Handle)
  | .ground h => some (if g.contains h then [h] else [])
  | .slot i => do
    match ← f.bindings[i]? with
    | some h => return [h]
    | none =>
      match (← slots[i]?).type with
      | some type => return g.handlesOfType type true
      | none => return g.handles
  | .link type members => do
    let known ← members.mapM (known? f)
    match (known.filterMap id).mapM g.incidence.get? with
    | none => return []
    | some links =>
      return ((fewest links).getD (g.handlesOfType type false)).filter
        (g.hasShape type members.length)

end Graph

/-- Whether a check passes, where each place that it looks at has to be one that there is. -/
def Check.passes? (g : Graph digest) (f : Frame) : Check → Option Bool
  | .truthAtLeast source minStrength minConfidence => do
    match (← f.look? source).bind g.truth? with
    | some value => return value.meets minStrength minConfidence
    | none => return false
  | .typeIs source type withSubtypes => do
    match (← f.look? source).bind g.content? with
    | some c => return decide (c.type = type) || (withSubtypes && g.types.isA c.type type)
    | none => return false
  | .distinct a b => do return decide ((← f.bindings[a]?) ≠ (← f.bindings[b]?))
  | .predicate sources test => do
    let atoms ← sources.mapM f.look?
    match atoms.mapM (·.bind g.seen?) with
    | some seen => return test seen
    | none => return false

/-- Whether the checks that are due at a depth all pass. -/
def Plan.checksPass? (plan : Plan) (g : Graph digest) (f : Frame) (depth : Nat) : Option Bool := do
  let passed ← (plan.checksDue depth).mapM (·.passes? g f)
  return passed.all id

namespace Search

/-- The atoms that are tried at a depth, which has to be one that there is. -/
def candidatesAt? (g : Graph digest) (plan : Plan) (f : Frame) (depth : Nat) :
    Option (List Handle) := do
  let clause ← plan.order[depth]?
  let goal ← plan.goals[clause]?
  g.candidates? plan.slots f goal

/-- The search at its start, where the first depth has to be one that there is. -/
def start? (g : Graph digest) (plan : Plan) (caps : Caps) : Option (Search plan) :=
  let frame := Frame.empty plan
  if plan.isEmpty then some ⟨caps, frame, [], true, false, 0, 0⟩
  else do
    let first ← candidatesAt? g plan frame 0
    return ⟨caps, frame, [⟨first, 0⟩], false, false, 0, 0⟩

/-- Go back to a depth, where the slots and the clause have to be ones that there are. -/
def retreat? (plan : Plan) (f : Frame) (depth mark : Nat) : Option Frame := do
  let f ← f.undoTo? mark
  let clause ← plan.order[depth]?
  let groundings ← put? f.groundings clause none
  return { f with groundings }

/-- Try an atom at a depth, where the clause and all slots have to be ones that there are. -/
def attempt? (g : Graph digest) (plan : Plan) (f : Frame) (depth : Nat) (h : Handle) :
    Option (Bool × Frame) := do
  let clause ← plan.order[depth]?
  let goal ← plan.goals[clause]?
  match ← g.unify? plan.slots f goal h with
  | (true, f) => do
    let groundings ← put? f.groundings clause (some h)
    let f := { f with groundings }
    return (← plan.checksPass? g f depth, f)
  | (false, f) => return (false, f)

/-- One turn of a search, or nothing if one of its look-ups is out of range. -/
def turn? (g : Graph digest) (s : Search plan) : Option (Turn plan) :=
  match s.stack with
  | [] => some (.over { s with done := true })
  | ⟨remaining, mark⟩ :: below => do
    let depth := below.length
    let frame ← retreat? plan s.frame depth mark
    match remaining with
    | [] =>
      if below.isEmpty then return .over { s with frame, stack := below, done := true }
      else return .onward { s with frame, stack := below }
    | h :: rest =>
      let s : Search plan :=
        { s with frame, stack := ⟨rest, mark⟩ :: below, steps := s.steps + 1 }
      if beyond s.caps.steps s.steps then return .over { s with done := true, exhausted := true }
      else
        match ← attempt? g plan frame depth h with
        | (false, frame) => return .onward { s with frame }
        | (true, frame) =>
          if plan.order.length ≤ depth + 1 then
            return .row (plan.rowOf frame) { s with frame, found := s.found + 1 }
          else do
            let next : ChoicePoint :=
              ⟨← candidatesAt? g plan frame (depth + 1), frame.trail.length⟩
            return .onward { s with frame, stack := next :: s.stack }

end Search

/-! ## Frames that fit -/

/-- A frame has a place for each slot of a plan and for each of its clauses, and on its trail are
slots that there are. -/
structure Frame.Fits (plan : Plan) (f : Frame) : Prop where
  bindings : f.bindings.size = plan.slots.length
  groundings : f.groundings.size = plan.goals.length
  trail : ∀ i ∈ f.trail, i < plan.slots.length

namespace Frame

variable {f : Frame}

/-- The empty frame fits. -/
theorem fits_empty (plan : Plan) : (Frame.empty plan).Fits plan where
  bindings := Array.size_replicate
  groundings := Array.size_replicate
  trail := by simp [Frame.empty]

namespace Fits

/-- A frame that fits has a place for each slot of the plan. -/
theorem getElem?_bindings (fits : f.Fits plan) {i : Nat} (hi : i < plan.slots.length) :
    f.bindings[i]? = some (f.binding? i) := by
  have hlt : i < f.bindings.size := by rwa [fits.bindings]
  rw [binding?, Array.getElem?_eq_getElem hlt]
  rfl

/-- A frame that fits has a place for each clause of the plan. -/
theorem getElem?_groundings (fits : f.Fits plan) {c : Nat} (hc : c < plan.goals.length) :
    f.groundings[c]? = some (f.grounding? c) := by
  have hlt : c < f.groundings.size := by rwa [fits.groundings]
  rw [grounding?, Array.getElem?_eq_getElem hlt]
  rfl

/-- A place that there is in the plan is one of the frame. -/
theorem look?_eq (fits : f.Fits plan) {source : Source} (known : plan.Knows source) :
    f.look? source = some (f.find? source) := by
  cases source with
  | slot i => exact fits.getElem?_bindings known
  | clause c => exact fits.getElem?_groundings known

/-- A frame fits still when a slot of the plan is bound. -/
theorem bind (fits : f.Fits plan) {i : Nat} (hi : i < plan.slots.length) (h : Handle) :
    (f.bind i h).Fits plan where
  bindings := by
    rw [← fits.bindings]
    exact Array.size_setIfInBounds ..
  groundings := fits.groundings
  trail := by
    intro j hj
    rcases List.mem_cons.mp hj with rfl | hj
    · exact hi
    · exact fits.trail j hj

/-- A frame fits still when a grounding is set. -/
theorem setGrounding (fits : f.Fits plan) (c : Nat) (x : Option Handle) :
    Fits plan { f with groundings := f.groundings.setIfInBounds c x } where
  bindings := fits.bindings
  groundings := by
    rw [← fits.groundings]
    exact Array.size_setIfInBounds ..
  trail := fits.trail

/-- **To undo** a trail of slots that there are is to look none up out of range. -/
theorem undoTo?_eq (fits : f.Fits plan) (mark : Nat) :
    f.undoTo? mark = some (f.undoTo mark) ∧ (f.undoTo mark).Fits plan := by
  have unwinds : ∀ (trail : List Nat) (bindings : Array (Option Handle)),
      bindings.size = plan.slots.length → (∀ i ∈ trail, i < plan.slots.length) →
        unwind? bindings mark trail = some (unwind bindings mark trail) ∧
          (unwind bindings mark trail).1.size = plan.slots.length ∧
          ∀ i ∈ (unwind bindings mark trail).2, i < plan.slots.length := by
    intro trail
    induction trail with
    | nil =>
      intro bindings size within
      exact ⟨rfl, size, within⟩
    | cons i rest ih =>
      intro bindings size within
      rw [unwind?, unwind]
      by_cases hmark : mark < rest.length + 1
      · rw [List.forall_mem_cons] at within
        rw [if_pos hmark, if_pos hmark, put?_eq (by rw [size]; exact within.1)]
        apply ih _ _ within.2
        rw [Array.size_setIfInBounds, size]
      · rw [if_neg hmark, if_neg hmark]
        exact ⟨rfl, size, within⟩
  obtain ⟨same, size, within⟩ := unwinds f.trail f.bindings fits.bindings fits.trail
  constructor
  · rw [undoTo?, same]
    rfl
  · exact ⟨size, fits.groundings, within⟩

end Fits

end Frame

/-! ## Unification and candidates -/

namespace Graph

mutual

/-- **To unify** a goal whose slots there are is to look none up out of range. -/
theorem unify?_eq : ∀ (goal : Goal) {f : Frame} (h : Handle), f.Fits plan →
    (∀ i, goal.Mentions i → i < plan.slots.length) →
      g.unify? plan.slots f goal h = some (g.unify plan.slots f goal h) ∧
        (g.unify plan.slots f goal h).2.Fits plan
  | .ground expected, f, h, fits, _ => by
    rw [unify?, unify]
    exact ⟨rfl, fits⟩
  | .slot i, f, h, fits, within => by
    have hi : i < plan.slots.length := within i (by rw [Goal.Mentions])
    have hput : i < f.bindings.size := by rwa [fits.bindings]
    rw [unify?, unify, fits.getElem?_bindings hi]
    cases f.binding? i with
    | some bound => exact ⟨rfl, fits⟩
    | none =>
      cases g.content? h with
      | none => exact ⟨rfl, fits⟩
      | some c =>
        have hslot := List.getElem?_eq_getElem hi
        have allowed : g.allows plan.slots i c.type
            = plan.slots[i].type.all (g.types.isA c.type ·) := by
          rw [allows, hslot, Option.bind_some]
          cases plan.slots[i].type <;> rfl
        dsimp only [Option.bind_eq_bind, Option.bind_some]
        rw [hslot, Option.bind_some, put?_eq hput, allowed]
        by_cases hall : plan.slots[i].type.all (g.types.isA c.type ·) = true
        · rw [if_pos hall, if_pos hall]
          exact ⟨rfl, fits.bind hi h⟩
        · rw [if_neg hall, if_neg hall]
          exact ⟨rfl, fits⟩
  | .link type goals, f, h, fits, within => by
    rw [unify?, unify]
    rcases g.content? h with _ | (_ | ⟨found, members⟩)
    · exact ⟨rfl, fits⟩
    · exact ⟨rfl, fits⟩
    · dsimp only
      by_cases hshape : found = type ∧ members.length = goals.length
      · rw [if_pos hshape, if_pos hshape]
        exact unifyAll?_eq goals members fits fun i hi => within i (by rw [Goal.Mentions]; exact hi)
      · rw [if_neg hshape, if_neg hshape]
        exact ⟨rfl, fits⟩

/-- **Unifying several goals** that mention only slots of the plan looks nothing up in vain. -/
theorem unifyAll?_eq : ∀ (goals : List Goal) {f : Frame} (hs : List Handle), f.Fits plan →
    (∀ i, Goal.MentionedIn i goals → i < plan.slots.length) →
      g.unifyAll? plan.slots f goals hs = some (g.unifyAll plan.slots f goals hs) ∧
        (g.unifyAll plan.slots f goals hs).2.Fits plan
  | [], f, hs, fits, _ => by
    rw [unifyAll?, unifyAll]
    · exact ⟨rfl, fits⟩
    · simp
    · simp
  | goal :: goals, f, [], fits, _ => by
    rw [unifyAll?, unifyAll]
    · exact ⟨rfl, fits⟩
    · simp
    · simp
  | goal :: goals, f, h :: hs, fits, within => by
    simp only [Goal.MentionedIn] at within
    obtain ⟨same, fits'⟩ := unify?_eq goal h fits fun i hi => within i (.inl hi)
    rw [unifyAll?, unifyAll, same]
    rcases hu : g.unify plan.slots f goal h with ⟨_ | _, f₁⟩
    · rw [hu] at fits'
      exact ⟨rfl, fits'⟩
    · rw [hu] at fits'
      exact unifyAll?_eq goals hs fits' fun i hi => within i (.inr hi)

end

variable {f : Frame}

/-- **To list the candidates** of a goal whose slots there are is to look none up out of range. -/
theorem candidates?_eq (fits : f.Fits plan) {goal : Goal}
    (within : ∀ i, goal.Mentions i → i < plan.slots.length) :
    g.candidates? plan.slots f goal = some (g.candidates plan.slots f goal) := by
  cases goal with
  | ground h => rw [candidates?, candidates]
  | slot i =>
    have hi : i < plan.slots.length := within i (by rw [Goal.Mentions])
    rw [candidates?, candidates, fits.getElem?_bindings hi]
    cases f.binding? i with
    | some bound => rfl
    | none =>
      rw [List.getElem?_eq_getElem hi]
      dsimp only [Option.bind_eq_bind, Option.bind_some]
      cases plan.slots[i].type <;> rfl
  | link type members =>
    have known : ∀ goal ∈ members, known? f goal = some (Goal.known? f goal) := by
      intro goal hgoal
      cases goal with
      | ground h => rfl
      | slot i =>
        apply fits.getElem?_bindings
        apply within
        rw [Goal.Mentions, Goal.mentionedIn_iff]
        exact ⟨_, hgoal, by rw [Goal.Mentions]⟩
      | link type members => rfl
    rw [candidates?, candidates, mapM_some known]
    dsimp only [Option.bind_eq_bind, Option.bind_some]
    rw [List.filterMap_map, Function.id_comp]
    cases (members.filterMap (Goal.known? f)).mapM g.incidence.get? <;> rfl

end Graph

/-! ## Checks -/

variable {f : Frame}

/-- **To make a check** whose sources there are is to look none up out of range. -/
theorem Check.passes?_eq (fits : f.Fits plan) {check : Check}
    (known : ∀ source ∈ check.sources, plan.Knows source) :
    check.passes? g f = some (check.passes g f) := by
  cases check with
  | truthAtLeast source minStrength minConfidence =>
    rw [passes?, passes, fits.look?_eq (known source (by simp [sources]))]
    dsimp only [Option.bind_eq_bind, Option.bind_some]
    cases (f.find? source).bind g.truth? <;> rfl
  | typeIs source type withSubtypes =>
    rw [passes?, passes, fits.look?_eq (known source (by simp [sources]))]
    dsimp only [Option.bind_eq_bind, Option.bind_some]
    cases (f.find? source).bind g.content? <;> rfl
  | distinct a b =>
    rw [passes?, passes, fits.getElem?_bindings (known (.slot a) (by simp [sources])),
      fits.getElem?_bindings (known (.slot b) (by simp [sources]))]
    rfl
  | predicate targets test =>
    have found : targets.mapM f.look? = some (targets.map f.find?) :=
      mapM_some fun source hs => fits.look?_eq (known source hs)
    rw [passes?, passes, found]
    dsimp only [Option.bind_eq_bind, Option.bind_some]
    rw [List.mapM_map]
    show _ = some (match targets.mapM ((·.bind g.seen?) ∘ f.find?) with
      | some atoms => test atoms
      | none => false)
    cases targets.mapM ((·.bind g.seen?) ∘ f.find?) <;> rfl

/-- The numbers in a plan are those of slots, clauses and checks that there are. -/
structure Plan.Bounded (plan : Plan) : Prop where
  slots : ∀ goal ∈ plan.goals, ∀ i, goal.Mentions i → i < plan.slots.length
  order : ∀ c ∈ plan.order, c < plan.goals.length
  sources : ∀ check ∈ plan.checks, ∀ source ∈ check.sources, plan.Knows source

/-- The numbers in a plan that is ready are bounded. -/
theorem Plan.Ready.bounded (ready : plan.Ready) : plan.Bounded where
  slots goal hgoal i hi := (ready.mentions i).mpr ⟨goal, hgoal, hi⟩
  order _ hc := ready.mem_order.mp hc
  sources := ready.sources

/-- The numbers in a plan without hope are bounded, since there are none. -/
theorem Plan.bounded_hopeless (slots : List Slot) : (Plan.hopeless slots).Bounded where
  slots := by simp [Plan.hopeless]
  order := by simp [Plan.hopeless]
  sources := by simp [Plan.hopeless]

namespace Plan.Bounded

/-- **The checks due at a depth** look nothing up in vain. -/
theorem checksPass?_eq (bounded : plan.Bounded) (fits : f.Fits plan) (depth : Nat) :
    plan.checksPass? g f depth = some (plan.checksPass g f depth) := by
  have each : ∀ check ∈ plan.checksDue depth, check.passes? g f = some (check.passes g f) := by
    intro check hdue
    obtain ⟨i, -, hcheck⟩ := List.mem_filterMap.mp hdue
    exact Check.passes?_eq fits (bounded.sources check (List.mem_of_getElem? hcheck))
  rw [checksPass?, mapM_some each]
  dsimp only [Option.bind_eq_bind, Option.bind_some]
  rw [List.all_map]
  rfl

/-- At each depth there is a clause, and it has a goal whose slots there are. -/
theorem exists_goal (bounded : plan.Bounded) {depth : Nat} (hdepth : depth < plan.order.length) :
    ∃ clause goal, plan.order[depth]? = some clause ∧ clause < plan.goals.length ∧
      plan.goals[clause]? = some goal ∧ plan.goalAt? depth = some goal ∧
        ∀ i, goal.Mentions i → i < plan.slots.length := by
  have hclause := List.getElem?_eq_getElem hdepth
  have hlt := bounded.order _ (List.getElem_mem hdepth)
  have hgoal := List.getElem?_eq_getElem hlt
  refine ⟨_, _, hclause, hlt, hgoal, ?_, bounded.slots _ (List.getElem_mem hlt)⟩
  rw [goalAt?, hclause, Option.bind_some, hgoal]

end Plan.Bounded

/-! ## Turns -/

namespace Search

/-- **The candidates at a depth** of the plan are found without looking anything up in vain. -/
theorem candidatesAt?_eq (bounded : plan.Bounded) (fits : f.Fits plan) {depth : Nat}
    (hdepth : depth < plan.order.length) :
    candidatesAt? g plan f depth = some (candidatesAt g plan f depth) := by
  obtain ⟨clause, goal, hclause, -, hgoal, hat, within⟩ := bounded.exists_goal hdepth
  rw [candidatesAt?, candidatesAt, hclause, hat]
  dsimp only [Option.bind_eq_bind, Option.bind_some]
  rw [hgoal]
  exact Graph.candidates?_eq fits within

/-- **The start of a search** looks nothing up in vain. -/
theorem start?_eq (bounded : plan.Bounded) (g : Graph digest) (caps : Caps) :
    start? g plan caps = some (start g plan caps) := by
  unfold start? start
  cases hempty : plan.isEmpty with
  | true => rfl
  | false =>
    have first := candidatesAt?_eq (g := g) bounded (Frame.fits_empty plan)
      (isEmpty_eq_false.mp hempty)
    dsimp only
    rw [first]
    rfl

/-- **To go back** from a frame that fits is to look nothing up out of range. -/
theorem retreat?_eq (bounded : plan.Bounded) (fits : f.Fits plan) {depth : Nat}
    (hdepth : depth < plan.order.length) (mark : Nat) :
    retreat? plan f depth mark = some (retreat plan f depth mark) := by
  obtain ⟨clause, -, hclause, hlt, -⟩ := bounded.exists_goal hdepth
  obtain ⟨undone, fits'⟩ := fits.undoTo?_eq mark
  rw [retreat?, retreat_eq hclause, undone]
  dsimp only [Option.bind_eq_bind, Option.bind_some]
  rw [hclause, Option.bind_some, put?_eq (by rwa [fits'.groundings])]
  rfl

/-- A frame fits still when the search goes back to a depth. -/
theorem fits_retreat (fits : f.Fits plan) (depth mark : Nat) :
    (retreat plan f depth mark).Fits plan := by
  obtain ⟨-, fits'⟩ := fits.undoTo?_eq mark
  unfold retreat
  cases plan.order[depth]? with
  | none => exact fits'
  | some clause => exact fits'.setGrounding clause none

/-- **To try an atom** from a frame that fits is to look nothing up out of range. -/
theorem attempt?_eq (bounded : plan.Bounded) (fits : f.Fits plan) {depth : Nat}
    (hdepth : depth < plan.order.length) (h : Handle) :
    attempt? g plan f depth h = some (attempt g plan f depth h) := by
  obtain ⟨clause, goal, hclause, hlt, hgoal, hat, within⟩ := bounded.exists_goal hdepth
  obtain ⟨same, fits'⟩ := Graph.unify?_eq (g := g) goal h fits within
  rw [attempt?, attempt_eq hclause hat, hclause]
  dsimp only [Option.bind_eq_bind, Option.bind_some]
  rw [hgoal, Option.bind_some, same, Option.bind_some]
  rcases hu : g.unify plan.slots f goal h with ⟨_ | _, f₁⟩
  · rfl
  · rw [hu] at fits'
    have passes := bounded.checksPass?_eq (g := g) (fits'.setGrounding clause (some h)) depth
    dsimp only
    rw [put?_eq (by rwa [fits'.groundings]), Option.bind_some, passes]
    rfl

/-- A frame fits still when an atom was tried. -/
theorem fits_attempt (bounded : plan.Bounded) (fits : f.Fits plan) (depth : Nat) (h : Handle) :
    (attempt g plan f depth h).2.Fits plan := by
  by_cases hdepth : depth < plan.order.length
  · obtain ⟨clause, goal, hclause, -, -, hat, within⟩ := bounded.exists_goal hdepth
    obtain ⟨-, fits'⟩ := Graph.unify?_eq (g := g) goal h fits within
    rw [attempt_eq hclause hat]
    rcases hu : g.unify plan.slots f goal h with ⟨_ | _, f₁⟩
    · rw [hu] at fits'
      exact fits'
    · rw [hu] at fits'
      exact fits'.setGrounding clause (some h)
  · rw [attempt, List.getElem?_eq_none (Nat.le_of_not_lt hdepth)]
    exact fits

/-- **A turn** looks nothing up out of range if the frame fits and the stack is not too deep. -/
theorem turn?_eq (bounded : plan.Bounded) {s : Search plan} (fits : s.frame.Fits plan)
    (depth : s.stack.length ≤ plan.order.length) : s.turn? g = some (s.turn g) := by
  rcases hs : s.stack with _ | ⟨⟨remaining, mark⟩, below⟩
  · rw [turn?, turn, hs]
  · have hdepth : below.length < plan.order.length := by
      rw [hs] at depth
      exact depth
    have fits' := fits_retreat fits below.length mark
    rw [turn?, turn, hs]
    dsimp only
    rw [retreat?_eq bounded fits hdepth mark]
    dsimp only [Option.bind_eq_bind, Option.bind_some]
    cases remaining with
    | nil => cases below <;> rfl
    | cons h rest =>
      dsimp only
      split
      · rfl
      · rw [attempt?_eq bounded fits' hdepth h, Option.bind_some]
        have fits'' := fits_attempt (g := g) bounded fits' below.length h
        rcases ha : attempt g plan (retreat plan s.frame below.length mark) below.length h with
          ⟨_ | _, f₁⟩
        · rfl
        · rw [ha] at fits''
          dsimp only
          split
          · rfl
          · rename_i room
            rw [candidatesAt?_eq bounded fits'' (Nat.lt_of_not_le room)]
            rfl

variable {past : List (Graph digest)} {caps : Caps} {s : Search plan}

/-- **All frames** on the course of a search fit. -/
theorem Course.fits (bounded : plan.Bounded) (course : Course g plan caps past s) :
    s.frame.Fits plan :=
  course.frame (Frame.fits_empty plan) (fun _ depth mark fits => fits_retreat fits depth mark)
    fun _ _ depth h fits => fits_attempt bounded fits depth h

end Search

/-! ## Plans of patterns -/

/-- **No look-up is out of range**, neither when a plan is made nor on the course of its
searches. -/
structure InRange (g : Graph digest) (plan : Plan) : Prop where
  /-- The slots and the clauses that are told by number are there. -/
  bounded : plan.Bounded
  clauseOrder : Plan.clauseOrder? g plan.slots plan.goals = some plan.order
  schedule : Plan.schedule? plan.slots plan.goals plan.order plan.checks = some plan.checksAt
  start : ∀ caps, Search.start? g plan caps = some (Search.start g plan caps)
  /-- No level is deeper than the order of the clauses, -/
  length_stack_le : ∀ caps past (s : Search plan), Search.Course g plan caps past s →
    s.stack.length ≤ plan.order.length
  /-- and each turn is the one in which all look-ups are checked. -/
  turn : ∀ caps m past (s : Search plan), Search.Course g plan caps (m :: past) s →
    s.turn? m = some (s.turn m)

namespace Graph

open Search

/-- A plan of a pattern is bounded, also if it has nothing to search. -/
theorem bounded_of_compile (hg : g.Covered) (accepted : g.compile p = .ok plan) :
    plan.Bounded := by
  obtain ⟨goals, slots, checks, -, -, hplan⟩ := compile_parts accepted
  rcases hplan with ⟨-, rfl⟩ | ⟨xs, hne, -, rfl⟩
  · exact Plan.bounded_hopeless slots
  · have nonempty : Plan.clauseOrder g slots xs ≠ [] := by
      rw [← List.length_pos_iff, (Plan.perm_clauseOrder g slots xs).length_eq, List.length_range,
        List.length_pos_iff]
      exact hne
    exact (compiled_of_order_ne_nil hg accepted nonempty).ready.bounded

/-- **No look-up is out of range** for a pattern that is accepted in a reachable graph, nor at any
point of its searches. -/
theorem Reachable.inRange (hg : g.Reachable) (accepted : g.compile p = .ok plan) :
    InRange g plan := by
  have ready := ready_of_compile hg.covered accepted
  have parts : plan.Bounded ∧ Plan.clauseOrder? g plan.slots plan.goals = some plan.order ∧
      Plan.schedule? plan.slots plan.goals plan.order plan.checks = some plan.checksAt := by
    obtain ⟨goals, slots, checks, -, -, hplan⟩ := compile_parts accepted
    rcases hplan with ⟨-, rfl⟩ | ⟨xs, hne, -, rfl⟩
    · exact ⟨Plan.bounded_hopeless slots, rfl, rfl⟩
    · have nonempty : Plan.clauseOrder g slots xs ≠ [] := by
        rw [← List.length_pos_iff, (Plan.perm_clauseOrder g slots xs).length_eq, List.length_range,
          List.length_pos_iff]
        exact hne
      have ready := ready (List.isEmpty_eq_false_iff.mpr nonempty)
      have bounded := ready.bounded
      refine ⟨bounded, Plan.clauseOrder?_eq bounded.slots, ?_⟩
      exact Plan.schedule?_eq bounded.slots bounded.order ready.nodup
        (fun check hcheck i hi => bounded.sources check hcheck _ hi)
        (fun check hcheck c hc => bounded.sources check hcheck _ hc) fun _ => nonempty
  obtain ⟨bounded, order, schedule⟩ := parts
  constructor
  case bounded => exact bounded
  case clauseOrder => exact order
  case schedule => exact schedule
  case start => exact start?_eq bounded g
  case length_stack_le =>
    intro caps past s course
    exact (course.steady ready).length_stack_le
  case turn =>
    intro caps m past s course
    exact turn?_eq bounded (course.fits bounded) (course.steady ready).length_stack_le

/-- A clause with a nested link, a clause that is an atom, and constraints of a clause and of a
variable that only the nested link has. -/
theorem inRange_of_nested_link :
    let g := (empty : Graph fun _ => 0).run
      [.addNode "Node" "a", .addNode "Node" "b", .addLink "Link" [⟨0⟩, ⟨1⟩],
        .addLink "Link" [⟨2⟩, ⟨0⟩]]
    let x := Term.var ⟨"x", some "Node"⟩
    let y := Term.var ⟨"y", none⟩
    let p : Pattern := ⟨[.link "Link" [.link "Link" [x, y], x], .stored ⟨1⟩],
      [.condition (.distinct "x" "y"), .predicate ⟨[.clause 1, .var "y"], fun _ => true⟩]⟩
    g.Reachable ∧ ∃ plan, g.compile p = .ok plan ∧ plan.isEmpty = false ∧ InRange g plan := by
  intro g x y p
  have reachable : g.Reachable := ⟨_, rfl⟩
  let plan : Plan := ((g.compile p).toOption).getD (.hopeless [])
  have accepted : g.compile p = .ok plan := rfl
  have nonempty : plan.isEmpty = false := by decide +kernel
  exact ⟨reachable, plan, accepted, nonempty, Reachable.inRange reachable accepted⟩

end Graph

end TypedHypergraph
