/-
# When checks are made

Each check of a plan is made at one depth: the first one by which all that its constraint looks at
has been met, that is, every clause has been searched and every variable occurs in a clause that has
been (`Target.MetBy`, `Scheduled`).  So a check that is made on the course of a search finds the
atoms of all its sources, and they are stored (`Search.Examines`), and behind each row are checks
that have all passed.

The places of a schedule are those of the clauses of the pattern, which are made ready one by one
(`Goal.Spells`).
-/
import TypedHypergraph.Proofs.Course
import TypedHypergraph.Proofs.Faults

namespace TypedHypergraph

variable {digest : Content → UInt64} {g : Graph digest} {p : Pattern} {plan : Plan}

/-! ## Clause by clause -/

/-- A goal says of slots what a term says of names, and mentions the slots of its variables. -/
structure Goal.Spells (g : Graph digest) (slots : List Slot) (term : Term) (goal : Goal) :
    Prop where
  denotes_iff : ∀ values h, term.Denotes g (valueOf slots values) h ↔ goal.Holds g values h
  mentions_iff : ∀ i, goal.Mentions i ↔ ∃ v ∈ term.occurrences, slotOf? slots v.name = some i

/-- **Each term** is spelled by the goal in its place. -/
theorem Graph.forall₂_spells (hg : g.Covered) {later : List Slot} {terms : List Term} {depth : Nat}
    {vars : List Variable} {slots slots' : List Slot} {goals : List Goal}
    (hd : Describes g vars slots)
    (hc : g.compileTerms depth slots terms = .ok (some goals, slots'))
    (grows : Grows slots' later) : List.Forall₂ (Goal.Spells g later) terms goals := by
  induction terms generalizing vars slots goals with
  | nil =>
    obtain ⟨hgoals, -⟩ := compileTerms_nil hc
    cases hgoals
    exact .nil
  | cons term rest ih =>
    obtain ⟨goal, more, slots₁, hterm, hrest, hgoals⟩ := compileTerms_cons hc
    obtain ⟨x, rfl, hx⟩ := Option.bind_eq_some_iff.mp hgoals.symm
    obtain ⟨xs, rfl, rfl⟩ := Option.map_eq_some_iff.mp hx
    have first := renders_compileTerm hg term hd hterm
    have others := renders_compileTerms hg rest first.describes hrest
    -- later terms leave the names of this one their slots
    have grows' := others.grows.trans grows
    refine .cons ⟨?_, first.mentions_iff later grows' x rfl⟩ (ih first.describes hrest)
    intro values h
    rw [first.denotes_iff later grows']
    simp

/-- A ground goal that spells a term is an atom that is stored. -/
theorem Goal.Spells.contains {slots : List Slot} {term : Term} {h : Handle}
    (spells : Goal.Spells g slots term (.ground h)) : g.contains h := by
  have hd : term.Denotes g (valueOf slots fun _ => none) h := by
    rw [spells.denotes_iff, Goal.Holds]
  refine Term.contains_of_denotes ?_ hd
  intro name a ha
  rw [valueOf] at ha
  cases hs : slotOf? slots name with
  | none =>
    rw [hs] at ha
    cases ha
  | some i =>
    rw [hs] at ha
    cases ha

/-- A plan with something to search spells the clauses of its pattern. -/
theorem Graph.spells_of_compile (hg : g.Covered) (accepted : g.compile p = .ok plan)
    (nonempty : plan.order ≠ []) :
    List.Forall₂ (Goal.Spells g plan.slots) p.clauses plan.goals := by
  obtain ⟨goals, slots, checks, hterms, -, hplan⟩ := compile_parts accepted
  rcases hplan with ⟨-, rfl⟩ | ⟨xs, -, rfl, rfl⟩
  · exact absurd rfl nonempty
  · exact forall₂_spells hg describes_nil hterms (.refl _)

/-! ## Targets and their places -/

/-- By a depth of the search a target has been met: its clause has been searched, or a clause in
which its variable occurs. -/
def Target.MetBy (p : Pattern) (order : List Nat) (depth : Nat) : Target → Prop
  | .var name => ∃ e ≤ depth, ∃ c term, order[e]? = some c ∧ p.clauses[c]? = some term ∧
      ∃ v ∈ term.occurrences, v.name = name
  | .clause c => ∃ e ≤ depth, order[e]? = some c

/-- A target that names a variable resolves to its slot. -/
theorem resolveTarget_var {slots : List Slot} {clauses i : Nat} {name : String}
    (h : slotOf? slots name = some i) :
    resolveTarget slots clauses (.var name) = .ok (.slot i) := by
  rw [resolveTarget, resolveVariable_eq_ok.mpr h]
  rfl

/-- **The sources of a check** are those of the targets of its constraint. -/
theorem forall₂_sources {types : TypeTree} {slots : List Slot} {clauses : Nat} {c : Constraint}
    {check : Check} (h : types.compileConstraint slots clauses c = .ok check) :
    List.Forall₂ (fun target source => resolveTarget slots clauses target = .ok source)
      c.targets check.sources := by
  cases c with
  | condition condition =>
    cases condition with
    | truthAtLeast target minStrength minConfidence =>
      simp only [TypeTree.compileConstraint, Guards.bind_eq_ok, Guards.pure_eq_ok] at h
      obtain ⟨_, -, source, hs, rfl⟩ := h
      exact .cons hs .nil
    | typeIs target typeName withSubtypes =>
      simp only [TypeTree.compileConstraint, Guards.bind_eq_ok, Guards.pure_eq_ok] at h
      obtain ⟨source, hs, type, -, rfl⟩ := h
      exact .cons hs .nil
    | distinct a b =>
      simp only [TypeTree.compileConstraint, Guards.bind_eq_ok, Guards.pure_eq_ok,
        resolveVariable_eq_ok] at h
      obtain ⟨i, hi, j, hj, rfl⟩ := h
      exact .cons (resolveTarget_var hi) (.cons (resolveTarget_var hj) .nil)
  | predicate p =>
    simp only [TypeTree.compileConstraint, Guards.bind_eq_ok, Guards.pure_eq_ok,
      Guards.mapM_eq_ok] at h
    obtain ⟨sources, hs, rfl⟩ := h
    exact hs

/-- The first place at which something is found comes by a place if it is found by then. -/
theorem findIdx_le_iff {α : Type} {xs : List α} {found : α → Bool} {e : Nat} (he : e < xs.length) :
    xs.findIdx found ≤ e ↔ ∃ e' ≤ e, ∃ x, xs[e']? = some x ∧ found x = true := by
  rw [← Nat.not_lt, List.lt_findIdx_iff]
  constructor
  · intro h
    by_contra none
    refine h ⟨he, ?_⟩
    intro j hj
    by_contra hx
    exact none ⟨j, hj, _, List.getElem?_eq_getElem (hj.trans_lt he), by simpa using hx⟩
  · rintro ⟨e', he', x, hx, hfound⟩ ⟨_, h⟩
    obtain ⟨hlt, rfl⟩ := List.getElem?_eq_some_iff.mp hx
    rw [h e' he'] at hfound
    cases hfound

/-- A variable occurs in a clause if its slot is one of the goal in the same place. -/
theorem occurs_iff {slots : List Slot} {terms : List Term} {goals : List Goal}
    (spells : List.Forall₂ (Goal.Spells g slots) terms goals)
    (nodup : (slots.map (·.name)).Nodup) {name : String} {i : Nat}
    (hi : slotOf? slots name = some i) (c : Nat) :
    (∃ term, terms[c]? = some term ∧ ∃ v ∈ term.occurrences, v.name = name) ↔
      i ∈ ((goals[c]?).map (·.slots)).getD [] := by
  -- a name has this slot if it is the name that was given
  have named : ∀ v : Variable, slotOf? slots v.name = some i ↔ v.name = name := by
    intro v
    constructor
    · intro hv
      obtain ⟨s, hs, hname⟩ := (slotOf?_eq_some nodup).mp hi
      obtain ⟨s', hs', hname'⟩ := (slotOf?_eq_some nodup).mp hv
      rw [hs, Option.some.injEq] at hs'
      rw [← hname, ← hname', hs']
    · rintro rfl
      exact hi
  by_cases hc : c < terms.length
  · have hc' : c < goals.length := by rwa [← spells.length_eq]
    have mentions : goals[c].Mentions i ↔ _ := (spells.get hc hc').mentions_iff i
    rw [List.getElem?_eq_getElem hc, List.getElem?_eq_getElem hc', Option.map_some,
      Option.getD_some, Goal.mem_slots, mentions]
    simp [named]
  · have hc' : ¬ c < goals.length := by rwa [← spells.length_eq]
    rw [List.getElem?_eq_none (Nat.le_of_not_lt hc), List.getElem?_eq_none (Nat.le_of_not_lt hc')]
    simp

/-- **A target has been met** by the depths from which on its source is bound. -/
theorem Target.metBy_iff (spells : List.Forall₂ (Goal.Spells g plan.slots) p.clauses plan.goals)
    (nodup : (plan.slots.map (·.name)).Nodup) {clauses : Nat} {target : Target} {source : Source}
    (h : resolveTarget plan.slots clauses target = .ok source) {e : Nat}
    (he : e < plan.order.length) :
    target.MetBy p plan.order e ↔ Plan.boundAt plan.goals plan.order source ≤ e := by
  cases target with
  | clause c =>
    rw [resolveTarget] at h
    split at h
    · cases h
      rw [Plan.boundAt, findIdx_le_iff he]
      simp [MetBy]
    · cases h
  | var name =>
    rw [resolveTarget, Guards.map_eq_ok] at h
    obtain ⟨i, hi, rfl⟩ := h
    rw [resolveVariable_eq_ok] at hi
    rw [Plan.boundAt, findIdx_le_iff he, MetBy]
    simp only [decide_eq_true_eq, ← occurs_iff spells nodup hi, exists_and_left]

/-! ## Depths of checks -/

namespace Plan

/-- **A check is made** by the depths from which on all its sources are bound. -/
theorem Ready.readyAt_le_iff (ready : plan.Ready) {check : Check} (hcheck : check ∈ plan.checks)
    {e : Nat} : readyAt plan.goals plan.order check ≤ e ↔
      ∀ source ∈ check.sources, boundAt plan.goals plan.order source ≤ e := by
  constructor
  · intro h source hs
    exact (ready.boundAt_le hcheck hs).trans h
  · intro h
    have all : (check.sources.map (boundAt plan.goals plan.order)).foldl max 0 ≤ e := by
      rw [foldl_max_le, List.forall_mem_map]
      exact ⟨Nat.zero_le e, h⟩
    exact (Nat.min_le_left _ _).trans all

/-- The checks that are scheduled for a depth are those that are made there. -/
theorem Ready.mem_checksAt (ready : plan.Ready) {d i : Nat} {due : List Nat}
    (hdue : plan.checksAt[d]? = some due) : i ∈ due ↔
      (plan.checks[i]?.map (readyAt plan.goals plan.order)) = some d := by
  rw [ready.checksAt, schedule, List.getElem?_map, Option.map_eq_some_iff] at hdue
  obtain ⟨d', hd', rfl⟩ := hdue
  obtain ⟨hlt, rfl⟩ := List.getElem?_eq_some_iff.mp hd'
  rw [List.getElem_range, List.mem_filter, List.mem_range, decide_eq_true_eq]
  constructor
  · exact And.right
  · intro h
    obtain ⟨check, hcheck, -⟩ := Option.map_eq_some_iff.mp h
    exact ⟨(List.getElem?_eq_some_iff.mp hcheck).1, h⟩

/-- **Each check stands at one depth**, once. -/
theorem Ready.perm_checksAt (ready : plan.Ready) (nonempty : plan.order ≠ []) :
    plan.checksAt.flatten.Perm (List.range plan.checks.length) := by
  rw [ready.checksAt, schedule, ← List.flatMap_def]
  have nodup : ((List.range plan.order.length).flatMap fun d =>
      (List.range plan.checks.length).filter fun i =>
        plan.checks[i]?.map (readyAt plan.goals plan.order) = some d).Nodup := by
    rw [List.nodup_flatMap]
    refine ⟨fun d _ => List.nodup_range.filter _, List.nodup_range.imp ?_⟩
    -- a check is made at one depth
    intro d e hne i hd he
    rw [List.mem_filter, decide_eq_true_eq] at hd he
    rw [hd.2, Option.some.injEq] at he
    exact hne he.2
  rw [List.perm_ext_iff_of_nodup nodup List.nodup_range]
  intro i
  rw [List.mem_flatMap, List.mem_range]
  constructor
  · rintro ⟨d, -, hi⟩
    exact List.mem_range.mp (List.mem_filter.mp hi).1
  · intro hi
    refine ⟨_, List.mem_range.mpr (readyAt_lt nonempty plan.checks[i]), ?_⟩
    rw [List.mem_filter, List.mem_range, List.getElem?_eq_getElem hi]
    simp [hi]

/-- No place of a schedule is without its check. -/
theorem Ready.map_checksDue (ready : plan.Ready) (depth : Nat) :
    (plan.checksDue depth).map some
      = (plan.checksAt[depth]?.getD []).map (plan.checks[·]?) := by
  have found : ∀ i ∈ plan.checksAt[depth]?.getD [], ∃ check, plan.checks[i]? = some check := by
    intro i hi
    cases hdue : plan.checksAt[depth]? with
    | none =>
      rw [hdue] at hi
      cases hi
    | some due =>
      rw [hdue, Option.getD_some, ready.mem_checksAt hdue] at hi
      obtain ⟨check, hcheck, -⟩ := Option.map_eq_some_iff.mp hi
      exact ⟨check, hcheck⟩
  rw [checksDue]
  generalize plan.checksAt[depth]?.getD [] = due at found
  induction due with
  | nil => rfl
  | cons i due ih =>
    rw [List.forall_mem_cons] at found
    obtain ⟨⟨check, hcheck⟩, found⟩ := found
    rw [List.filterMap_cons_some hcheck, List.map_cons, List.map_cons, ih found, hcheck]

/-! ## Atoms of sources -/

/-- An atom that a goal holds of in a placed frame is stored, unless the goal is an atom that is
not. -/
theorem Placed.contains_of_holds {f : Frame} {hs : List Handle} (placed : Placed g plan f hs)
    {goal : Goal} {h : Handle} (ground : ∀ a, goal = .ground a → g.contains a)
    (holds : goal.Holds g f.binding? h) : g.contains h := by
  cases goal with
  | ground a =>
    rw [Goal.Holds] at holds
    rw [← holds]
    exact ground a rfl
  | slot i =>
    rw [Goal.Holds] at holds
    obtain ⟨c, hc, -⟩ := placed.suits i h holds
    exact Graph.contains_of_content? hc
  | link type members =>
    rw [Goal.Holds] at holds
    obtain ⟨hs, -, hc⟩ := holds
    exact Graph.contains_of_content? hc

/-- **A source that is bound** by the atoms of a placed frame is found there, and stored. -/
theorem Placed.exists_find? (ready : plan.Ready)
    (stored : ∀ a, Goal.ground a ∈ plan.goals → g.contains a) {f : Frame} {hs : List Handle}
    (placed : Placed g plan f hs) {source : Source} (known : plan.Knows source)
    (bound : boundAt plan.goals plan.order source < hs.length) :
    ∃ a, f.find? source = some a ∧ g.contains a := by
  cases source with
  | slot i =>
    obtain ⟨a, ha⟩ := placed.exists_binding? ready known bound
    obtain ⟨c, hc, -⟩ := placed.suits i a ha
    exact ⟨a, ha, Graph.contains_of_content? hc⟩
  | clause c =>
    have horder := ready.order_of_boundAt_clause known
    have ha := placed.grounding _ c horder
    rw [List.getElem?_eq_getElem bound] at ha
    refine ⟨_, ha, ?_⟩
    obtain ⟨clause, goal, hclause, hgoal, hat⟩ :=
      ready.exists_goalAt? (List.getElem?_eq_some_iff.mp horder).1
    have holds := placed.holds _ goal _ hat (List.getElem?_eq_getElem bound)
    refine placed.contains_of_holds ?_ holds
    rintro a rfl
    exact stored a (List.mem_of_getElem? hgoal)

end Plan

namespace Search

/-! ## Checks on the course of a search -/

variable {m : Graph digest} {past : List (Graph digest)} {caps : Caps} {s : Search plan}

/-- The next turn in a graph makes the checks of a depth, and sees a frame in which its clause has
just been given an atom. -/
inductive Examines (m : Graph digest) (s : Search plan) (depth : Nat) : Frame → Prop
  | intro {h : Handle} {rest : List Handle} {mark : Nat} {below : List ChoicePoint} {clause : Nat}
    {goal : Goal} {f : Frame} (stack : s.stack = ⟨h :: rest, mark⟩ :: below)
    (level : below.length = depth) (within : beyond s.caps.steps (s.steps + 1) = false)
    (hclause : plan.order[depth]? = some clause) (hgoal : plan.goalAt? depth = some goal)
    (fits : m.unify plan.slots (retreat plan s.frame depth mark) goal h = (true, f)) :
    Examines m s depth (f.ground clause h)

/-- The frame that is seen holds an atom for each depth up to this one. -/
theorem Examines.placed (ready : plan.Ready) (steady : Steady g past s) (alike : g.Alike m)
    {depth : Nat} {f : Frame} (examines : Examines m s depth f) :
    depth < plan.order.length ∧ ∃ hs, hs.length = depth + 1 ∧ plan.Placed g f hs := by
  obtain @⟨h, rest, mark, below, clause, goal, f, stack, rfl, -, hclause, hgoal, fits⟩ := examines
  obtain ⟨hs, regained⟩ := steady.regained stack
  obtain ⟨clause', goal', hclause', hgoal', hat⟩ := ready.exists_goalAt? regained.lt
  rw [hclause, Option.some.injEq] at hclause'
  rw [hgoal, Option.some.injEq] at hat
  subst hclause' hat
  rw [alike.unify] at fits
  rw [← regained.length] at hclause hgoal
  have placed := regained.vetted.toPlaced.unify ready hclause
    (List.getElem?_eq_some_iff.mp hgoal').1 hgoal (List.mem_of_getElem? hgoal') fits
  refine ⟨regained.lt, hs ++ [h], ?_, placed⟩
  rw [List.length_append, List.length_singleton, regained.length]

/-- **A check that is made** finds the atoms of all its sources, and they are stored. -/
theorem Course.exists_find? (ready : plan.Ready)
    (stored : ∀ a, Goal.ground a ∈ plan.goals → g.contains a)
    (course : Course g plan caps (m :: past) s) {depth : Nat} {f : Frame}
    (examines : Examines m s depth f) {check : Check} (due : check ∈ plan.checksDue depth)
    {source : Source} (hsource : source ∈ check.sources) :
    ∃ a, f.find? source = some a ∧ m.contains a := by
  have alike := course.alike m List.mem_cons_self
  obtain ⟨hdepth, hs, length, placed⟩ :=
    examines.placed ready (course.steady fun _ => ready) alike
  obtain ⟨hcheck, hready⟩ := (ready.mem_checksDue hdepth).mp due
  have known := ready.sources check hcheck source hsource
  have bound := ready.boundAt_le hcheck hsource
  obtain ⟨a, ha, hstored⟩ := placed.exists_find? ready stored known (by omega)
  refine ⟨a, ha, ?_⟩
  rw [alike.contains]
  exact hstored

/-- **Behind a row** each check has passed at some moment. -/
theorem Course.passed_of_row (ready : plan.Ready) (course : Course g plan caps (m :: past) s)
    {r : Row} {s' : Search plan} (turned : s.turn m = .row r s') :
    ∀ check ∈ plan.checks, ∃ k ∈ m :: past, check.passes k s'.frame = true := by
  have alike := course.alike m List.mem_cons_self
  have move := move_turn m s
  rw [turned] at move
  cases move with
  | row trial deep =>
    obtain ⟨hs, regained⟩ := (course.steady fun _ => ready).regained trial.stack
    obtain ⟨vetted, -⟩ := regained.deeper ready alike List.mem_cons_self trial.tried
    intro check hcheck
    apply vetted.passed check hcheck
    have nonempty : plan.order ≠ [] := List.length_pos_iff.mp (Nat.zero_lt_of_lt regained.lt)
    have hlt := Plan.Ready.readyAt_lt nonempty check
    rw [List.length_append, List.length_singleton, regained.length]
    omega

end Search

/-! ## Plans of patterns -/

/-- **The schedule of a plan**, and what it does for the searches of the plan. -/
structure Scheduled (g : Graph digest) (p : Pattern) (plan : Plan) : Prop where
  order : plan.order.Perm (List.range p.clauses.length)
  /-- In the place of each constraint is its check. -/
  checks : List.Forall₂ (fun c check =>
    g.types.compileConstraint plan.slots p.clauses.length c = .ok check) p.constraints plan.checks
  length_checksAt : plan.checksAt.length = plan.order.length
  /-- Each check is made at one depth, once, -/
  once : plan.checksAt.flatten.Perm (List.range plan.checks.length)
  /-- namely at the first one by which all targets of its constraint have been met. -/
  first : ∀ (d i : Nat) (due : List Nat) (c : Constraint), plan.checksAt[d]? = some due → i ∈ due →
    p.constraints[i]? = some c →
      IsLeast {e | e < plan.order.length ∧ ∀ target ∈ c.targets, target.MetBy p plan.order e} d
  /-- No check of a depth is left out. -/
  made : ∀ depth, (plan.checksDue depth).map some
    = (plan.checksAt[depth]?.getD []).map (plan.checks[·]?)
  /-- Each check that is made finds the atoms of its sources, and they are stored. -/
  found : ∀ (caps : Caps) (m : Graph digest) (past : List (Graph digest)) (s : Search plan),
    Search.Course g plan caps (m :: past) s → ∀ depth f, Search.Examines m s depth f →
      ∀ check ∈ plan.checksDue depth, ∀ source ∈ check.sources,
        ∃ a, f.find? source = some a ∧ m.contains a
  /-- When there is a row, all checks have passed. -/
  passed : ∀ (caps : Caps) (m : Graph digest) (past : List (Graph digest)) (s : Search plan),
    Search.Course g plan caps (m :: past) s → ∀ r s', s.turn m = .row r s' →
      ∀ check ∈ plan.checks, ∃ k ∈ m :: past, check.passes k s'.frame = true

namespace Graph

/-- The depth of a check is the first one by which the targets of its constraint have been met. -/
theorem isLeast_of_mem_checksAt (hc : Compiled g p plan)
    (spells : List.Forall₂ (Goal.Spells g plan.slots) p.clauses plan.goals) {d i : Nat}
    {due : List Nat} {c : Constraint} (hdue : plan.checksAt[d]? = some due) (hi : i ∈ due)
    (hcon : p.constraints[i]? = some c) :
    IsLeast {e | e < plan.order.length ∧ ∀ target ∈ c.targets, target.MetBy p plan.order e} d := by
  rw [hc.ready.mem_checksAt hdue] at hi
  obtain ⟨check, hcheck, rfl⟩ := Option.map_eq_some_iff.mp hi
  have hmem := List.mem_of_getElem? hcheck
  obtain ⟨hlt, rfl⟩ := List.getElem?_eq_some_iff.mp hcon
  obtain ⟨hlt', rfl⟩ := List.getElem?_eq_some_iff.mp hcheck
  have compiled : g.types.compileConstraint plan.slots p.clauses.length p.constraints[i]
      = .ok plan.checks[i] := hc.checks.get hlt hlt'
  have sources := forall₂_sources compiled
  -- that the targets have been met says that the sources are bound
  have met : ∀ e, e < plan.order.length →
      ((∀ target ∈ p.constraints[i].targets, target.MetBy p plan.order e) ↔
        Plan.readyAt plan.goals plan.order plan.checks[i] ≤ e) := by
    intro e he
    rw [hc.ready.readyAt_le_iff hmem]
    constructor
    · intro h source hsource
      obtain ⟨target, htarget, resolved⟩ := Guards.exists_of_forall₂ sources hsource
      exact (Target.metBy_iff spells hc.describes.nodup resolved he).mp (h target htarget)
    · intro h target htarget
      obtain ⟨source, hsource, resolved⟩ := Guards.exists_of_forall₂ sources.flip htarget
      exact (Target.metBy_iff spells hc.describes.nodup resolved he).mpr (h source hsource)
  have hd := Plan.Ready.readyAt_lt hc.order_ne_nil plan.checks[i]
  constructor
  · exact ⟨hd, (met _ hd).mpr le_rfl⟩
  · rintro e ⟨he, hall⟩
    exact (met e he).mp hall

/-- **The checks of a pattern** that is accepted in a reachable graph, and that may match, are made
each at the first depth at which all that it looks at is bound. -/
theorem Reachable.scheduled (hg : g.Reachable) (accepted : g.compile p = .ok plan)
    (nonempty : plan.order ≠ []) : Scheduled g p plan := by
  have spells := spells_of_compile hg.covered accepted nonempty
  have hc := compiled_of_order_ne_nil hg.covered accepted nonempty
  have ready := hc.ready
  have stored : ∀ a, Goal.ground a ∈ plan.goals → g.contains a := by
    intro a ha
    obtain ⟨term, -, hspells⟩ := Guards.exists_of_forall₂ spells ha
    exact hspells.contains
  constructor
  case order =>
    rw [← hc.length]
    exact ready.order
  case checks => exact hc.checks
  case length_checksAt => simp [ready.checksAt, Plan.schedule]
  case once => exact ready.perm_checksAt nonempty
  case first =>
    intro d i due c hdue hi hcon
    exact isLeast_of_mem_checksAt hc spells hdue hi hcon
  case made => exact ready.map_checksDue
  case found =>
    intro caps m past s course depth f examines check due source hsource
    exact course.exists_find? ready stored examines due hsource
  case passed =>
    intro caps m past s course r s' turned
    exact course.passed_of_row ready turned

/-- The clauses are searched in another order than they are written in.  A constraint that looks at
nothing is checked at once, one of two variables as soon as the second one occurs, and one of a
clause when this clause is searched. -/
theorem scheduled_of_reordered_clauses :
    let g := (empty : Graph fun _ => 0).run
      [.addNode "Node" "a", .addNode "Node" "b", .addLink "Link" [⟨0⟩, ⟨1⟩]]
    let x := Term.var ⟨"x", none⟩
    let y := Term.var ⟨"y", none⟩
    let p : Pattern := ⟨[x, .link "Link" [x, y], .link "Link" [.node "Node" "a", y]],
      [.condition (.distinct "x" "y"), .predicate ⟨[], fun _ => true⟩,
        .condition (.typeIs (.clause 0) "Node" true), .predicate ⟨[.var "y"], fun _ => true⟩]⟩
    g.Reachable ∧ ∃ plan, g.compile p = .ok plan ∧ plan.order = [2, 1, 0] ∧
      plan.checksAt = [[1, 3], [0], [2]] ∧ Scheduled g p plan := by
  intro g x y p
  have reachable : g.Reachable := ⟨_, rfl⟩
  let plan : Plan := ((g.compile p).toOption).getD (.hopeless [])
  have accepted : g.compile p = .ok plan := rfl
  have order : plan.order = [2, 1, 0] := by decide +kernel
  have nonempty : plan.order ≠ [] := by
    rw [order]
    exact List.cons_ne_nil _ _
  have checksAt : plan.checksAt = [[1, 3], [0], [2]] := by decide +kernel
  exact ⟨reachable, plan, accepted, order, checksAt,
    Reachable.scheduled reachable accepted nonempty⟩

end Graph

end TypedHypergraph
