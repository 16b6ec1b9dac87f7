/-
# Estimates are upper bounds

The rank with which a clause is placed in the order of a plan (`Plan.clauseRanks`) holds an estimate
of the atoms that will be tried for it.  When a search enters a depth (`Search.Enters`), it never
has more candidates than were estimated for the clause of this depth when it was placed
(`Graph.Reachable.wellEstimated`).  For a clause that is a variable not bound before, it has exactly
as many.

What is estimated looks only at certain members, while the candidates are found over bound members,
too; both are bounded by the links over one of the certain members and by the atoms of the type.
-/
import TypedHypergraph.Proofs.Greedy
import TypedHypergraph.Proofs.Trail

namespace TypedHypergraph

variable {digest : Content → UInt64} {g m now : Graph digest} {p : Pattern} {plan : Plan}
  {slots : List Slot} {f : Frame}

/-! ## The ranks of a plan -/

namespace Plan

/-- The ranks with which the clauses that are left are placed, given the slots that are bound; the
fuel is their number. -/
def placements (g : Graph digest) (slots : List Slot) :
    Nat → List (Goal × Nat) → List Nat → List Rank
  | 0, _, _ => []
  | fuel + 1, left, bound =>
    match best (rank g slots bound) left with
    | none => []
    | some clause =>
      rank g slots bound clause ::
        placements g slots fuel (left.filter (·.2 ≠ clause.2)) (clause.1.collect bound)

/-- The ranks with which the clauses are placed, in the order in which they are searched. -/
def clauseRanks (g : Graph digest) (slots : List Slot) (goals : List Goal) : List Rank :=
  placements g slots goals.length goals.zipIdx []

/-- The placements of the clauses are those that the planning arranges. -/
theorem map_clause_placements (g : Graph digest) (slots : List Slot) (fuel : Nat)
    (left : List (Goal × Nat)) (bound : List Nat) :
    (placements g slots fuel left bound).map (·.clause) = arrange g slots fuel left bound := by
  induction fuel generalizing left bound with
  | zero => rfl
  | succ fuel ih =>
    rw [placements, arrange]
    cases best (rank g slots bound) left with
    | none => rfl
    | some clause =>
      rw [List.map_cons, ih]
      rfl

/-- **The clauses of the ranks** are those of the order. -/
theorem map_clause_clauseRanks (g : Graph digest) (slots : List Slot) (goals : List Goal) :
    (clauseRanks g slots goals).map (·.clause) = clauseOrder g slots goals :=
  map_clause_placements g slots goals.length goals.zipIdx []

/-- A clause is placed with the rank that it has behind the clauses before it. -/
theorem ranked_placements {goals : List Goal} {fuel : Nat} {left : List (Goal × Nat)}
    {bound : List Nat} {earlier : List Goal} (places : ∀ c ∈ left, goals[c.2]? = some c.1)
    (binds : Goal.Binds bound earlier) {d : Nat} {r : Rank}
    (hr : (placements g slots fuel left bound)[d]? = some r) :
    ∃ goal, goals[r.clause]? = some goal ∧ goal.Ranked g slots
      (earlier ++ goalsOf goals ((arrange g slots fuel left bound).take d)) r.clause r := by
  induction fuel generalizing left bound earlier d with
  | zero => cases hr
  | succ fuel ih =>
    rw [placements] at hr
    rw [arrange]
    cases hbest : best (rank g slots bound) left with
    | none =>
      rw [hbest] at hr
      cases hr
    | some clause =>
      rw [hbest] at hr
      have hclause := places clause (best_mem hbest)
      cases d with
      | zero =>
        cases hr
        refine ⟨clause.1, hclause, ?_⟩
        rw [List.take_zero, goalsOf, List.filterMap_nil, List.append_nil]
        exact ranked_rank binds clause
      | succ d =>
        rw [List.take_succ_cons, append_goalsOf_cons hclause]
        exact ih (fun c hc => places c (List.mem_of_mem_filter hc)) (binds.collect clause.1) hr

/-- **Each rank** is that of its clause behind the clauses before it. -/
theorem ranked_clauseRanks {goals : List Goal} {d : Nat} {r : Rank}
    (hr : (clauseRanks g slots goals)[d]? = some r) :
    ∃ goal, goals[r.clause]? = some goal ∧ goal.Ranked g slots
      (goalsOf goals ((clauseOrder g slots goals).take d)) r.clause r :=
  ranked_placements (fun _ hc => List.mem_zipIdx_iff_getElem?.mp hc) Goal.binds_nil hr

/-- The slots that the clauses before a depth introduce are those that their goals mention. -/
theorem introduced_iff {depth i : Nat} : plan.Introduced depth i ↔
    Goal.MentionedIn i (goalsOf plan.goals (plan.order.take depth)) := by
  rw [Goal.mentionedIn_iff]
  constructor
  · rintro ⟨e, he, goal, hgoal, hi⟩
    obtain ⟨c, hc, hgoal⟩ := Option.bind_eq_some_iff.mp hgoal
    have taken : c ∈ plan.order.take depth := by
      apply List.mem_of_getElem? (i := e)
      rw [List.getElem?_take_of_lt he, hc]
    exact ⟨goal, List.mem_filterMap.mpr ⟨c, taken, hgoal⟩, hi⟩
  · rintro ⟨goal, hmem, hi⟩
    obtain ⟨c, taken, hgoal⟩ := List.mem_filterMap.mp hmem
    obtain ⟨e, hc⟩ := List.mem_iff_getElem?.mp taken
    rw [List.getElem?_take] at hc
    split at hc
    · rename_i he
      exact ⟨e, he, goal, by rw [goalAt?, hc, Option.bind_some, hgoal], hi⟩
    · cases hc

end Plan

/-! ## Few candidates -/

namespace Graph

/-- No list is shorter than the one that is taken. -/
theorem length_fewest_le {lists : List (List Handle)} {least : List Handle}
    (h : fewest lists = some least) : ∀ l ∈ lists, least.length ≤ l.length := by
  cases lists with
  | nil => cases h
  | cons first rest =>
    rw [fewest, Option.some.injEq] at h
    rw [← h]
    apply foldl_least_le List.length
    · exact fun a b hlt => hlt.le
    · exact fun a b hlt => Nat.le_of_not_lt hlt

/-- There are no more candidates for a link than atoms of its type, -/
theorem length_candidates_link_le_count (hg : g.Covered) (type : TypeId) (members : List Goal) :
    (g.candidates slots f (.link type members)).length ≤ g.countOfType type := by
  have nodup : (g.candidates slots f (.link type members)).Nodup :=
    nodup_of_ascending (ascending_candidates _)
  rw [countOfType_eq]
  refine (List.subperm_of_subset nodup ?_).length_le
  intro h hh
  rw [candidates] at hh
  split at hh
  · cases hh
  · have shape := (List.mem_filter.mp hh).2
    unfold hasShape at shape
    cases hc : g.content? h with
    | none => simp [hc] at shape
    | some c =>
      simp only [hc, Bool.and_eq_true, decide_eq_true_eq] at shape
      rw [← shape.1]
      exact mem_handlesOfType_exact hg hc

/-- and no more than links over one of its certain members. -/
theorem length_candidates_link_le_incident {type : TypeId} {members : List Goal} {a : Handle}
    {links : List Handle} (ha : Goal.ground a ∈ members) (hl : g.incidence.get? a = some links) :
    (g.candidates slots f (.link type members)).length ≤ links.length := by
  have known : a ∈ members.filterMap (Goal.known? f) := List.mem_filterMap.mpr ⟨_, ha, rfl⟩
  rw [candidates]
  cases hk : (members.filterMap (Goal.known? f)).mapM g.incidence.get? with
  | none => exact Nat.zero_le _
  | some lists =>
    obtain ⟨l, hmem, hl'⟩ := Guards.exists_of_forall₂ (Guards.mapM_eq_some.mp hk).flip known
    rw [hl, Option.some.injEq] at hl'
    dsimp only
    cases hleast : fewest lists with
    | none =>
      rw [fewest.eq_def] at hleast
      cases lists with
      | nil => cases hmem
      | cons first rest => cases hleast
    | some least =>
      calc (least.filter _).length
          ≤ least.length := List.length_filter_le _ _
        _ ≤ links.length := by
          rw [hl']
          exact length_fewest_le hleast l hmem

/-- A slot that the goals before do not mention is free. -/
theorem binding?_eq_none {earlier : List Goal} {i : Nat}
    (bound : ∀ i, (∃ h, f.binding? i = some h) ↔ Goal.MentionedIn i earlier)
    (hi : ¬ Goal.MentionedIn i earlier) : f.binding? i = none := by
  rw [← bound i] at hi
  exact Option.eq_none_iff_forall_ne_some.mpr (not_exists.mp hi)

/-- **There are never more candidates** for a goal than are estimated behind the goals whose slots
are bound. -/
theorem length_candidates_le (hg : g.Covered) {earlier : List Goal} {goal : Goal} {n : Nat}
    (bound : ∀ i, (∃ h, f.binding? i = some h) ↔ Goal.MentionedIn i earlier)
    (estimated : goal.Estimated g slots earlier n) : (g.candidates slots f goal).length ≤ n := by
  cases estimated with
  | ground a =>
    rw [candidates]
    split
    · exact le_rfl
    · exact Nat.zero_le 1
  | @bound i hi =>
    obtain ⟨h, hb⟩ := (bound i).mpr hi
    rw [candidates, hb]
    exact le_rfl
  | typed hi ht =>
    rw [candidates, binding?_eq_none bound hi]
    dsimp only
    rw [ht]
    exact g.byType.length_union_le _
  | untyped hi ht =>
    rw [candidates, binding?_eq_none bound hi]
    dsimp only
    rw [ht]
    exact (length_handles g).le
  | @link type members n least =>
    rcases least.1 with rfl | ⟨a, links, ha, hl, rfl⟩
    · exact length_candidates_link_le_count hg type members
    · exact length_candidates_link_le_incident ha hl

/-- **There are exactly as many candidates** for a free slot as are estimated. -/
theorem Coherent.length_candidates_slot (hg : g.Coherent) (ht : g.types.WellFormed)
    {earlier : List Goal} {i n : Nat}
    (bound : ∀ i, (∃ h, f.binding? i = some h) ↔ Goal.MentionedIn i earlier)
    (hi : ¬ Goal.MentionedIn i earlier)
    (estimated : (Goal.slot i).Estimated g slots earlier n) :
    (g.candidates slots f (.slot i)).length = n := by
  rw [candidates, binding?_eq_none bound hi]
  cases estimated with
  | bound hi' => exact absurd hi' hi
  | typed _ htype =>
    dsimp only
    rw [htype]
    exact (hg.sum_countOfType ht _).symm
  | untyped _ htype =>
    dsimp only
    rw [htype]
    exact length_handles g

end Graph

/-! ## Depths that a search enters -/

namespace Search

/-- A search enters a depth, with a frame: it begins with the first one, and the next turn enters
the one below if the atom that it tries succeeds. -/
inductive Enters (g : Graph digest) (plan : Plan) (caps : Caps) :
    Graph digest → Nat → Frame → Prop
  | start (nonempty : plan.isEmpty = false) : Enters g plan caps g 0 (Frame.empty plan)
  | descend {now : Graph digest} {past : List (Graph digest)} {s : Search plan} {h : Handle}
    {rest : List Handle} {mark : Nat} {below : List ChoicePoint} {f : Frame}
    (course : Course g plan caps (now :: past) s) (live : s.done = false)
    (trial : Trial now s h rest mark below true f)
    (room : below.length + 1 < plan.order.length) :
    Enters g plan caps now (below.length + 1) f

variable {caps : Caps} {depth : Nat}

/-- **When a depth is entered** exactly the slots of the clauses above it are bound. -/
theorem Enters.assigned (ready : plan.isEmpty = false → plan.Ready)
    (enters : Enters g plan caps now depth f) :
    g.Alike now ∧ depth < plan.order.length ∧ plan.Assigned g depth f := by
  cases enters with
  | start nonempty =>
    have regained : Regained g [g] plan (Frame.empty plan) [] 0 0 := {
      length := rfl
      vetted := .empty
      lt := isEmpty_eq_false.mp nonempty
      trail := rfl
      tidy := fun _ c _ _ => grounding?_empty plan c }
    exact ⟨.refl g, regained.lt, regained.assigned plan.confines_empty⟩
  | @descend now past s h rest mark below f course live trial room =>
    have alike := course.alike now List.mem_cons_self
    obtain ⟨hs, regained⟩ := (course.steady ready).regained trial.stack
    have confined := course.confined ready
    rw [trial.stack] at confined
    have ready := ready (isEmpty_eq_false.mpr (Nat.zero_lt_of_lt room))
    obtain ⟨vetted, tidy⟩ := regained.deeper ready alike List.mem_cons_self trial.tried
    have deeper : Regained g (now :: past) plan f (hs ++ [h]) f.trail.length (below.length + 1) := {
      length := by rw [List.length_append, List.length_singleton, regained.length]
      vetted
      lt := room
      trail := rfl
      tidy }
    have size := regained.vetted.bindings
    exact ⟨alike, room, deeper.assigned (confined.1.attempt ready size regained.lt trial.tried)⟩

/-- The candidates of a depth that is entered are those of its goal, with the slots bound that the
goals before it mention. -/
theorem Enters.tried (ready : plan.isEmpty = false → plan.Ready)
    (enters : Enters g plan caps now depth f) {goal : Goal}
    (hgoal : plan.goalAt? depth = some goal) :
    candidatesAt now plan f depth = g.candidates plan.slots f goal ∧
      ∀ i, (∃ h, f.binding? i = some h) ↔
        Goal.MentionedIn i (Plan.goalsOf plan.goals (plan.order.take depth)) := by
  obtain ⟨alike, -, assigned⟩ := enters.assigned ready
  constructor
  · rw [candidatesAt, hgoal]
    exact alike.candidates f goal
  · intro i
    rw [assigned.bound_iff, Plan.introduced_iff]

end Search

/-! ## Plans of patterns -/

/-- What is estimated for a clause when it is placed bounds what is tried for it. -/
structure WellEstimated (g : Graph digest) (plan : Plan) : Prop where
  /-- The clauses are placed with these ranks, -/
  placed : (Plan.clauseRanks g plan.slots plan.goals).map (·.clause) = plan.order
  /-- each of them behind the clauses before it. -/
  ranked : ∀ d r, (Plan.clauseRanks g plan.slots plan.goals)[d]? = some r →
    ∃ goal, plan.goalAt? d = some goal ∧ goal.Ranked g plan.slots
      (Plan.goalsOf plan.goals (plan.order.take d)) r.clause r
  /-- When a depth is entered there are no more candidates than were estimated. -/
  bounds : ∀ caps now depth f, Search.Enters g plan caps now depth f →
    ∃ r, (Plan.clauseRanks g plan.slots plan.goals)[depth]? = some r ∧
      (Search.candidatesAt now plan f depth).length ≤ r.estimate
  /-- For a variable that is not bound before there are exactly as many, given `HandlesLeft`. -/
  exact : g.HandlesLeft → ∀ caps now depth f i r,
    Search.Enters g plan caps now depth f → plan.goalAt? depth = some (.slot i) →
      ¬ plan.Introduced depth i → (Plan.clauseRanks g plan.slots plan.goals)[depth]? = some r →
        (Search.candidatesAt now plan f depth).length = r.estimate

namespace Graph

open Search

/-- **The clauses of a plan** of a pattern are placed with its ranks. -/
theorem placed_of_compile (accepted : g.compile p = .ok plan) :
    (Plan.clauseRanks g plan.slots plan.goals).map (·.clause) = plan.order := by
  rw [Plan.map_clause_clauseRanks]
  obtain ⟨goals, slots, checks, -, -, hplan⟩ := compile_parts accepted
  rcases hplan with ⟨-, rfl⟩ | ⟨xs, -, -, rfl⟩
  · rfl
  · rfl

/-- In a compiled plan each rank is that of the goal at its depth, given the goals before it. -/
theorem ranked_of_compile (accepted : g.compile p = .ok plan) {d : Nat} {r : Rank}
    (hr : (Plan.clauseRanks g plan.slots plan.goals)[d]? = some r) :
    ∃ goal, plan.goalAt? d = some goal ∧ goal.Ranked g plan.slots
      (Plan.goalsOf plan.goals (plan.order.take d)) r.clause r := by
  obtain ⟨goal, hgoal, ranked⟩ := Plan.ranked_clauseRanks hr
  have placed := placed_of_compile accepted
  have hclause : plan.order[d]? = some r.clause := by
    rw [← placed, List.getElem?_map, hr, Option.map_some]
  rw [← Plan.map_clause_clauseRanks, placed] at ranked
  exact ⟨goal, by rw [Plan.goalAt?, hclause, Option.bind_some, hgoal], ranked⟩

/-- **Estimates are upper bounds** for a pattern that is accepted in a reachable graph. -/
theorem Reachable.wellEstimated (hg : g.Reachable) (accepted : g.compile p = .ok plan) :
    WellEstimated g plan := by
  have ready := ready_of_compile hg.covered accepted
  have placed := placed_of_compile accepted
  constructor
  case placed => exact placed
  case ranked => exact fun d r hr => ranked_of_compile accepted hr
  case bounds =>
    intro caps now depth f enters
    obtain ⟨-, hdepth, -⟩ := enters.assigned ready
    rw [← placed, List.length_map] at hdepth
    have hr := List.getElem?_eq_getElem hdepth
    obtain ⟨goal, hgoal, ranked⟩ := ranked_of_compile accepted hr
    obtain ⟨tried, bound⟩ := enters.tried ready hgoal
    refine ⟨_, hr, ?_⟩
    rw [tried]
    exact length_candidates_le hg.covered bound ranked.estimate
  case exact =>
    intro room caps now depth f i r enters hslot fresh hr
    obtain ⟨goal, hgoal, ranked⟩ := ranked_of_compile accepted hr
    rw [hslot, Option.some.injEq] at hgoal
    subst hgoal
    obtain ⟨tried, bound⟩ := enters.tried ready hslot
    rw [Plan.introduced_iff] at fresh
    rw [tried]
    exact (hg.coherent room).length_candidates_slot hg.typesMakeSense.wellFormed bound fresh
      ranked.estimate

/-- A link over a certain atom, one over an atom that is bound then, which is estimated by its type,
and a variable that occurs nowhere else. -/
theorem wellEstimated_of_anchored_links :
    let g := (empty : Graph fun _ => 0).run
      [.addNode "Node" "a", .addNode "Node" "b", .addNode "Node" "c",
        .addLink "Link" [⟨0⟩, ⟨1⟩], .addLink "Link" [⟨1⟩, ⟨2⟩], .addLink "Link" [⟨0⟩, ⟨2⟩]]
    let x := Term.var ⟨"x", none⟩
    let y := Term.var ⟨"y", none⟩
    let z := Term.var ⟨"z", none⟩
    let p : Pattern := ⟨[x, .link "Link" [.node "Node" "a", y], .link "Link" [y, z]], []⟩
    g.Reachable ∧ g.HandlesLeft ∧ ∃ plan, g.compile p = .ok plan ∧
      plan.order = [1, 2, 0] ∧
      (Plan.clauseRanks g plan.slots plan.goals).map (·.estimate) = [2, 3, 6] ∧
        WellEstimated g plan := by
  intro g x y z p
  have reachable : g.Reachable := ⟨_, rfl⟩
  have room : g.HandlesLeft := by decide +kernel
  let plan : Plan := ((g.compile p).toOption).getD (.hopeless [])
  have accepted : g.compile p = .ok plan := rfl
  exact ⟨reachable, room, plan, accepted, by decide +kernel, by decide +kernel,
    Reachable.wellEstimated reachable accepted⟩

end Graph

end TypedHypergraph
