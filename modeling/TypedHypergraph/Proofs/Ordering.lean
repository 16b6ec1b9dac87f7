/-
# The order of clauses and the time of checks

However clauses are ranked, each is searched exactly once (`Plan.perm_clauseOrder`).  A plan is
*ready* (`Plan.Ready`) if its slots are those of its goals and its checks look at slots and clauses
that there are; then each check is made at exactly one depth, at which all that it looks at has been
bound (`Plan.Ready.boundAt_le`).
-/
import Mathlib.Tactic
import TypedHypergraph.Proofs.Goals
import TypedHypergraph.Search.Checks

namespace TypedHypergraph

namespace Plan

variable {digest : Content → UInt64} {g : Graph digest}

/-! ## Every clause once -/

/-- The best of some clauses is one of them. -/
theorem best_mem {rankOf : Goal × Nat → Rank} {clauses : List (Goal × Nat)} {c : Goal × Nat}
    (h : best rankOf clauses = some c) : c ∈ clauses := by
  cases clauses with
  | nil => cases h
  | cons first rest =>
    rw [best, Option.some.injEq] at h
    rw [← h]
    apply List.foldlRecOn (motive := (· ∈ first :: rest)) rest _ List.mem_cons_self
    intro least hleast c hc
    split
    · exact List.mem_cons_of_mem _ hc
    · exact hleast

/-- With enough fuel all clauses are put into the order. -/
theorem perm_arrange (g : Graph digest) (slots : List Slot) :
    ∀ (fuel : Nat) (left : List (Goal × Nat)) (bound : List Nat), left.length ≤ fuel →
      (left.map (·.2)).Nodup → (arrange g slots fuel left bound).Perm (left.map (·.2)) := by
  intro fuel
  induction fuel with
  | zero =>
    intro left bound hlen _
    rw [arrange, List.length_eq_zero_iff.mp (Nat.le_zero.mp hlen)]
    exact List.Perm.refl _
  | succ fuel ih =>
    intro left bound hlen hnodup
    rw [arrange]
    cases hbest : best (rank g slots bound) left with
    | none =>
      cases left with
      | nil => exact List.Perm.refl _
      | cons first rest => cases hbest
    | some clause =>
      have hmem : clause ∈ left := best_mem hbest
      -- without its best clause the rest is one shorter, and its places are still different
      have hrest : (left.filter (·.2 ≠ clause.2)).map (·.2) = (left.map (·.2)).erase clause.2 := by
        rw [hnodup.erase_eq_filter, List.filter_map]
        congr 1
        apply List.filter_congr
        intro c _
        by_cases hc : c.2 = clause.2
        · simp [hc]
        · simp [hc]
      have hless : (left.filter (·.2 ≠ clause.2)).length < left.length := by
        apply List.length_filter_lt_length_iff_exists.mpr
        exact ⟨clause, hmem, by simp⟩
      have hsub : ((left.filter (·.2 ≠ clause.2)).map (·.2)).Nodup := by
        rw [hrest]
        exact hnodup.erase _
      have tail := ih (left.filter (·.2 ≠ clause.2)) (clause.1.collect bound) (by omega) hsub
      rw [hrest] at tail
      exact (tail.cons _).trans (List.perm_cons_erase (List.mem_map_of_mem hmem)).symm

/-- The clauses are numbered in their order. -/
theorem map_snd_zipIdx (goals : List Goal) :
    goals.zipIdx.map (·.2) = List.range goals.length := by
  rw [List.zipIdx_map_snd, List.range_eq_range']

/-- No two clauses have the same number. -/
theorem nodup_map_snd_zipIdx (goals : List Goal) : (goals.zipIdx.map (·.2)).Nodup := by
  rw [map_snd_zipIdx]
  exact List.nodup_range

/-- **Each clause is searched once.** -/
theorem perm_clauseOrder (g : Graph digest) (slots : List Slot) (goals : List Goal) :
    (clauseOrder g slots goals).Perm (List.range goals.length) := by
  rw [← map_snd_zipIdx]
  apply perm_arrange
  · rw [List.length_zipIdx]
  · exact nodup_map_snd_zipIdx goals

/-! ## Plans that are ready -/

/-- A place that there is in a plan. -/
def Knows (plan : Plan) : Source → Prop
  | .slot i => i < plan.slots.length
  | .clause c => c < plan.goals.length

/-- The parts of a plan fit together. -/
structure Ready (plan : Plan) : Prop where
  order : plan.order.Perm (List.range plan.goals.length)
  checksAt : plan.checksAt = schedule plan.goals plan.order plan.checks
  mentions : ∀ i, i < plan.slots.length ↔ ∃ goal ∈ plan.goals, goal.Mentions i
  sources : ∀ check ∈ plan.checks, ∀ source ∈ check.sources, plan.Knows source

/-- The largest of several numbers is at most a bound if they all are. -/
theorem foldl_max_le {e : Nat} : ∀ {xs : List Nat} {a : Nat},
    xs.foldl max a ≤ e ↔ a ≤ e ∧ ∀ x ∈ xs, x ≤ e
  | [], a => by simp
  | x :: xs, a => by
    rw [List.foldl_cons, foldl_max_le, List.forall_mem_cons, max_le_iff, and_assoc]

namespace Ready

variable {plan : Plan}

/-- No clause is searched twice. -/
theorem nodup (h : plan.Ready) : plan.order.Nodup := h.order.nodup_iff.mpr List.nodup_range

/-- As many clauses are searched as there are. -/
theorem length_order (h : plan.Ready) : plan.order.length = plan.goals.length := by
  rw [h.order.length_eq, List.length_range]

/-- The clauses that are searched are those that there are. -/
theorem mem_order (h : plan.Ready) {c : Nat} : c ∈ plan.order ↔ c < plan.goals.length := by
  rw [h.order.mem_iff, List.mem_range]

/-- At every depth the goal of a clause is searched. -/
theorem exists_goalAt? (h : plan.Ready) {depth : Nat} (hd : depth < plan.order.length) :
    ∃ clause goal, plan.order[depth]? = some clause ∧ plan.goals[clause]? = some goal ∧
      plan.goalAt? depth = some goal := by
  have hclause := List.getElem?_eq_getElem hd
  have hlt : plan.order[depth] < plan.goals.length := h.mem_order.mp (List.getElem_mem hd)
  refine ⟨_, _, hclause, List.getElem?_eq_getElem hlt, ?_⟩
  rw [goalAt?, hclause, Option.bind_some, List.getElem?_eq_getElem hlt]

/-! ## When places are bound -/

/-- Each place of the plan is bound at some depth. -/
theorem boundAt_lt (h : plan.Ready) (source : Source) (hs : plan.Knows source) :
    boundAt plan.goals plan.order source < plan.order.length := by
  cases source with
  | slot i =>
    obtain ⟨goal, hgoal, hi⟩ := (h.mentions i).mp hs
    obtain ⟨c, hc⟩ := List.mem_iff_getElem?.mp hgoal
    have hmem : c ∈ plan.order := h.mem_order.mpr (List.getElem?_eq_some_iff.mp hc).1
    rw [boundAt, List.findIdx_lt_length]
    refine ⟨c, hmem, ?_⟩
    rw [hc, Option.map_some, Option.getD_some, decide_eq_true_eq, Goal.mem_slots]
    exact hi
  | clause c =>
    rw [boundAt, List.findIdx_lt_length]
    exact ⟨c, h.mem_order.mpr hs, by simp⟩

/-- At the depth at which a slot is bound, a goal that has it is searched. -/
theorem goal_of_boundAt_slot (h : plan.Ready) {i : Nat} (hi : i < plan.slots.length) :
    ∃ goal, plan.goalAt? (boundAt plan.goals plan.order (.slot i)) = some goal ∧
      goal.Mentions i := by
  have hlt := h.boundAt_lt (.slot i) hi
  obtain ⟨clause, goal, hclause, hgoal, hat⟩ := h.exists_goalAt? hlt
  refine ⟨goal, hat, ?_⟩
  -- the depth is the first one at which this is so
  obtain ⟨hlt', heq⟩ := List.getElem?_eq_some_iff.mp hclause
  have found : i ∈ ((plan.goals[plan.order[boundAt plan.goals plan.order (.slot i)]]?).map
      (·.slots)).getD [] := by
    have := List.findIdx_getElem (w := hlt')
    exact of_decide_eq_true this
  rw [heq, hgoal, Option.map_some, Option.getD_some, Goal.mem_slots] at found
  exact found

/-- At the depth at which a clause is bound, it is searched. -/
theorem order_of_boundAt_clause (h : plan.Ready) {c : Nat} (hc : c < plan.goals.length) :
    plan.order[boundAt plan.goals plan.order (.clause c)]? = some c := by
  have hlt := h.boundAt_lt (.clause c) hc
  rw [List.getElem?_eq_getElem hlt, Option.some.injEq]
  have := List.findIdx_getElem (w := hlt)
  exact of_decide_eq_true this

/-! ## When checks are made -/

/-- Each check is made at some depth. -/
theorem readyAt_lt (hne : plan.order ≠ []) (check : Check) :
    readyAt plan.goals plan.order check < plan.order.length := by
  have hpos := List.length_pos_iff.mpr hne
  rw [readyAt]
  omega

/-- **When a check is made**, all that it looks at has been bound. -/
theorem boundAt_le (h : plan.Ready) {check : Check} (hc : check ∈ plan.checks) {source : Source}
    (hs : source ∈ check.sources) :
    boundAt plan.goals plan.order source ≤ readyAt plan.goals plan.order check := by
  have hlt := h.boundAt_lt source (h.sources check hc source hs)
  have hle : boundAt plan.goals plan.order source
      ≤ (check.sources.map (boundAt plan.goals plan.order)).foldl max 0 :=
    (foldl_max_le.mp le_rfl).2 _ (List.mem_map_of_mem hs)
  rw [readyAt]
  omega

/-- The checks that are due at a depth are those that are made there. -/
theorem mem_checksDue (h : plan.Ready) {depth : Nat} (hd : depth < plan.order.length)
    {check : Check} : check ∈ plan.checksDue depth ↔
      check ∈ plan.checks ∧ readyAt plan.goals plan.order check = depth := by
  -- the schedule has a list of checks for each depth
  have hdue : plan.checksAt[depth]?.getD [] = (List.range plan.checks.length).filter fun i =>
      (plan.checks[i]?.map (readyAt plan.goals plan.order)) = some depth := by
    rw [h.checksAt, schedule, List.getElem?_map, List.getElem?_range hd]
    rfl
  rw [checksDue, hdue, List.mem_filterMap]
  constructor
  · rintro ⟨i, hi, hcheck⟩
    rw [List.mem_filter, hcheck, Option.map_some, decide_eq_true_eq, Option.some.injEq] at hi
    exact ⟨List.mem_of_getElem? hcheck, hi.2⟩
  · rintro ⟨hcheck, hready⟩
    obtain ⟨i, hi⟩ := List.mem_iff_getElem?.mp hcheck
    refine ⟨i, ?_, hi⟩
    rw [List.mem_filter, List.mem_range, hi, Option.map_some, hready, decide_eq_true_eq]
    exact ⟨(List.getElem?_eq_some_iff.mp hi).1, rfl⟩

end Ready

end Plan

end TypedHypergraph
