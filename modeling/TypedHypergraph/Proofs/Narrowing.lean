/-
# One constraint more

A pattern with one constraint more has the plan of the pattern with one check more
(`Graph.compile_and`).  The check is made as soon as all that it looks at is bound, and what it
turns down there is not gone into any further; at the end of the search only the rows are left that
satisfy the constraint.

In the log of the search this means that entries are left out or find nothing, but only such as have
no row that satisfies the constraint (`Search.Thins`).  So the rows are those that satisfy it, in
the same order, and none of them comes later than without the constraint
(`Graph.Reachable.narrows`).
-/
import TypedHypergraph.Proofs.Answers
import TypedHypergraph.Proofs.Caps
import TypedHypergraph.Proofs.Trials

namespace TypedHypergraph

variable {digest : Content → UInt64} {g : Graph digest} {p : Pattern} {plan : Plan}

/-! ## Logs with entries left out -/

namespace Search

variable {keep : Row → Bool}

/-- The rows of a log are that of its first entry and those of the rest. -/
theorem filterMap_id_cons (entry : Option Row) (log : List (Option Row)) :
    (entry :: log).filterMap id = entry.toList ++ log.filterMap id := by
  cases entry <;> rfl

/-- Filtering the row of an entry is filtering the entry. -/
theorem toList_filter (entry : Option Row) :
    entry.toList.filter keep = (entry.filter keep).toList := by
  cases entry with
  | none => rfl
  | some r => cases hr : keep r <;> simp [Option.filter, hr]

/-- An entry whose row is dropped leaves no row. -/
theorem toList_of_dropped {entry : Option Row} (dropped : ∀ r, entry = some r → keep r = false) :
    entry.toList.filter keep = [] := by
  cases entry with
  | none => rfl
  | some r => simp [dropped r rfl]

/-- Some trials are spared, and some find nothing any more; rows that are kept stay. -/
inductive Thins (keep : Row → Bool) : List (Option Row) → List (Option Row) → Prop
  | nil : Thins keep [] []
  | spare {entry : Option Row} {log log' : List (Option Row)} :
      (∀ r, entry = some r → keep r = false) → Thins keep log log' →
      Thins keep (entry :: log) log'
  | retry (entry : Option Row) {log log' : List (Option Row)} : Thins keep log log' →
      Thins keep (entry :: log) (entry.filter keep :: log')

namespace Thins

variable {log log' more more' : List (Option Row)}

/-- Logs that are thinned one after the other are thinned together. -/
theorem append (h : Thins keep log log') (h' : Thins keep more more') :
    Thins keep (log ++ more) (log' ++ more') := by
  induction h with
  | nil => exact h'
  | spare dropped _ ih => exact .spare dropped ih
  | retry entry _ ih => exact .retry entry ih

/-- Logs that are thinned piece by piece are thinned together. -/
theorem flatMap {α : Type} {xs : List α} {f f' : α → List (Option Row)}
    (each : ∀ x, Thins keep (f x) (f' x)) : Thins keep (xs.flatMap f) (xs.flatMap f') := by
  induction xs with
  | nil => exact .nil
  | cons x xs ih =>
    rw [List.flatMap_cons, List.flatMap_cons]
    exact (each x).append ih

/-- Trials without a row that is kept may all be spared. -/
theorem spare_all (dropped : ∀ r ∈ log.filterMap id, keep r = false) : Thins keep log [] := by
  induction log with
  | nil => exact .nil
  | cons entry log ih =>
    refine .spare ?_ (ih ?_)
    · rintro r rfl
      exact dropped r (by simp)
    · intro r hr
      apply dropped
      rw [List.mem_filterMap] at hr ⊢
      obtain ⟨entry', hmem, hr⟩ := hr
      exact ⟨entry', List.mem_cons_of_mem _ hmem, hr⟩

/-- **The rows that are kept** are the rows that are left. -/
theorem rows_eq (h : Thins keep log log') :
    log'.filterMap id = (log.filterMap id).filter keep := by
  induction h with
  | nil => rfl
  | spare dropped _ ih =>
    rw [filterMap_id_cons, List.filter_append, toList_of_dropped dropped, List.nil_append, ih]
  | retry entry _ ih =>
    rw [filterMap_id_cons, filterMap_id_cons, List.filter_append, toList_filter, ih]

/-- Trials without a row that is kept may all be spared but one. -/
theorem spare_but_one (tried : log ≠ []) (dropped : ∀ r ∈ log.filterMap id, keep r = false) :
    Thins keep log [none] := by
  obtain ⟨entry, log, rfl⟩ := List.exists_cons_of_ne_nil tried
  rw [filterMap_id_cons, List.forall_mem_append] at dropped
  have nothing : entry.filter keep = none := by
    cases entry with
    | none => rfl
    | some r => simp [Option.filter, dropped.1 r (by simp)]
  rw [← nothing]
  exact .retry entry (spare_all dropped.2)

end Thins

/-- Without a cap on steps a log gives all its rows. -/
theorem budget_none (steps : Nat) (log : List (Option Row)) :
    budget none steps log = ⟨log.filterMap id, steps + log.length, false⟩ := by
  induction log generalizing steps with
  | nil => rfl
  | cons entry log ih =>
    rw [budget_within rfl, ih, List.length_cons, Nat.add_assoc, Nat.add_comm 1]
    cases entry <;> rfl

/-- A search that starts no later is not far beyond the cap when another one is. -/
theorem steps_budget_le {cap : Option Nat} {steps steps' : Nat}
    (hb : beyond cap (steps + 1) = true) (hle : steps' ≤ steps) (log : List (Option Row)) :
    (budget cap steps' log).steps ≤ steps + 1 := by
  induction log generalizing steps' with
  | nil => exact hle.trans (Nat.le_succ steps)
  | cons entry log ih =>
    cases hb' : beyond cap (steps' + 1) with
    | true =>
      rw [budget_beyond hb']
      exact Nat.succ_le_succ hle
    | false =>
      have hlt : steps' + 1 ≤ steps := by
        by_contra hnot
        have heq : steps' = steps := by omega
        rw [heq, hb] at hb'
        cases hb'
      rw [budget_within hb']
      exact ih hlt

/-- Two tallies under one cap: the rows of the first that are kept are the first rows of the second,
which takes no more steps, and does not have to stop if the first does not. -/
structure Tally.Narrows (keep : Row → Bool) (t t' : Tally) : Prop where
  rows : t.rows.filter keep <+: t'.rows
  steps : t'.steps ≤ t.steps
  exhausted : t.exhausted = false → t'.exhausted = false

/-- **With entries left out** a log is read further under the same cap. -/
theorem Thins.narrows_budget {log log' : List (Option Row)} (h : Thins keep log log')
    (cap : Option Nat) {steps steps' : Nat} (hle : steps' ≤ steps) :
    (budget cap steps log).Narrows keep (budget cap steps' log') := by
  -- where the first search has to stop there is nothing to compare but the steps
  have stopped : ∀ {entry : Option Row} {log log' : List (Option Row)} {steps steps' : Nat},
      steps' ≤ steps → beyond cap (steps + 1) = true →
        (budget cap steps (entry :: log)).Narrows keep (budget cap steps' log') := by
    intro entry log log' steps steps' hle hb
    rw [budget_beyond hb]
    exact ⟨List.nil_prefix, steps_budget_le hb hle log', by simp⟩
  induction h generalizing steps steps' with
  | nil => exact ⟨List.prefix_refl _, hle, fun _ => rfl⟩
  | @spare entry log log' dropped _ ih =>
    cases hb : beyond cap (steps + 1) with
    | true => exact stopped hle hb
    | false =>
      have rest := ih (hle.trans (Nat.le_succ steps))
      rw [budget_within hb]
      refine ⟨?_, rest.steps, rest.exhausted⟩
      rw [List.filter_append, toList_of_dropped dropped, List.nil_append]
      exact rest.rows
  | @retry entry log log' _ ih =>
    cases hb : beyond cap (steps + 1) with
    | true => exact stopped hle hb
    | false =>
      have hb' : beyond cap (steps' + 1) = false := by
        by_contra hnot
        rw [beyond_mono (Nat.succ_le_succ hle) (Bool.eq_true_of_not_eq_false hnot)] at hb
        cases hb
      have rest := ih (Nat.succ_le_succ hle)
      rw [budget_within hb, budget_within hb']
      refine ⟨?_, rest.steps, rest.exhausted⟩
      rw [List.filter_append, toList_filter]
      exact (List.prefix_append_right_inj _).mpr rest.rows

end Search

/-! ## Plans with one check more -/

namespace Plan

/-- The same plan with one check more. -/
def and (plan : Plan) (check : Check) : Plan :=
  { plan with
    checks := plan.checks ++ [check]
    checksAt := schedule plan.goals plan.order (plan.checks ++ [check]) }

variable {check : Check}

@[simp] theorem order_and : (plan.and check).order = plan.order := rfl

@[simp] theorem goals_and : (plan.and check).goals = plan.goals := rfl

@[simp] theorem slots_and : (plan.and check).slots = plan.slots := rfl

/-- A plan that is ready is ready with a further check on places of the plan. -/
theorem Ready.and (ready : plan.Ready)
    (known : ∀ source ∈ check.sources, plan.Knows source) : (plan.and check).Ready where
  order := ready.order
  checksAt := rfl
  mentions := ready.mentions
  sources := by
    intro other hother
    rcases List.mem_append.mp hother with hother | hother
    · exact ready.sources other hother
    · rw [List.mem_singleton.mp hother]
      exact known

/-- At each depth the same checks are made, and at one of them the new one. -/
theorem checksPass_and (ready : plan.Ready) (ready' : (plan.and check).Ready) (f : Frame)
    {depth : Nat} (hdepth : depth < plan.order.length) :
    (plan.and check).checksPass g f depth = true ↔ plan.checksPass g f depth = true ∧
      (readyAt plan.goals plan.order check = depth → check.passes g f = true) := by
  have due : ∀ other, other ∈ plan.checksDue depth ↔
      other ∈ plan.checks ∧ readyAt plan.goals plan.order other = depth :=
    fun _ => ready.mem_checksDue hdepth
  have due' : ∀ other, other ∈ (plan.and check).checksDue depth ↔
      (other ∈ plan.checks ∨ other = check) ∧ readyAt plan.goals plan.order other = depth := by
    intro other
    rw [ready'.mem_checksDue hdepth]
    show other ∈ plan.checks ++ [check] ∧ _ ↔ _
    rw [List.mem_append, List.mem_singleton]
    rfl
  rw [checksPass, checksPass, List.all_eq_true, List.all_eq_true]
  constructor
  · intro h
    refine ⟨?_, fun hready => h check ((due' check).mpr ⟨.inr rfl, hready⟩)⟩
    intro other hother
    obtain ⟨hmem, hready⟩ := (due other).mp hother
    exact h other ((due' other).mpr ⟨.inl hmem, hready⟩)
  · rintro ⟨h, hcheck⟩ other hother
    obtain ⟨hmem | rfl, hready⟩ := (due' other).mp hother
    · exact h other ((due other).mpr ⟨hmem, hready⟩)
    · exact hcheck hready

/-- A frame that is reached with the new check is reached without it. -/
theorem Reached.of_and {f : Frame} {hs : List Handle} (h : Reached g (plan.and check) f hs) :
    Reached g plan f hs where
  bindings := h.bindings
  groundings := h.groundings
  grounding := h.grounding
  holds := h.holds
  suits := h.suits
  checks other hmem hready := h.checks other (List.mem_append_left _ hmem) hready

/-- What is placed in a plan is placed in the plan with a further check. -/
theorem Placed.and {f : Frame} {hs : List Handle} (h : Placed g plan f hs) :
    Placed g (plan.and check) f hs where
  bindings := h.bindings
  groundings := h.groundings
  grounding := h.grounding
  holds := h.holds
  suits := h.suits

end Plan

/-! ## The log with one check more -/

namespace Search

open Plan

variable {check : Check}

/-- An attempt with the new check leaves the frame that it leaves without it, and succeeds if that
one does and the check, where it is due, passes. -/
theorem attempt_and (ready : plan.Ready) (ready' : (plan.and check).Ready) (f : Frame) {depth : Nat}
    (hdepth : depth < plan.order.length) (h : Handle) :
    (attempt g (plan.and check) f depth h).2 = (attempt g plan f depth h).2 ∧
      ((attempt g (plan.and check) f depth h).1 = true ↔ (attempt g plan f depth h).1 = true ∧
        (readyAt plan.goals plan.order check = depth →
          check.passes g (attempt g plan f depth h).2 = true)) := by
  obtain ⟨clause, goal, hclause, -, hat⟩ := ready.exists_goalAt? hdepth
  have hclause' : (plan.and check).order[depth]? = some clause := hclause
  have hat' : (plan.and check).goalAt? depth = some goal := hat
  rw [attempt_eq hclause hat, attempt_eq hclause' hat', slots_and]
  rcases g.unify plan.slots f goal h with ⟨_ | _, f₁⟩
  · simp
  · exact ⟨rfl, checksPass_and ready ready' _ hdepth⟩

/-- **With one check more** trials are spared or find nothing, but no row that passes is lost. -/
theorem thins_log {keep : Row → Bool} (ready : plan.Ready) (ready' : (plan.and check).Ready)
    (keeps : ∀ F hs, Placed g plan F hs → hs.length = plan.order.length →
      keep (plan.rowOf F) = check.passes g F) :
    ∀ {left : Nat} {f : Frame} {hs : List Handle}, Reached g (plan.and check) f hs →
      hs.length + left = plan.order.length →
        Thins keep (log g plan left f hs.length) (log g (plan.and check) left f hs.length) := by
  have mine : check ∈ (plan.and check).checks := List.mem_append_right _ (List.mem_singleton_self _)
  intro left
  induction left with
  | zero => exact fun _ _ => .nil
  | succ left ih =>
    intro f hs reached hlen
    have hdepth : hs.length < plan.order.length := by omega
    rw [log_succ, log_succ]
    refine Thins.flatMap fun a => ?_
    have hlen' : (hs ++ [a]).length = hs.length + 1 := by simp
    obtain ⟨same, succeeds⟩ := attempt_and (g := g) ready ready' f hdepth a
    rcases ha : attempt g plan f hs.length a with ⟨_ | _, f₁⟩
    · -- the atom fits neither with the check nor without it
      rw [ha] at succeeds
      rcases ha' : attempt g (plan.and check) f hs.length a with ⟨_ | _, f₂⟩
      · rw [trials, trials, ha, ha']
        exact .retry none .nil
      · rw [ha'] at succeeds
        simp at succeeds
    · have reached₁ := reached.of_and.attempt ready hdepth ha
      rcases ha' : attempt g (plan.and check) f hs.length a with ⟨_ | _, f₂⟩
      · -- the check is due here and fails, and so it does for all rows behind the atom
        rw [ha, ha'] at succeeds
        have fails : readyAt plan.goals plan.order check = hs.length ∧
            check.passes g f₁ = false := by
          simpa using succeeds
        have nothing : trials g (plan.and check) left f hs.length a = [none] := by
          unfold trials
          rw [ha']
        rw [nothing]
        apply Thins.spare_but_one (trials_ne_nil left f hs.length a)
        intro row hrow
        rw [rows_trials] at hrow
        obtain ⟨F, hs', hF, full, earlier, agrees, rfl⟩ :=
          ready.continues_of_mem_branch reached.of_and hlen ha hrow
        rw [keeps F hs' hF.toPlaced full, ← reached₁.toPlaced.and.passes_eq ready' hF.toPlaced.and
          earlier agrees mine (by rw [hlen']; exact Nat.lt_succ_of_le fails.1.le)]
        exact fails.2
      · rw [ha, ha'] at same
        dsimp only at same
        subst same
        have reached₂ := reached.attempt ready' hdepth ha'
        unfold trials
        rw [ha, ha']
        dsimp only
        by_cases hleft : left = 0
        · -- at the last depth every check has been made
          have full : (hs ++ [a]).length = plan.order.length := by omega
          have kept : keep (plan.rowOf f₂) = true := by
            rw [keeps f₂ _ reached₁.toPlaced full]
            apply reached₂.checks check mine
            rw [full]
            exact Ready.readyAt_lt (List.ne_nil_of_length_pos (Nat.zero_lt_of_lt hdepth)) check
          have row : (some (plan.rowOf f₂)).filter keep = some (plan.rowOf f₂) := by
            rw [Option.filter_some, kept, if_pos rfl]
          rw [if_pos hleft, if_pos hleft]
          have entry : Thins keep _ _ := .retry (some (plan.rowOf f₂)) .nil
          rw [row] at entry
          exact entry
        · rw [if_neg hleft, if_neg hleft, ← hlen']
          exact .retry none (ih reached₂ (by omega))

end Search

/-! ## Patterns with one constraint more -/

/-- The pattern with one constraint more. -/
def Pattern.and (p : Pattern) (c : Constraint) : Pattern := ⟨p.clauses, p.constraints ++ [c]⟩

namespace Graph

variable {c : Constraint} {plan' : Plan}

/-- **With one constraint more** the plan has one check more, unless it has nothing to search. -/
theorem compile_and (accepted : g.compile p = .ok plan)
    (accepted' : g.compile (p.and c) = .ok plan') :
    (plan.order = [] ∧ plan' = plan) ∨ ∃ check, plan' = plan.and check ∧
      g.types.compileConstraint plan.slots p.clauses.length c = .ok check := by
  obtain ⟨goals, slots, checks, hterms, hchecks, hplan⟩ := compile_parts accepted
  obtain ⟨goals', slots', checks', hterms', hchecks', hplan'⟩ := compile_parts accepted'
  have same : (goals', slots') = (goals, slots) := by
    rw [← Except.ok.injEq (ε := Refusal), ← hterms, ← hterms']
    rfl
  cases same
  rw [Pattern.and, List.mapM_append, Guards.bind_eq_ok] at hchecks'
  obtain ⟨first, hfirst, hchecks'⟩ := hchecks'
  obtain ⟨last, hlast, hboth⟩ := Guards.bind_eq_ok.mp hchecks'
  rw [List.mapM_cons, List.mapM_nil] at hlast
  obtain ⟨check, hcheck, hlast⟩ := Guards.bind_eq_ok.mp hlast
  cases hlast
  have both : checks' = checks ++ [check] := by
    have agree : first = checks := by
      rw [← Except.ok.injEq (ε := Refusal), ← hfirst]
      exact hchecks
    rw [← Guards.pure_eq_ok.mp hboth, agree]
  rcases hplan with ⟨hnone, rfl⟩ | ⟨xs, hne, rfl, rfl⟩
  · rcases hplan' with ⟨-, rfl⟩ | ⟨xs, hne, rfl, -⟩
    · exact .inl ⟨rfl, rfl⟩
    · rcases hnone with hnone | hnone
      · cases hnone
      · cases hnone
        exact absurd rfl hne
  · rcases hplan' with ⟨hnone, -⟩ | ⟨xs', -, heq, rfl⟩
    · rcases hnone with hnone | hnone
      · cases hnone
      · cases hnone
        exact absurd rfl hne
    · cases heq
      subst both
      exact .inr ⟨check, rfl, hcheck⟩

end Graph

/-! ## Rows that satisfy a constraint -/

section Decide

variable (values : String → Option Handle) (groundings : List Handle)

/-- Whether a condition holds of some values and groundings can be computed. -/
instance decidableConditionHolds (g : Graph digest) : (c : Condition) →
    Decidable (c.Holds g values groundings)
  | .truthAtLeast target minStrength minConfidence =>
    decidable_of_iff (((target.atom? values groundings).bind g.truth?).any
      (·.meets minStrength minConfidence) = true) (by
        rw [Condition.Holds]
        cases target.atom? values groundings with
        | none => simp
        | some h => cases hv : g.truth? h <;> simp [hv])
  | .typeIs target typeName withSubtypes =>
    decidable_of_iff (((target.atom? values groundings).bind g.content?).any (fun content =>
      (g.types.get? typeName).any fun type =>
        decide (content.type = type) || (withSubtypes && g.types.isA content.type type)) = true) (by
        rw [Condition.Holds]
        cases target.atom? values groundings with
        | none => simp
        | some h =>
          cases hc : g.content? h with
          | none => simp [hc]
          | some content => cases ht : g.types.get? typeName <;> simp [hc])
  | .distinct a b =>
    decidable_of_iff ((values a).any (fun x => (values b).any fun y => decide (x ≠ y)) = true) (by
        rw [Condition.Holds]
        cases values a <;> cases values b <;> simp)

/-- Whether a constraint holds of some values and groundings can be computed. -/
instance decidableConstraintHolds (g : Graph digest) : (c : Constraint) →
    Decidable (c.Holds g values groundings)
  | .condition c => decidableConditionHolds values groundings g c
  | .predicate p =>
    decidable_of_iff ((p.targets.mapM fun (target : Target) =>
      (target.atom? values groundings).bind g.seen?).any p.test = true) (by
        rw [Constraint.Holds]
        simp only [← Guards.mapM_eq_some]
        cases p.targets.mapM fun (target : Target) =>
          (target.atom? values groundings).bind g.seen? <;> simp)

end Decide

/-- Whether a row satisfies a constraint. -/
def Row.satisfies (row : Row) (g : Graph digest) (c : Constraint) : Bool :=
  decide (c.Holds g (fun name => row.values[name]?) row.groundings)

namespace Graph

variable {c : Constraint} {plan' : Plan}

/-- **To check early** is to filter at the end, and costs no more.  Without caps, the rows with the
constraint are those rows without it that satisfy it, in the same order.  Under a cap on steps, the
rows without it that satisfy it are the first rows with it; no more atoms are tried, and if the
search without it comes to its end within the cap, so does the one with it. -/
structure Narrows (g : Graph digest) (c : Constraint) (plan plan' : Plan) : Prop where
  rows : (Search.start g plan' .none).rows g
    = ((Search.start g plan .none).rows g).filter (·.satisfies g c)
  rows_within : ∀ cap, ((Search.start g plan ⟨none, cap⟩).rows g).filter (·.satisfies g c)
    <+: (Search.start g plan' ⟨none, cap⟩).rows g
  steps_within : ∀ cap, ((Search.start g plan' ⟨none, cap⟩).final g).steps
    ≤ ((Search.start g plan ⟨none, cap⟩).final g).steps
  ends_within : ∀ cap, ((Search.start g plan ⟨none, cap⟩).final g).exhausted = false →
    ((Search.start g plan' ⟨none, cap⟩).final g).exhausted = false

/-- Two plans compare as their logs do. -/
theorem narrows_of_thins (nodup : plan.order.Nodup) (nodup' : plan'.order.Nodup)
    (thins : Search.Thins (·.satisfies g c) (Search.allTrials g plan) (Search.allTrials g plan')) :
    g.Narrows c plan plan' := by
  have compared : ∀ cap, ((Search.start g plan ⟨none, cap⟩).tally g).Narrows (·.satisfies g c)
      ((Search.start g plan' ⟨none, cap⟩).tally g) := by
    intro cap
    rw [Search.tally_start nodup, Search.tally_start nodup']
    exact thins.narrows_budget cap le_rfl
  have whole := fun (plan : Plan) (nodup : plan.order.Nodup) =>
    (Search.tally_start (g := g) nodup none).trans (Search.budget_none 0 _)
  refine ⟨?_, fun cap => (compared cap).rows, fun cap => (compared cap).steps,
    fun cap => (compared cap).exhausted⟩
  have rows := congrArg Search.Tally.rows (whole plan nodup)
  have rows' := congrArg Search.Tally.rows (whole plan' nodup')
  exact rows'.trans (thins.rows_eq.trans (congrArg (List.filter _) rows.symm))

/-- Plans with nothing to search are narrowed by any constraint. -/
theorem narrows_of_order_nil (nothing : plan.order = []) (nothing' : plan'.order = []) :
    g.Narrows c plan plan' := by
  apply narrows_of_thins
  · rw [nothing]
    exact List.nodup_nil
  · rw [nothing']
    exact List.nodup_nil
  · rw [Search.allTrials, Search.allTrials, nothing, nothing']
    exact .nil

/-- The new check says of a frame at the end what the new constraint says of its row. -/
theorem satisfies_rowOf (hc : Compiled g p plan) {check : Check}
    (hcheck : g.types.compileConstraint plan.slots p.clauses.length c = .ok check) (f : Frame)
    (hs : List Handle) (placed : plan.Placed g f hs) (full : hs.length = plan.order.length) :
    (plan.rowOf f).satisfies g c = check.passes g f := by
  have named : (fun name => (plan.rowOf f).values[name]?) = valueOf plan.slots f.binding? :=
    funext (Plan.getElem?_values hc.describes.nodup f)
  rw [Row.satisfies, Bool.eq_iff_iff, decide_eq_true_iff, named]
  exact (passes_iff_holds (hc.shows_of_full placed full) hcheck).symm

/-- **A constraint more** narrows a search, in every reachable graph and for every pattern that is
accepted with and without it. -/
theorem Reachable.narrows (hg : g.Reachable) (accepted : g.compile p = .ok plan)
    (accepted' : g.compile (p.and c) = .ok plan') : g.Narrows c plan plan' := by
  rcases compile_and accepted accepted' with ⟨hnil, rfl⟩ | ⟨check, rfl, hcheck⟩
  · exact narrows_of_order_nil hnil hnil
  · rcases compile_eq_ok hg.covered accepted with ⟨hnil, -⟩ | hc
    · exact narrows_of_order_nil hnil hnil
    · have known : ∀ source ∈ check.sources, plan.Knows source := by
        rw [← hc.length] at hcheck
        exact knows_of_compileConstraint hcheck
      have ready' := hc.ready.and known
      apply narrows_of_thins hc.ready.nodup ready'.nodup
      have empty : plan.and check |>.Reached g (Frame.empty plan) [] := Plan.reached_empty
      exact Search.thins_log hc.ready ready' (satisfies_rowOf hc hcheck) empty (Nat.zero_add _)

/-- Two links in a row, the first of them not from an atom to itself: the constraint is checked
before the second link is looked for, and spares three trials. -/
theorem narrows_of_distinct :
    let g := (empty : Graph fun _ => 0).run
      [.addNode "Node" "a", .addNode "Node" "b", .addLink "Link" [⟨0⟩, ⟨0⟩],
        .addLink "Link" [⟨0⟩, ⟨1⟩], .addLink "Link" [⟨1⟩, ⟨0⟩]]
    let p : Pattern := ⟨[.link "Link" [.var ⟨"x", none⟩, .var ⟨"y", none⟩],
      .link "Link" [.var ⟨"y", none⟩, .var ⟨"z", none⟩]], []⟩
    let c : Constraint := .condition (.distinct "x" "y")
    ∃ plan plan', g.compile p = .ok plan ∧ g.compile (p.and c) = .ok plan' ∧
      g.Narrows c plan plan' ∧
      ((Search.allRows g plan).length, (Search.allTrials g plan).length) = (5, 11) ∧
      ((Search.allRows g plan').length, (Search.allTrials g plan').length) = (3, 8) := by
  intro g p c
  let plan : Plan := ((g.compile p).toOption).getD (.hopeless [])
  let plan' : Plan := ((g.compile (p.and c)).toOption).getD (.hopeless [])
  have accepted : g.compile p = .ok plan := rfl
  have accepted' : g.compile (p.and c) = .ok plan' := rfl
  refine ⟨plan, plan', accepted, accepted', Reachable.narrows ⟨_, rfl⟩ accepted accepted', ?_, ?_⟩
  · decide +kernel
  · decide +kernel

end Graph

end TypedHypergraph
