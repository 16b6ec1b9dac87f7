/-
# The trials of a search

A search tries one atom after the other, and with some of them it finds a row.  Its *log* has an
entry for each trial: the row that was found, or nothing (`Search.log`).  Like its rows the log of a
plan is a recursion over the depths; what lies ahead of a search that stands between two turns can
be read off its stack (`Search.logAhead`), and each turn takes at most one entry away
(`Search.fulfils_turn`).

A search with a cap on its steps reads the log until its steps are used up, and then one entry
further (`Search.budget`, `Search.tally_start`).
-/
import TypedHypergraph.Proofs.Backtracking

namespace TypedHypergraph

namespace Search

variable {digest : Content → UInt64} {g : Graph digest} {plan : Plan}

/-! ## The log -/

/-- The trials from a depth on, with a number of depths left. -/
def log (g : Graph digest) (plan : Plan) : Nat → Frame → Nat → List (Option Row)
  | 0, _, _ => []
  | left + 1, f, depth =>
    (candidatesAt g plan f depth).flatMap fun h =>
      match attempt g plan f depth h with
      | (true, f') =>
        if left = 0 then [some (plan.rowOf f')] else none :: log g plan left f' (depth + 1)
      | (false, _) => [none]

/-- The trial of an atom and those behind it, with a number of depths left below. -/
def trials (g : Graph digest) (plan : Plan) (left : Nat) (f : Frame) (depth : Nat) (h : Handle) :
    List (Option Row) :=
  match attempt g plan f depth h with
  | (true, f') =>
    if left = 0 then [some (plan.rowOf f')] else none :: log g plan left f' (depth + 1)
  | (false, _) => [none]

/-- The log below a depth is that of the trials of its candidates. -/
theorem log_succ (left : Nat) (f : Frame) (depth : Nat) :
    log g plan (left + 1) f depth
      = (candidatesAt g plan f depth).flatMap (trials g plan left f depth) := rfl

/-- If the logs below show the solutions there, then a trial shows those behind its candidate. -/
theorem rows_trials_of {left : Nat} (below : ∀ (f : Frame) (depth : Nat),
      (log g plan left f depth).filterMap id = solve g plan left f depth)
    (f : Frame) (depth : Nat) (h : Handle) :
    (trials g plan left f depth h).filterMap id = branch g plan left f depth h := by
  unfold trials branch
  rcases attempt g plan f depth h with ⟨_ | _, f'⟩
  · rfl
  · dsimp only
    by_cases hleft : left = 0
    · rw [if_pos hleft, if_pos hleft]
      rfl
    · rw [if_neg hleft, if_neg hleft, List.filterMap_cons_none rfl, below]

/-- **The rows of the log** are the rows of the recursion. -/
theorem rows_log (left : Nat) (f : Frame) (depth : Nat) :
    (log g plan left f depth).filterMap id = solve g plan left f depth := by
  induction left generalizing f depth with
  | zero => rfl
  | succ left ih =>
    rw [log_succ, solve_succ, List.filterMap_flatMap]
    exact List.flatMap_congr fun h _ => rows_trials_of ih f depth h

/-- The rows in the log of a trial are the solutions behind its candidate. -/
theorem rows_trials (left : Nat) (f : Frame) (depth : Nat) (h : Handle) :
    (trials g plan left f depth h).filterMap id = branch g plan left f depth h :=
  rows_trials_of (rows_log left) f depth h

/-- Each trial leaves an entry in the log. -/
theorem trials_ne_nil (left : Nat) (f : Frame) (depth : Nat) (h : Handle) :
    trials g plan left f depth h ≠ [] := by
  unfold trials
  rcases attempt g plan f depth h with ⟨_ | _, f'⟩
  · exact List.cons_ne_nil _ _
  · dsimp only
    split <;> exact List.cons_ne_nil _ _

/-! ## What lies ahead -/

/-- The trials that lie ahead of a stack and a frame. -/
def logAhead (g : Graph digest) (plan : Plan) : List ChoicePoint → Frame → List (Option Row)
  | [], _ => []
  | ⟨remaining, mark⟩ :: below, f =>
    remaining.flatMap (trials g plan (plan.order.length - (below.length + 1))
      (retreat plan f below.length mark) below.length) ++
    logAhead g plan below (retreat plan f below.length mark)

/-- The log ahead of a stack is that of what is left to try on top, and then that of the rest. -/
theorem logAhead_cons (remaining : List Handle) (mark : Nat) (below : List ChoicePoint)
    (f : Frame) : logAhead g plan (⟨remaining, mark⟩ :: below) f
      = remaining.flatMap (trials g plan (plan.order.length - (below.length + 1))
          (retreat plan f below.length mark) below.length) ++
        logAhead g plan below (retreat plan f below.length mark) := rfl

/-- To enter a level is to have its trials ahead. -/
theorem logAhead_enter {f : Frame} (below : List ChoicePoint) (tidy : Tidy plan f below.length)
    (hdepth : below.length < plan.order.length) :
    logAhead g plan (⟨candidatesAt g plan f below.length, f.trail.length⟩ :: below) f
      = log g plan (plan.order.length - below.length) f below.length
          ++ logAhead g plan below f := by
  obtain ⟨left, hleft⟩ : ∃ left, plan.order.length - below.length = left + 1 :=
    ⟨plan.order.length - (below.length + 1), by omega⟩
  have hleft' : plan.order.length - (below.length + 1) = left := by omega
  rw [logAhead_cons, retreat_self tidy, hleft, log_succ, hleft']

/-- To try an atom is to leave the trials behind it. -/
theorem logAhead_try {f : Frame} {h : Handle} {rest : List Handle} {mark : Nat}
    {below : List ChoicePoint} (settled : Settled plan (⟨h :: rest, mark⟩ :: below) f) :
    logAhead g plan (⟨h :: rest, mark⟩ :: below) f
      = trials g plan (plan.order.length - (below.length + 1))
          (retreat plan f below.length mark) below.length h ++
        logAhead g plan (⟨rest, mark⟩ :: below)
          (attempt g plan (retreat plan f below.length mark) below.length h).2 := by
  obtain ⟨back, -⟩ := ahead_try (g := g) settled
  rw [logAhead_cons, logAhead_cons, back, List.flatMap_cons, List.append_assoc]

/-! ## Reading the log under a cap -/

/-- What comes of a search: its rows, the number of atoms tried, and whether it had to stop. -/
structure Tally where
  rows : List Row
  steps : Nat
  exhausted : Bool

/-- Read a log after a number of steps.  The entry that goes beyond the cap is counted, but not
read. -/
def budget (cap : Option Nat) (steps : Nat) : List (Option Row) → Tally
  | [] => ⟨[], steps, false⟩
  | entry :: log =>
    if beyond cap (steps + 1) then ⟨[], steps + 1, true⟩
    else
      let rest := budget cap (steps + 1) log
      { rest with rows := entry.toList ++ rest.rows }

/-- What will come of a search, read off its stack. -/
def foreseen (g : Graph digest) (s : Search plan) : Tally :=
  budget s.caps.steps s.steps (logAhead g plan s.stack s.frame)

/-- An entry beyond the cap stops the search, and counts as a step. -/
theorem budget_beyond {cap : Option Nat} {steps : Nat} {entry : Option Row}
    {log : List (Option Row)} (hb : beyond cap (steps + 1) = true) :
    budget cap steps (entry :: log) = ⟨[], steps + 1, true⟩ := by
  rw [budget, if_pos hb]

/-- An entry within the cap gives its row, if it has one, and the rest goes on with one step more.
-/
theorem budget_within {cap : Option Nat} {steps : Nat} {entry : Option Row}
    {log : List (Option Row)} (hb : beyond cap (steps + 1) = false) :
    budget cap steps (entry :: log) =
      { budget cap (steps + 1) log with
        rows := entry.toList ++ (budget cap (steps + 1) log).rows } := by
  rw [budget, hb, if_neg Bool.false_ne_true]

/-! ## One turn -/

/-- A search has gone on, and its levels still find their frames. -/
structure GoesOn (s s' : Search plan) : Prop where
  done : s'.done = s.done
  caps : s'.caps = s.caps
  exhausted : s'.exhausted = s.exhausted
  settled : Settled plan s'.stack s'.frame

/-- What a turn may do to what is foreseen. -/
def Fulfils (g : Graph digest) (s : Search plan) : Turn plan → Prop
  | .onward s' => GoesOn s s' ∧ foreseen g s = foreseen g s'
  | .row r s' =>
    GoesOn s s' ∧ foreseen g s = { foreseen g s' with rows := r :: (foreseen g s').rows }
  | .over s' => foreseen g s = ⟨[], s'.steps, s'.exhausted⟩

/-- **A turn** takes at most one entry of the log away. -/
theorem fulfils_turn (nodup : plan.order.Nodup) {s : Search plan} (calm : s.exhausted = false)
    (settled : Settled plan s.stack s.frame) : Fulfils g s (s.turn g) := by
  rcases hs : s.stack with _ | ⟨⟨_ | ⟨h, rest⟩, mark⟩, below⟩
  · rw [turn_of_nil g hs, Fulfils, foreseen, hs, logAhead, budget, calm]
  · rw [turn_of_close g hs]
    rw [hs, Settled] at settled
    have same : logAhead g plan s.stack s.frame
        = logAhead g plan below (retreat plan s.frame below.length mark) := by
      rw [hs, logAhead_cons]
      rfl
    cases below with
    | nil =>
      rw [if_pos List.isEmpty_nil, Fulfils, foreseen, same, logAhead, budget, calm]
    | cons c below =>
      refine ⟨⟨rfl, rfl, rfl, settled.2.2.2⟩, ?_⟩
      rw [foreseen, same]
      rfl
  · rw [hs] at settled
    obtain ⟨-, again, -⟩ := ahead_try (g := g) settled
    have entries := logAhead_try (g := g) settled
    obtain ⟨hdepth, -, tidy, -⟩ := settled
    cases hb : beyond s.caps.steps (s.steps + 1) with
    | true =>
      -- the atom is counted, whatever would come of it
      obtain ⟨entry, log, hlog⟩ : ∃ entry log, logAhead g plan s.stack s.frame = entry :: log := by
        rw [hs, entries]
        exact List.exists_cons_of_ne_nil
          (List.append_ne_nil_of_left_ne_nil (trials_ne_nil _ _ _ h) _)
      rw [turn_of_beyond g hs hb, Fulfils, foreseen, hlog, budget_beyond hb]
    | false =>
      unfold trials at entries
      rw [turn_of_within g hs hb]
      rcases ha : attempt g plan (retreat plan s.frame below.length mark) below.length h with
        ⟨_ | _, f'⟩
      · -- the atom does not fit
        rw [ha] at entries again
        refine ⟨⟨rfl, rfl, rfl, again⟩, ?_⟩
        rw [foreseen, hs, entries, List.singleton_append, budget_within hb]
        rfl
      · rw [ha] at entries again
        unfold tried
        dsimp only at entries ⊢
        by_cases hlast : plan.order.length ≤ below.length + 1
        · -- it fits at the last depth: the entry is a row
          rw [if_pos hlast]
          rw [if_pos (by omega)] at entries
          refine ⟨⟨rfl, rfl, rfl, again⟩, ?_⟩
          rw [foreseen, hs, entries, List.singleton_append, budget_within hb]
          rfl
        · -- it fits, and the trials of the next depth follow
          rw [if_neg hlast]
          rw [if_neg (by omega)] at entries
          have tidy' := tidy.attempt nodup hdepth ha
          have hdepth' : below.length + 1 < plan.order.length := by omega
          refine ⟨⟨rfl, rfl, rfl, settled_enter (⟨rest, mark⟩ :: below) tidy' hdepth' again _⟩, ?_⟩
          have entered := logAhead_enter (g := g) (⟨rest, mark⟩ :: below) tidy' hdepth'
          rw [foreseen, hs, entries, List.cons_append, budget_within hb]
          rw [List.length_cons] at entered
          rw [← entered]
          rfl

/-! ## All turns -/

/-- Up to the next row, or to the end. -/
theorem fulfils_pull (nodup : plan.order.Nodup) {s : Search plan} (calm : s.exhausted = false)
    (settled : Settled plan s.stack s.frame) :
    match s.pull g with
    | (some r, s') => Fulfils g s (.row r s')
    | (none, s') => Fulfils g s (.over s') := by
  fun_induction pull g s with
  | case1 s s₁ h₁ ih =>
    have kept := fulfils_turn (g := g) nodup calm settled
    rw [h₁] at kept
    obtain ⟨on, same⟩ := kept
    have rest := ih (on.exhausted.trans calm) on.settled
    rcases hp : s₁.pull g with ⟨_ | r, s₂⟩
    · rw [hp] at rest
      exact same.trans rest
    · rw [hp] at rest
      obtain ⟨on', same'⟩ := rest
      exact ⟨⟨on'.done.trans on.done, on'.caps.trans on.caps, on'.exhausted.trans on.exhausted,
        on'.settled⟩, same.trans same'⟩
  | case2 s r s₁ h₁ =>
    have kept := fulfils_turn (g := g) nodup calm settled
    rw [h₁] at kept
    exact kept
  | case3 s s₁ h₁ =>
    have kept := fulfils_turn (g := g) nodup calm settled
    rw [h₁] at kept
    exact kept

/-- What comes of a search. -/
def tally (g : Graph digest) (s : Search plan) : Tally :=
  ⟨s.rows g, (s.final g).steps, (s.final g).exhausted⟩

/-- **What is foreseen** comes of a search, if it may find as many rows as there are. -/
theorem tally_eq_foreseen (nodup : plan.order.Nodup) {s : Search plan}
    (unlimited : s.caps.results = none) (live : s.done = false) (calm : s.exhausted = false)
    (settled : Settled plan s.stack s.frame) : s.tally g = foreseen g s := by
  have pulls : ∀ {s : Search plan}, s.caps.results = none → s.done = false →
      s.next g = s.pull g := by
    intro s unlimited live
    have hfull : s.full = false := by
      rw [full, unlimited]
    rw [next, live, hfull, if_neg Bool.false_ne_true, if_neg Bool.false_ne_true]
  induction s using rows_induction (g := g) with
  | ended s s' h =>
    have kept := fulfils_pull (g := g) nodup calm settled
    rw [← pulls unlimited live, h] at kept
    rw [tally, rows_of_none h, final_of_none h]
    exact kept.symm
  | more s r s' h ih =>
    have kept := fulfils_pull (g := g) nodup calm settled
    rw [← pulls unlimited live, h] at kept
    obtain ⟨on, same⟩ := kept
    have rest := ih (by rw [on.caps, unlimited]) (on.done.trans live) (on.exhausted.trans calm)
      on.settled
    rw [same, ← rest, tally, rows_of_some h, final_of_some h]
    rfl

/-! ## From the beginning -/

/-- All trials of a plan. -/
def allTrials (g : Graph digest) (plan : Plan) : List (Option Row) :=
  log g plan plan.order.length (Frame.empty plan) 0

/-- **What comes of a plan** under a cap on steps is what is read of all its trials. -/
theorem tally_start (nodup : plan.order.Nodup) (cap : Option Nat) :
    (start g plan ⟨none, cap⟩).tally g = budget cap 0 (allTrials g plan) := by
  cases hempty : plan.isEmpty with
  | true =>
    have hdone : (start g plan ⟨none, cap⟩).done = true := hempty
    have hlen : plan.order.length = 0 := List.length_eq_zero_iff.mpr (List.isEmpty_iff.mp hempty)
    rw [tally, rows_of_none (next_of_done hdone), final_of_none (next_of_done hdone), allTrials,
      hlen]
    rfl
  | false =>
    have hpos := isEmpty_eq_false.mp hempty
    have tidy : Tidy plan (Frame.empty plan) 0 := fun _ c _ _ => grounding?_empty plan c
    have hstack : (start g plan ⟨none, cap⟩).stack
        = [⟨candidatesAt g plan (Frame.empty plan) 0, 0⟩] := by
      show (if plan.isEmpty then [] else _) = _
      rw [hempty, if_neg Bool.false_ne_true]
    have settled : Settled plan (start g plan ⟨none, cap⟩).stack
        (start g plan ⟨none, cap⟩).frame := (ahead_start (g := g) _ hempty).1
    rw [tally_eq_foreseen nodup rfl hempty rfl settled, foreseen, hstack]
    have entered := logAhead_enter (g := g) [] tidy hpos
    rw [logAhead, List.append_nil] at entered
    exact congrArg (budget cap 0) entered

end Search

end TypedHypergraph
