/-
# What lies ahead of a search

The rows of a plan as a recursion over its depths, without stack and without going back
(`Search.solve`), and the machine that runs.  What lies ahead of a search that stands between two
turns can be read off its stack (`Search.ahead`): for each level, the rows behind the atoms that
have not been tried.  A turn leaves it as it is, or takes its first row away (`Search.ahead_turn`),
so that a search hands out the rows of the recursion, one after the other (`Search.rows_start`).

What makes this work is that the frame of a level can always be found again (`Search.Settled`).
-/
import TypedHypergraph.Proofs.Asking
import TypedHypergraph.Proofs.Frames
import TypedHypergraph.Proofs.Turns

namespace TypedHypergraph

namespace Search

variable {digest : Content → UInt64} {g : Graph digest} {plan : Plan}

/-! ## The recursion -/

/-- The rows from a depth on, with a number of depths left. -/
def solve (g : Graph digest) (plan : Plan) : Nat → Frame → Nat → List Row
  | 0, _, _ => []
  | left + 1, f, depth =>
    (candidatesAt g plan f depth).flatMap fun h =>
      match attempt g plan f depth h with
      | (true, f') => if left = 0 then [plan.rowOf f'] else solve g plan left f' (depth + 1)
      | (false, _) => []

/-- The rows behind one atom, with a number of depths left below it. -/
def branch (g : Graph digest) (plan : Plan) (left : Nat) (f : Frame) (depth : Nat) (h : Handle) :
    List Row :=
  match attempt g plan f depth h with
  | (true, f') => if left = 0 then [plan.rowOf f'] else solve g plan left f' (depth + 1)
  | (false, _) => []

/-- The solutions below a depth are those behind each candidate, in the order of the candidates. -/
theorem solve_succ (left : Nat) (f : Frame) (depth : Nat) :
    solve g plan (left + 1) f depth
      = (candidatesAt g plan f depth).flatMap (branch g plan left f depth) := rfl

/-! ## What lies ahead -/

/-- The rows that lie ahead of a stack and a frame. -/
def ahead (g : Graph digest) (plan : Plan) : List ChoicePoint → Frame → List Row
  | [], _ => []
  | ⟨remaining, mark⟩ :: below, f =>
    remaining.flatMap (branch g plan (plan.order.length - (below.length + 1))
      (retreat plan f below.length mark) below.length) ++
    ahead g plan below (retreat plan f below.length mark)

/-- From a depth on no clause has matched. -/
def Tidy (plan : Plan) (f : Frame) (depth : Nat) : Prop :=
  ∀ e clause, depth ≤ e → plan.order[e]? = some clause → f.grounding? clause = none

/-- Every level of a stack finds the frame again in which it was entered. -/
def Settled (plan : Plan) : List ChoicePoint → Frame → Prop
  | [], _ => True
  | ⟨_, mark⟩ :: below, f =>
    below.length < plan.order.length ∧
      (retreat plan f below.length mark).trail.length = mark ∧
      Tidy plan (retreat plan f below.length mark) below.length ∧
      Settled plan below (retreat plan f below.length mark)

/-- A clause that has matched leaves the depths below it free. -/
theorem Tidy.attempt (nodup : plan.order.Nodup) {f f' : Frame} {depth : Nat} {h : Handle}
    (tidy : Tidy plan f depth) (hdepth : depth < plan.order.length)
    (ha : attempt g plan f depth h = (true, f')) : Tidy plan f' (depth + 1) := by
  intro e clause he hclause
  have free := tidy e clause (by omega) hclause
  have hc := List.getElem?_eq_getElem hdepth
  cases hgoal : plan.goalAt? depth with
  | none =>
    rw [Search.attempt, hc, hgoal] at ha
    cases ha
  | some goal =>
    rw [attempt_eq hc hgoal] at ha
    have binds := Graph.binds_unify (g := g) plan.slots goal f h
    rcases hu : g.unify plan.slots f goal h with ⟨_ | _, f₁⟩
    · rw [hu] at ha
      cases ha
    · rw [hu] at ha binds
      simp only [Prod.mk.injEq] at ha
      -- no clause is searched at two depths
      have hne : plan.order[depth] ≠ clause := by
        intro heq
        have hne' := List.nodup_iff_getElem?_ne_getElem?.mp nodup depth e (by omega)
          (List.getElem?_eq_some_iff.mp hclause).1
        rw [hc, hclause, heq] at hne'
        exact hne' rfl
      rw [← ha.2, Frame.grounding?_ground, if_neg (fun hboth => hne hboth.1), Frame.grounding?,
        binds.groundings]
      exact free

/-- A level that is entered finds its frame where it stands. -/
theorem retreat_self {f : Frame} {depth : Nat} (tidy : Tidy plan f depth) :
    retreat plan f depth f.trail.length = f := by
  unfold retreat
  cases hc : plan.order[depth]? with
  | none => exact Frame.undoTo_self f
  | some clause =>
    dsimp only
    rw [Frame.undoTo_self, Frame.unground_self (tidy depth clause le_rfl hc)]

/-! ## One turn -/

/-- What lies ahead of a stack is what is left to try on top, and then what lies ahead of the rest.
-/
theorem ahead_cons (remaining : List Handle) (mark : Nat) (below : List ChoicePoint) (f : Frame) :
    ahead g plan (⟨remaining, mark⟩ :: below) f
      = remaining.flatMap (branch g plan (plan.order.length - (below.length + 1))
          (retreat plan f below.length mark) below.length) ++
        ahead g plan below (retreat plan f below.length mark) := rfl

/-- **To enter a level** is to have the rows of the recursion ahead. -/
theorem ahead_enter {f : Frame} (below : List ChoicePoint) (tidy : Tidy plan f below.length)
    (hdepth : below.length < plan.order.length) :
    ahead g plan (⟨candidatesAt g plan f below.length, f.trail.length⟩ :: below) f
      = solve g plan (plan.order.length - below.length) f below.length
          ++ ahead g plan below f := by
  -- there is a level below, so that the recursion takes a step
  obtain ⟨left, hleft⟩ : ∃ left, plan.order.length - below.length = left + 1 :=
    ⟨plan.order.length - (below.length + 1), by omega⟩
  have hleft' : plan.order.length - (below.length + 1) = left := by omega
  rw [ahead_cons, retreat_self tidy, hleft, solve_succ, hleft']

/-- A stack stays settled when a tidy depth is entered. -/
theorem settled_enter {f : Frame} (below : List ChoicePoint) (tidy : Tidy plan f below.length)
    (hdepth : below.length < plan.order.length) (settled : Settled plan below f)
    (remaining : List Handle) : Settled plan (⟨remaining, f.trail.length⟩ :: below) f := by
  rw [Settled, retreat_self tidy]
  exact ⟨hdepth, rfl, tidy, settled⟩

/-- **To try an atom** is to leave the rows behind it, and the level finds its frame again. -/
theorem ahead_try {f : Frame} {h : Handle} {rest : List Handle} {mark : Nat}
    {below : List ChoicePoint} (settled : Settled plan (⟨h :: rest, mark⟩ :: below) f) :
    let frame := retreat plan f below.length mark
    let tried := attempt g plan frame below.length h
    retreat plan tried.2 below.length mark = frame ∧
      Settled plan (⟨rest, mark⟩ :: below) tried.2 ∧
      ahead g plan (⟨h :: rest, mark⟩ :: below) f
        = branch g plan (plan.order.length - (below.length + 1)) frame below.length h ++
          ahead g plan (⟨rest, mark⟩ :: below) tried.2 := by
  intro frame tried
  obtain ⟨hdepth, hmark, tidy, hbelow⟩ := settled
  have hc := List.getElem?_eq_getElem hdepth
  have back : retreat plan tried.2 below.length mark = frame := by
    have := retreat_attempt (g := g) hc (tidy _ _ le_rfl hc) h
    rw [hmark] at this
    exact this
  refine ⟨back, ?_, ?_⟩
  · rw [Settled, back]
    exact ⟨hdepth, hmark, tidy, hbelow⟩
  · rw [ahead_cons, ahead_cons, back, List.flatMap_cons, List.append_assoc]

/-- What a turn may do to what lies ahead. -/
def Keeps (g : Graph digest) (s : Search plan) : Turn plan → Prop
  | .onward s' => s'.done = s.done ∧ Settled plan s'.stack s'.frame ∧
      ahead g plan s.stack s.frame = ahead g plan s'.stack s'.frame
  | .row r s' => s'.done = s.done ∧ Settled plan s'.stack s'.frame ∧
      ahead g plan s.stack s.frame = r :: ahead g plan s'.stack s'.frame
  | .over _ => ahead g plan s.stack s.frame = []

/-- **A turn** leaves what lies ahead as it is, or takes its first row away. -/
theorem ahead_turn (nodup : plan.order.Nodup) {s : Search plan} (free : s.caps = .none)
    (settled : Settled plan s.stack s.frame) : Keeps g s (s.turn g) := by
  rcases hs : s.stack with _ | ⟨⟨_ | ⟨h, rest⟩, mark⟩, below⟩
  · rw [turn_of_nil g hs, Keeps, hs, ahead]
  · rw [turn_of_close g hs]
    rw [hs, Settled] at settled
    have rows : ahead g plan s.stack s.frame
        = ahead g plan below (retreat plan s.frame below.length mark) := by
      rw [hs, ahead_cons]
      rfl
    cases below with
    | nil => exact rows
    | cons c below => exact ⟨rfl, settled.2.2.2, rows⟩
  · rw [hs] at settled
    have hb : beyond s.caps.steps (s.steps + 1) = false := by
      rw [free]
      rfl
    rw [turn_of_within g hs hb]
    obtain ⟨-, again, rows⟩ := ahead_try (g := g) settled
    obtain ⟨hdepth, -, tidy, -⟩ := settled
    rw [← hs, branch] at rows
    rcases ha : attempt g plan (retreat plan s.frame below.length mark) below.length h with
      ⟨_ | _, f'⟩
    · -- the atom does not fit
      rw [ha] at rows again
      exact ⟨rfl, again, rows⟩
    · rw [ha] at rows again
      unfold tried
      dsimp only at rows ⊢
      by_cases hlast : plan.order.length ≤ below.length + 1
      · -- it fits at the last depth: here is a row
        rw [if_pos hlast]
        rw [if_pos (by omega)] at rows
        exact ⟨rfl, again, rows⟩
      · -- it fits, and the search goes down
        rw [if_neg hlast]
        rw [if_neg (by omega)] at rows
        have tidy' := tidy.attempt nodup hdepth ha
        have hdepth' : below.length + 1 < plan.order.length := by omega
        refine ⟨rfl, settled_enter (⟨rest, mark⟩ :: below) tidy' hdepth' again _, ?_⟩
        rw [rows]
        exact (ahead_enter (⟨rest, mark⟩ :: below) tidy' hdepth').symm

/-! ## All turns -/

/-- Up to the next row, or to the end. -/
theorem ahead_pull (nodup : plan.order.Nodup) {s : Search plan} (free : s.caps = .none)
    (settled : Settled plan s.stack s.frame) :
    match s.pull g with
    | (some r, s') => s'.done = s.done ∧ Settled plan s'.stack s'.frame ∧
        ahead g plan s.stack s.frame = r :: ahead g plan s'.stack s'.frame
    | (none, _) => ahead g plan s.stack s.frame = [] := by
  fun_induction pull g s with
  | case1 s s₁ h₁ ih =>
    have kept := ahead_turn (g := g) nodup free settled
    have follows := follows_of_turn (g := g) (s := s) (by rw [free]; rfl)
    rw [h₁] at kept follows
    obtain ⟨hdone, hsettled, hrows⟩ := kept
    rw [hrows, ← hdone]
    exact ih (follows.caps.trans free) hsettled
  | case2 s r s₁ h₁ =>
    have kept := ahead_turn (g := g) nodup free settled
    rw [h₁] at kept
    exact kept
  | case3 s s₁ h₁ =>
    have kept := ahead_turn (g := g) nodup free settled
    rw [h₁] at kept
    exact kept

/-- **The rows of a search** are those that lie ahead of it. -/
theorem rows_eq_ahead (nodup : plan.order.Nodup) {s : Search plan} (free : s.caps = .none)
    (live : s.done = false) (settled : Settled plan s.stack s.frame) :
    s.rows g = ahead g plan s.stack s.frame := by
  induction s using rows_induction (g := g) with
  | ended s s' h =>
    have kept := ahead_pull (g := g) nodup free settled
    rw [← next_eq_pull free live, h] at kept
    rw [rows_of_none h]
    exact kept.symm
  | more s r s' h ih =>
    have kept := ahead_pull (g := g) nodup free settled
    have follows := follows_of_pull (g := g) (s := s) (by rw [free]; rfl)
    rw [← next_eq_pull free live, h] at kept follows
    obtain ⟨hdone, hsettled, hrows⟩ := kept
    rw [rows_of_some h, hrows, ih (follows.caps.trans free) (hdone.trans live) hsettled]

/-! ## From the beginning -/

/-- All rows of a plan. -/
def allRows (g : Graph digest) (plan : Plan) : List Row :=
  solve g plan plan.order.length (Frame.empty plan) 0

/-- A plan is not empty exactly if it has a depth to search. -/
theorem isEmpty_eq_false {plan : Plan} : plan.isEmpty = false ↔ 0 < plan.order.length := by
  rw [Plan.isEmpty, List.isEmpty_eq_false_iff, List.length_pos_iff]

/-- Before the first turn all rows of a plan lie ahead. -/
theorem ahead_start (caps : Caps) (hne : plan.isEmpty = false) :
    Settled plan (start g plan caps).stack (start g plan caps).frame ∧
      ahead g plan (start g plan caps).stack (start g plan caps).frame = allRows g plan := by
  have hstack : (start g plan caps).stack
      = [⟨candidatesAt g plan (Frame.empty plan) 0, 0⟩] := by
    show (if plan.isEmpty then [] else _) = _
    rw [hne, if_neg Bool.false_ne_true]
  have hpos := isEmpty_eq_false.mp hne
  have tidy : Tidy plan (Frame.empty plan) 0 := fun _ c _ _ => grounding?_empty plan c
  rw [hstack]
  exact ⟨settled_enter [] tidy hpos trivial _, (ahead_enter [] tidy hpos).trans (List.append_nil _)⟩

/-- **The rows of a plan** are those of the recursion. -/
theorem rows_start (nodup : plan.order.Nodup) : (start g plan .none).rows g = allRows g plan := by
  cases hempty : plan.isEmpty with
  | true =>
    have hdone : (start g plan .none).done = true := hempty
    have hlen : plan.order.length = 0 := List.length_eq_zero_iff.mpr (List.isEmpty_iff.mp hempty)
    rw [rows_of_none (next_of_done hdone), allRows, hlen]
    rfl
  | false =>
    obtain ⟨settled, rows⟩ := ahead_start (g := g) .none hempty
    rw [rows_eq_ahead nodup rfl hempty settled, rows]

end Search

end TypedHypergraph
