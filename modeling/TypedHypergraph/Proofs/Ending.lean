/-
# How soon a search ends

No level of a search has more atoms to be tried than there are atoms in the graph
(`Plan.Placed.length_candidatesAt_le`), and there are never more levels than clauses.  What can
still be tried at most (`Shape.outstanding`) is paid for atom by atom, so that a search through `n`
clauses in a graph of `N` atoms tries at most `N + N ^ 2 + ⋯ + N ^ n` atoms, under any caps and
whatever truth values are updated in between (`Search.Course.budgeted`).  Cycles and long chains in
the graph do not matter, since there are no more levels for them.

Whoever asks for rows again and again (`Search.asking`) gets an answer each time, and after some
time none any more (`Graph.Reachable.searchEnds`).
-/
import TypedHypergraph.Proofs.Completeness
import TypedHypergraph.Proofs.Course

namespace TypedHypergraph

variable {digest : Content → UInt64} {g m now : Graph digest} {p : Pattern} {plan : Plan}

/-! ## Few candidates -/

/-- **No level** has more atoms to be tried than there are. -/
theorem Plan.Placed.length_candidatesAt_le (hg : g.Coherent) {f : Frame} {hs : List Handle}
    (placed : plan.Placed g f hs) (depth : Nat) :
    (Search.candidatesAt g plan f depth).length ≤ g.size := by
  unfold Search.candidatesAt
  cases plan.goalAt? depth with
  | none => exact Nat.zero_le _
  | some goal =>
    rw [← Graph.length_handles]
    -- each stored atom is tried once at most
    have nodup : (g.candidates plan.slots f goal).Nodup :=
      nodup_of_ascending (Graph.ascending_candidates goal)
    refine (List.subperm_of_subset nodup ?_).length_le
    intro h hh
    exact Graph.mem_handles.mpr (hg.contains_of_mem_candidates placed.suits hh)

/-! ## What can still be tried -/

namespace Search

/-- How many atoms can be tried at a number of levels below each other, if no level has more than a
certain number of atoms. -/
def reach (width : Nat) : Nat → Nat
  | 0 => 0
  | levels + 1 => width * (reach width levels + 1)

/-- The bound on steps is a sum of powers, one for each level of the search. -/
theorem reach_eq_sum (width levels : Nat) :
    reach width levels = ∑ i ∈ Finset.range levels, width ^ (i + 1) := by
  induction levels with
  | zero => rfl
  | succ levels ih =>
    rw [reach, ih, Finset.sum_range_succ', mul_add, Finset.mul_sum, zero_add, pow_one, mul_one]
    congr 1
    apply Finset.sum_congr rfl
    intro i _
    rw [pow_succ' width (i + 1)]

/-- How many atoms can still be tried: those of each level, and for each of them what can be reached
below it. -/
def outstanding (width levels : Nat) : List ChoicePoint → Nat
  | [] => 0
  | c :: below =>
    c.remaining.length * (reach width (levels - (below.length + 1)) + 1) +
      outstanding width levels below

/-- An atom of a level is worth more than what can be reached below it. -/
theorem outstanding_take (width levels : Nat) (h : Handle) (rest : List Handle) (mark : Nat)
    (below : List ChoicePoint) : outstanding width levels (⟨h :: rest, mark⟩ :: below)
      = outstanding width levels (⟨rest, mark⟩ :: below)
        + (reach width (levels - (below.length + 1)) + 1) := by
  rw [outstanding, outstanding, List.length_cons]
  ring

/-- A level that is entered takes no more than what could be reached below the one above it. -/
theorem outstanding_enter_le {width levels depth n : Nat} (narrow : n ≤ width)
    (room : depth < levels) :
    n * (reach width (levels - (depth + 1)) + 1) ≤ reach width (levels - depth) := by
  obtain ⟨left, hleft⟩ : ∃ left, levels - depth = left + 1 := ⟨levels - (depth + 1), by omega⟩
  have hleft' : levels - (depth + 1) = left := by omega
  rw [hleft, hleft', reach]
  exact Nat.mul_le_mul_right _ narrow

/-- What a turn may do to a search: it takes an atom from what can still be tried, or it leaves a
level, or there is none. -/
inductive Spends (width : Nat) (s : Search plan) : Turn plan → Prop
  | atom {t : Turn plan} (steps : t.search.steps = s.steps + 1)
    (less : outstanding width plan.order.length t.search.stack
      < outstanding width plan.order.length s.stack)
    (height : t.search.stack.length ≤ s.stack.length + 1) : Spends width s t
  | level {t : Turn plan} (steps : t.search.steps = s.steps)
    (same : outstanding width plan.order.length t.search.stack
      = outstanding width plan.order.length s.stack)
    (height : t.search.stack.length < s.stack.length) : Spends width s t
  | none (stack : s.stack = []) : Spends width s (.over { s with done := true })

variable {s : Search plan} {past : List (Graph digest)} {caps : Caps}

/-- **A turn** takes from what can still be tried, if the level that it may enter is not too
wide. -/
theorem spends_turn {width : Nat} (narrow : ∀ h rest mark below f,
      Trial m s h rest mark below true f →
        (candidatesAt m plan f (below.length + 1)).length ≤ width) :
    Spends width s (s.turn m) := by
  -- what is below an atom that does not lead on need not be tried
  have used : ∀ {h : Handle} {rest : List Handle} {mark : Nat} {below : List ChoicePoint}
      {t : Turn plan}, s.stack = ⟨h :: rest, mark⟩ :: below → t.search.steps = s.steps + 1 →
        t.search.stack = ⟨rest, mark⟩ :: below → Spends width s t := by
    intro h rest mark below t stack steps left
    refine .atom steps ?_ ?_
    · rw [stack, left, outstanding_take]
      exact Nat.lt_add_of_pos_right (Nat.succ_pos _)
    · rw [stack, left]
      exact Nat.le_succ _
  have move := move_turn m s
  generalize s.turn m = t at move
  cases move with
  | none stack => exact .none stack
  | last stack =>
    refine .level rfl ?_ ?_
    · rw [stack]
      simp [Turn.search, outstanding]
    · rw [stack]
      exact Nat.zero_lt_one
  | close stack =>
    refine .level rfl ?_ ?_
    · rw [stack, outstanding, List.length_nil, zero_mul, zero_add]
      rfl
    · rw [stack]
      exact Nat.lt_succ_self _
  | beyond stack => exact used stack rfl rfl
  | reject trial => exact used trial.stack rfl rfl
  | row trial => exact used trial.stack rfl rfl
  | @descend h rest mark below f trial room =>
    have enters := outstanding_enter_le (narrow h rest mark below f trial) room
    refine .atom rfl ?_ ?_
    · rw [trial.stack, outstanding_take]
      show outstanding width plan.order.length
        (⟨candidatesAt m plan f (below.length + 1), _⟩ :: ⟨rest, mark⟩ :: below) < _
      rw [outstanding, List.length_cons]
      dsimp only
      omega
    · rw [trial.stack]
      exact le_rfl

/-- The level that a turn may enter on the course of a search is not too wide. -/
theorem Course.narrow (hg : g.Coherent) (ready : plan.isEmpty = false → plan.Ready)
    (course : Course g plan caps (now :: past) s) :
    ∀ h rest mark below f, Trial now s h rest mark below true f →
      (candidatesAt now plan f (below.length + 1)).length ≤ g.size := by
  intro h rest mark below f trial
  have alike := course.alike now List.mem_cons_self
  obtain ⟨hs, regained⟩ := (course.steady ready).regained trial.stack
  have ready := ready (isEmpty_eq_false.mpr (Nat.zero_lt_of_lt regained.lt))
  obtain ⟨vetted, -⟩ := regained.deeper ready alike List.mem_cons_self trial.tried
  rw [alike.candidatesAt, ← (Graph.Alike.refl g).candidatesAt]
  exact vetted.toPlaced.length_candidatesAt_le hg _

/-- **At all points** of a course the atoms that have been tried and those that can still be tried
are within the bound. -/
theorem Course.budgeted (hg : g.Coherent) (ready : plan.isEmpty = false → plan.Ready)
    (course : Course g plan caps past s) :
    s.steps + outstanding g.size plan.order.length s.stack ≤ reach g.size plan.order.length := by
  induction course with
  | start =>
    cases hempty : plan.isEmpty with
    | true =>
      rw [stack_start_of_isEmpty g caps hempty]
      exact Nat.zero_le _
    | false =>
      have placed : plan.Placed g (Frame.empty plan) [] := Plan.reached_empty.toPlaced
      have narrow := placed.length_candidatesAt_le hg 0
      have enters := outstanding_enter_le narrow (isEmpty_eq_false.mp hempty)
      rw [stack_start g caps hempty, outstanding, outstanding]
      show 0 + (_ + 0) ≤ _
      rw [zero_add, add_zero]
      exact enters
  | update _ _ ih => exact ih
  | @turn now past s before _ ih =>
    have spends := spends_turn (before.narrow hg ready)
    generalize s.turn now = t at spends
    cases spends with
    | atom steps less => omega
    | level steps same => omega
    | none => exact ih
  | stop _ _ ih => exact ih

/-! ## Asking once -/

/-- Some number of turns is enough for the next row. -/
theorem exists_pullWithin (m : Graph digest) (s : Search plan) :
    ∃ turns, pullWithin m turns s = some (s.pull m) := by
  fun_induction pull m s with
  | case1 s s₁ h₁ ih =>
    obtain ⟨turns, h⟩ := ih
    refine ⟨turns + 1, ?_⟩
    rw [pullWithin, h₁]
    exact h
  | case2 s r s₁ h₁ => exact ⟨1, by rw [pullWithin, h₁]⟩
  | case3 s s₁ h₁ => exact ⟨1, by rw [pullWithin, h₁]⟩

/-- **On the course of a search** it takes two turns at most for each atom that can still be tried,
and one for each level. -/
theorem Course.pullWithin_eq (hg : g.Coherent) (ready : plan.isEmpty = false → plan.Ready)
    (course : Course g plan caps (now :: past) s) (live : s.done = false) {turns : Nat}
    (enough : 2 * outstanding g.size plan.order.length s.stack + s.stack.length < turns) :
    pullWithin now turns s = some (s.pull now) := by
  induction turns generalizing s with
  | zero => omega
  | succ turns ih =>
    have spends := spends_turn (course.narrow hg ready)
    have next := course.turn live
    rw [pullWithin]
    rcases ht : s.turn now with s' | ⟨r, s'⟩ | s'
    · rw [ht] at spends next
      dsimp only
      rw [pull_of_onward ht]
      apply ih next ((done_of_onward ht).trans live)
      show 2 * outstanding g.size plan.order.length (Turn.onward s').search.stack
        + (Turn.onward s').search.stack.length < turns
      cases spends with
      | atom _ less height => omega
      | level _ same height => omega
    · rw [pull_of_row ht]
    · rw [pull_of_over ht]

/-- If each pull ends within some turns, then so does asking for the next row. -/
theorem nextWithin_of_pullWithin {turns : Nat}
    (h : s.done = false → pullWithin m turns s = some (s.pull m)) :
    nextWithin m turns s = some (s.next m) := by
  unfold nextWithin next
  cases hdone : s.done with
  | true => rfl
  | false =>
    cases s.full with
    | true => rfl
    | false => exact h hdone

/-- A turn does not take back steps. -/
theorem steps_le_turn (m : Graph digest) (s : Search plan) :
    s.steps ≤ (s.turn m).search.steps := by
  have move := move_turn m s
  generalize s.turn m = t at move
  cases move with
  | none => exact le_rfl
  | last => exact le_rfl
  | close => exact le_rfl
  | beyond => exact Nat.le_succ _
  | reject => exact Nat.le_succ _
  | row => exact Nat.le_succ _
  | descend => exact Nat.le_succ _

/-- **For a row** some atom has been tried. -/
theorem steps_lt_of_next {r : Row} {s' : Search plan} (h : s.next m = (some r, s')) :
    s.steps < s'.steps := by
  have pulls : s.pull m = (some r, s') := by
    unfold next at h
    split at h
    · cases h
    · split at h
      · cases h
      · exact h
  clear h
  fun_induction pull m s with
  | case1 s s₁ h₁ ih =>
    have le := steps_le_turn m s
    rw [h₁] at le
    exact le.trans_lt (ih pulls)
  | case2 s r₁ s₁ h₁ =>
    cases pulls
    have move := move_turn m s
    rw [h₁] at move
    cases move with
    | row => exact Nat.lt_succ_self _
  | case3 s s₁ h₁ => cases pulls

/-! ## Asking again and again -/

/-- The graph and the search after it has been asked for rows a number of times, with updates of
truth values before each time. -/
def asking (g : Graph digest) (s : Search plan) (updates : Nat → List TruthUpdate) :
    Nat → Graph digest × Search plan
  | 0 => (g, s)
  | k + 1 =>
    let before := asking g s updates k
    let now := before.1.run ((updates k).map (·.action))
    (now, (before.2.next now).2)

/-- The graph in which the search is asked. -/
def momentAt (g : Graph digest) (s : Search plan) (updates : Nat → List TruthUpdate) (k : Nat) :
    Graph digest :=
  (asking g s updates k).1.run ((updates k).map (·.action))

/-- What the search answers. -/
def answerAt (g : Graph digest) (s : Search plan) (updates : Nat → List TruthUpdate) (k : Nat) :
    Option Row :=
  ((asking g s updates k).2.next (momentAt g s updates k)).1

/-- However often a search is asked, it answers, and from some time on it has no row. -/
structure Ends (g : Graph digest) (s : Search plan) (updates : Nat → List TruthUpdate) : Prop where
  returns : ∀ k, ∃ turns, nextWithin (momentAt g s updates k) turns (asking g s updates k).2
    = some (answerAt g s updates k, (asking g s updates (k + 1)).2)
  ends : ∃ k, ∀ j, k ≤ j → answerAt g s updates j = none

/-- A search tries so many atoms at most and takes so many turns at most for each answer.  Bounds
that come from the size of a graph ask for `Graph.HandlesLeft`. -/
structure EndsWithin (g : Graph digest) (s : Search plan) (updates : Nat → List TruthUpdate)
    (bound turns : Nat) : Prop where
  returns : ∀ k, nextWithin (momentAt g s updates k) turns (asking g s updates k).2
    = some (answerAt g s updates k, (asking g s updates (k + 1)).2)
  ends : ∀ j, bound ≤ j → answerAt g s updates j = none
  steps_le : ∀ k, (asking g s updates k).2.steps ≤ bound

section Asking

variable {updates : Nat → List TruthUpdate}

/-- The next answer in a course of updates is what the search gives at that moment. -/
theorem next_asking (g : Graph digest) (s : Search plan) (updates : Nat → List TruthUpdate)
    (k : Nat) :
    (asking g s updates k).2.next (momentAt g s updates k)
      = (answerAt g s updates k, (asking g s updates (k + 1)).2) := rfl

/-- A search that has had no row has none later. -/
theorem answerAt_eq_none_of_le {k j : Nat} (h : answerAt g s updates k = none) (hle : k ≤ j) :
    answerAt g s updates j = none := by
  have done : ∀ j, k ≤ j → (asking g s updates (j + 1)).2.done = true := by
    intro j hj
    induction j, hj using Nat.le_induction with
    | base =>
      have asked := next_asking g s updates k
      rw [h] at asked
      exact done_of_next_none asked
    | succ j _ ih =>
      have asked := next_asking g s updates (j + 1)
      rw [next_of_done ih, Prod.mk.injEq] at asked
      rw [← asked.2]
      exact ih
  rcases hle.eq_or_lt with rfl | hlt
  · exact h
  · obtain ⟨j, rfl⟩ : ∃ i, j = i + 1 := ⟨j - 1, by omega⟩
    have asked := next_asking g s updates (j + 1)
    rw [next_of_done (done j (by omega)), Prod.mk.injEq] at asked
    exact asked.1.symm

/-- **Each row** has cost an atom. -/
theorem lt_steps_of_answerAt {k : Nat} {r : Row} (h : answerAt g s updates k = some r) :
    k < (asking g s updates (k + 1)).2.steps := by
  induction k generalizing r with
  | zero =>
    have asked := next_asking g s updates 0
    rw [h] at asked
    exact (Nat.zero_le _).trans_lt (steps_lt_of_next asked)
  | succ k ih =>
    have asked := next_asking g s updates (k + 1)
    rw [h] at asked
    have less := steps_lt_of_next asked
    cases hk : answerAt g s updates k with
    | none =>
      rw [answerAt_eq_none_of_le hk (Nat.le_succ k)] at h
      cases h
    | some r' =>
      have before := ih hk
      omega

/-- **A search that is asked** stays on its course. -/
theorem course_asking (g : Graph digest) (plan : Plan) (caps : Caps)
    (updates : Nat → List TruthUpdate) (k : Nat) : ∃ past,
      Course g plan caps ((asking g (start g plan caps) updates k).1 :: past)
        (asking g (start g plan caps) updates k).2 := by
  induction k with
  | zero => exact ⟨[], .start⟩
  | succ k ih =>
    obtain ⟨past, course⟩ := ih
    obtain ⟨earlier, course⟩ := course.updates (updates k)
    exact ⟨earlier, course.next⟩

/-- **Every search ends**, since its stack cannot become shorter and shorter forever. -/
theorem ends (g : Graph digest) (s : Search plan) (updates : Nat → List TruthUpdate) :
    Ends g s updates where
  returns k := by
    obtain ⟨turns, h⟩ := exists_pullWithin (momentAt g s updates k) (asking g s updates k).2
    exact ⟨turns, nextWithin_of_pullWithin fun _ => h⟩
  ends := by
    -- at some time the shape does not become shorter
    have wf : IsWellFounded (Shape plan.order.length) (Relation.TransGen (Shape.Shorter _)) :=
      ⟨(Shape.shorter_wellFounded plan.order.length).transGen⟩
    obtain ⟨k, hk⟩ := WellFounded.not_rel_apply_succ (h := wf) fun k =>
      (asking g s updates k).2.shape
    refine ⟨k, fun j hj => answerAt_eq_none_of_le ?_ hj⟩
    cases hanswer : answerAt g s updates k with
    | none => rfl
    | some r =>
      have asked := next_asking g s updates k
      rw [hanswer] at asked
      exact absurd (shorter_of_next asked) hk

end Asking

end Search

namespace Graph

open Search

/-- **The search for a pattern** that is accepted in a reachable graph ends, under any caps and
whatever truth values are updated in between; and given `HandlesLeft`, the atoms of the graph and
the clauses of the pattern bound the atoms it tries, the turns it takes for an answer, and its
rows. -/
theorem Reachable.searchEnds (hg : g.Reachable) (accepted : g.compile p = .ok plan) (caps : Caps)
    (updates : Nat → List TruthUpdate) :
    Ends g (start g plan caps) updates ∧
      (g.HandlesLeft →
        let bound := ∑ i ∈ Finset.range p.clauses.length, g.size ^ (i + 1)
        EndsWithin g (start g plan caps) updates bound (2 * bound + p.clauses.length + 1)) := by
  refine ⟨Search.ends g (start g plan caps) updates, ?_⟩
  intro room bound
  have coherent := hg.coherent room
  have ready := ready_of_compile hg.covered accepted
  -- a plan without anything to search has fewer clauses
  have few : plan.order.length ≤ p.clauses.length := by
    rcases compile_eq_ok hg.covered accepted with ⟨hnil, -⟩ | hc
    · simp [hnil]
    · rw [hc.ready.length_order, hc.length]
  have within : reach g.size plan.order.length ≤ bound := by
    rw [reach_eq_sum]
    exact Finset.sum_le_sum_of_subset (Finset.range_subset_range.mpr few)
  have steps_le : ∀ k, (asking g (start g plan caps) updates k).2.steps ≤ bound := by
    intro k
    obtain ⟨past, course⟩ := course_asking g plan caps updates k
    have budget := course.budgeted coherent ready
    omega
  constructor
  case steps_le => exact steps_le
  case returns =>
    intro k
    obtain ⟨past, course⟩ := course_asking g plan caps updates k
    obtain ⟨earlier, course⟩ := course.updates (updates k)
    have budget := course.budgeted coherent ready
    have height := (course.steady ready).length_stack_le
    apply nextWithin_of_pullWithin
    intro live
    exact course.pullWithin_eq coherent ready live (by omega)
  case ends =>
    intro j hj
    cases hanswer : answerAt g (start g plan caps) updates j with
    | none => rfl
    | some r =>
      have cost := lt_steps_of_answerAt hanswer
      have most := steps_le (j + 1)
      omega

/-- Two nodes that link to each other, and a pattern that goes around, under a cap on steps. -/
theorem searchEnds_of_cycle :
    let g := (empty : Graph fun _ => 0).run
      [.addNode "Node" "a", .addNode "Node" "b", .addLink "Link" [⟨0⟩, ⟨1⟩],
        .addLink "Link" [⟨1⟩, ⟨0⟩]]
    let x := Term.var ⟨"x", none⟩
    let y := Term.var ⟨"y", none⟩
    let p : Pattern := ⟨[.link "Link" [x, y], .link "Link" [y, x]], []⟩
    let updates : Nat → List TruthUpdate := fun _ => [.replace ⟨2⟩ (some ⟨1, 1⟩)]
    g.Reachable ∧ g.HandlesLeft ∧ ∃ plan, g.compile p = .ok plan ∧
      Ends g (start g plan ⟨none, some 3⟩) updates ∧
        EndsWithin g (start g plan ⟨none, some 3⟩) updates 20 43 := by
  intro g x y p updates
  have reachable : g.Reachable := ⟨_, rfl⟩
  have room : g.HandlesLeft := by decide +kernel
  let plan : Plan := ((g.compile p).toOption).getD (.hopeless [])
  have accepted : g.compile p = .ok plan := rfl
  have size : g.size = 4 := by decide +kernel
  obtain ⟨ends, within⟩ := Reachable.searchEnds reachable accepted ⟨none, some 3⟩ updates
  have bound : ∑ i ∈ Finset.range p.clauses.length, g.size ^ (i + 1) = 20 := by
    rw [size]
    rfl
  refine ⟨reachable, room, plan, accepted, ends, ?_⟩
  have bounded := within room
  rw [bound] at bounded
  exact bounded

end Graph

end TypedHypergraph
