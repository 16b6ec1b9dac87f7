/-
# Searching while truth values change

Truth values are read when a check is made, and they may change between two rows of a search that
is not at its end.  No structural solution is lost or found twice over this.  What is *pending*
(`Search.pending`) are the rows that lie ahead if nothing is checked: a turn takes some rows away
from the front of what is pending, which a constraint fails at this moment, or it hands out the
first one (`Search.Underway.turn`).

Whoever asks for rows between updates of truth values (`Search.attend`) therefore gets a sublist of
the structural solutions.  One that is missing at the end has failed at a moment, and of one that is
there each constraint has held at a moment (`Graph.Reachable.liveAnswers`).
-/
import TypedHypergraph.Proofs.Vetting

namespace TypedHypergraph

variable {digest : Content → UInt64} {g m : Graph digest} {past : List (Graph digest)}
  {p : Pattern} {plan : Plan}

namespace Search

/-! ## What is pending -/

/-- The rows that lie ahead of a search if nothing is checked any more. -/
def pending (g : Graph digest) (s : Search plan) : List Row :=
  ahead g plan.unchecked s.stack s.frame

/-- The frame of every level of a stack is vetted. -/
def Founded (g : Graph digest) (plan : Plan) (past : List (Graph digest)) :
    List ChoicePoint → Frame → Prop
  | [], _ => True
  | ⟨_, mark⟩ :: below, f =>
    (∃ hs, hs.length = below.length ∧
      plan.Vetted g past (retreat plan f below.length mark) hs) ∧
      Founded g plan past below (retreat plan f below.length mark)

theorem Founded.mono {later : List (Graph digest)} (more : past ⊆ later) {f : Frame} :
    ∀ {stack : List ChoicePoint}, Founded g plan past stack f → Founded g plan later stack f := by
  intro stack
  induction stack generalizing f with
  | nil => exact id
  | cons c below ih =>
    rintro ⟨⟨hs, hlen, vetted⟩, founded⟩
    exact ⟨⟨hs, hlen, vetted.mono more⟩, ih founded⟩

/-- A search without caps that is not at its end, and whose checks were made in some graphs. -/
structure Underway (g : Graph digest) (past : List (Graph digest)) (s : Search plan) : Prop where
  free : s.caps = .none
  live : s.done = false
  settled : Settled plan.unchecked s.stack s.frame
  founded : Founded g plan past s.stack s.frame

theorem Underway.mono {later : List (Graph digest)} (more : past ⊆ later) {s : Search plan}
    (h : Underway g past s) : Underway g later s :=
  ⟨h.free, h.live, h.settled, h.founded.mono more⟩

/-- **To enter a level** with a vetted frame puts the rows of the recursion in front. -/
theorem Underway.enter {s : Search plan} (h : Underway g past s) (alike : g.Alike m)
    (tidy : Tidy plan s.frame s.stack.length) (hdepth : s.stack.length < plan.order.length)
    {hs : List Handle} (vetted : plan.Vetted g past s.frame hs)
    (hlen : hs.length = s.stack.length) :
    let level := ⟨candidatesAt m plan s.frame s.stack.length, s.frame.trail.length⟩
    let deeper : Search plan := { s with stack := level :: s.stack }
    Underway g past deeper ∧
      pending g deeper
        = solve g plan.unchecked (plan.order.length - s.stack.length) s.frame s.stack.length ++
          pending g s := by
  intro level deeper
  have entered : retreat plan s.frame s.stack.length s.frame.trail.length = s.frame :=
    retreat_self tidy
  have tidy' : Tidy plan.unchecked s.frame s.stack.length := tidy
  have hdepth' : s.stack.length < plan.unchecked.order.length := hdepth
  constructor
  · have founded : Founded g plan past (level :: s.stack) s.frame := by
      rw [Founded, entered]
      exact ⟨⟨hs, hlen, vetted⟩, h.founded⟩
    exact ⟨h.free, h.live, settled_enter s.stack tidy' hdepth' h.settled _, founded⟩
  · have rows := ahead_enter (g := g) s.stack tidy' hdepth'
    rw [← alike.candidatesAt] at rows
    exact rows

/-- A search that begins has the rows of the plan without checks before it. -/
theorem underway_start (past : List (Graph digest)) (hne : plan.isEmpty = false) :
    Underway g past (start g plan .none) ∧
      pending g (start g plan .none) = allRows g plan.unchecked := by
  let s : Search plan := ⟨.none, Frame.empty plan, [], false, false, 0, 0⟩
  have under : Underway g past s := ⟨rfl, rfl, trivial, trivial⟩
  have entered := under.enter (.refl g) (fun _ c _ _ => grounding?_empty plan c)
    (isEmpty_eq_false.mp hne) .empty rfl
  have begins : start g plan .none
      = { s with stack := [⟨candidatesAt g plan (Frame.empty plan) 0, 0⟩] } := by
    rw [start, hne]
    rfl
  rw [begins]
  refine ⟨entered.1, entered.2.trans ?_⟩
  exact List.append_nil _

/-! ## One turn -/

/-- What a turn in a graph may do to what is pending. -/
def Advances (g : Graph digest) (past : List (Graph digest)) (p : Pattern) (m : Graph digest)
    (s : Search plan) : Turn plan → Prop
  | .onward s' => Underway g past s' ∧ ∃ skipped, pending g s = skipped ++ pending g s' ∧
      ∀ row ∈ skipped, row.Fails p m
  | .row r s' => Underway g past s' ∧ pending g s = r :: pending g s' ∧ r.Passes p past
  | .over _ => pending g s = []

/-- To try an atom in a graph is to skip what is behind it, to go down, or to find a row. -/
theorem Underway.tried (hc : Compiled g p plan) (alike : ∀ k ∈ past, g.Alike k) (now : m ∈ past)
    {s : Search plan} (h : Underway g past s) {x : Handle} {rest : List Handle} {mark : Nat}
    {below : List ChoicePoint} (hs : s.stack = ⟨x :: rest, mark⟩ :: below) :
    Advances g past p m s (tried m s rest mark below
      (attempt m plan (retreat plan s.frame below.length mark) below.length x)) := by
  obtain ⟨free, live, settled, founded⟩ := h
  rw [hs] at settled founded
  obtain ⟨back, again, rows⟩ := ahead_try (g := g) settled
  obtain ⟨hdepth, -, tidy, -⟩ := settled
  obtain ⟨⟨atoms, hlen, vetted⟩, hbelow⟩ := founded
  simp only [Plan.retreat_unchecked, Plan.order_unchecked] at back again rows hdepth tidy
  have founded' : Founded g plan past (⟨rest, mark⟩ :: below) (attempt g plan.unchecked
      (retreat plan s.frame below.length mark) below.length x).2 := by
    rw [Founded, back]
    exact ⟨⟨atoms, hlen, vetted⟩, hbelow⟩
  rw [← hs] at rows
  rw [(alike m now).attempt_eq]
  rcases ha : attempt g plan.unchecked (retreat plan s.frame below.length mark) below.length x with
    ⟨_ | _, f'⟩
  · -- the atom does not fit, and there is no row behind it
    rw [branch, ha] at rows
    rw [ha] at again founded'
    exact ⟨⟨free, live, again, founded'⟩, [], rows, by simp⟩
  · rw [ha] at again founded' rows
    have under : Underway g past ({ s with
      frame := f', stack := ⟨rest, mark⟩ :: below, steps := s.steps + 1 } : Search plan) :=
      ⟨free, live, again, founded'⟩
    cases hpass : plan.checksPass m f' below.length with
    | false =>
      -- a check turns the atom down, and with it the rows behind it
      refine ⟨⟨free, live, again, founded'⟩, _, rows, ?_⟩
      intro row hrow
      exact hc.fails_of_mem_branch (alike m now) vetted.toPlaced hlen (by omega) ha hpass hrow
    | true =>
      have vetted' := vetted.attempt hc.ready now hlen hdepth ha hpass
      rw [branch, ha] at rows
      show Advances g past p m s (Search.tried m s rest mark below (true, f'))
      unfold Search.tried
      dsimp only [Plan.rowOf_unchecked] at rows ⊢
      by_cases hlast : plan.order.length ≤ below.length + 1
      · -- it fits at the last depth: here is a row
        rw [if_pos hlast]
        rw [if_pos (by omega)] at rows
        have full : (atoms ++ [x]).length = plan.order.length := by
          rw [List.length_append, List.length_singleton]
          omega
        exact ⟨⟨free, live, again, founded'⟩, rows, hc.passes_rowOf alike vetted' full⟩
      · -- it fits, and the search goes down
        rw [if_neg hlast]
        rw [if_neg (by omega)] at rows
        have tidy' : Tidy plan f' (below.length + 1) :=
          tidy.attempt hc.ready.unchecked.nodup hdepth ha
        have hlen' : (atoms ++ [x]).length = below.length + 1 := by simp [hlen]
        have hdepth' : below.length + 1 < plan.order.length := Nat.lt_of_not_le hlast
        obtain ⟨deeper, more⟩ := under.enter (alike m now) tidy' hdepth' vetted' hlen'
        exact ⟨deeper, [], rows.trans more.symm, by simp⟩

/-- **A turn** skips rows of which some constraint fails, or hands out the first row. -/
theorem Underway.turn (hc : Compiled g p plan) (alike : ∀ k ∈ past, g.Alike k) (now : m ∈ past)
    {s : Search plan} (h : Underway g past s) : Advances g past p m s (s.turn m) := by
  rcases hs : s.stack with _ | ⟨⟨_ | ⟨x, rest⟩, mark⟩, below⟩
  · rw [turn_of_nil m hs, Advances, pending, hs, ahead]
  · rw [turn_of_close m hs]
    have rows : pending g s
        = ahead g plan.unchecked below (retreat plan s.frame below.length mark) := by
      rw [pending, hs, ahead_cons]
      rfl
    obtain ⟨free, live, settled, founded⟩ := h
    rw [hs] at settled founded
    cases below with
    | nil => exact rows
    | cons c below => exact ⟨⟨free, live, settled.2.2.2, founded.2⟩, [], rows, by simp⟩
  · have hb : beyond s.caps.steps (s.steps + 1) = false := by
      rw [h.free]
      rfl
    rw [turn_of_within m hs hb]
    exact h.tried hc alike now hs

/-! ## One row -/

/-- **To ask for a row** skips rows of which some constraint fails, and hands out the one behind
them, if there is one. -/
theorem Underway.next (hc : Compiled g p plan) (alike : ∀ k ∈ past, g.Alike k) (now : m ∈ past)
    {s : Search plan} (h : Underway g past s) :
    match s.next m with
    | (some r, s') => Underway g past s' ∧ r.Passes p past ∧
        ∃ skipped, pending g s = skipped ++ r :: pending g s' ∧ ∀ row ∈ skipped, row.Fails p m
    | (none, _) => ∀ row ∈ pending g s, row.Fails p m := by
  rw [next_eq_pull h.free h.live]
  fun_induction pull m s with
  | case1 s s₁ h₁ ih =>
    have turned := h.turn hc alike now
    rw [h₁] at turned
    obtain ⟨under, skipped, rows, fails⟩ := turned
    have more := ih under
    rcases hp : s₁.pull m with ⟨_ | r, s₂⟩
    · rw [hp] at more
      dsimp only at more ⊢
      rw [rows, List.forall_mem_append]
      exact ⟨fails, more⟩
    · rw [hp] at more
      obtain ⟨under', passes, skipped', rows', fails'⟩ := more
      refine ⟨under', passes, skipped ++ skipped', ?_, ?_⟩
      · rw [rows, rows', List.append_assoc]
      · rw [List.forall_mem_append]
        exact ⟨fails, fails'⟩
  | case2 s r s₁ h₁ =>
    have turned := h.turn hc alike now
    rw [h₁] at turned
    obtain ⟨under, rows, passes⟩ := turned
    exact ⟨under, passes, [], rows, by simp⟩
  | case3 s s₁ h₁ =>
    have turned := h.turn hc alike now
    rw [h₁] at turned
    have nothing : pending g s = [] := turned
    dsimp only
    simp [nothing]

/-! ## Asking between updates -/

/-- Ask for rows one after the other, up to the first time in vain, with updates of truth values
before each time.  What comes of it is listed with the graphs in which the search was asked. -/
def attend (g : Graph digest) (s : Search plan) :
    List (List TruthUpdate) → List (Graph digest × Option Row)
  | [] => []
  | updates :: later =>
    let now := g.run (updates.map (·.action))
    match s.next now with
    | (some r, s') => (now, some r) :: attend now s' later
    | (none, _) => [(now, none)]

/-- The same by a recursion that can be evaluated, as long as a number of turns is enough for each
row. -/
def attendWithin (turns : Nat) (g : Graph digest) (s : Search plan) :
    List (List TruthUpdate) → Option (List (Graph digest × Option Row))
  | [] => some []
  | updates :: later => do
    let now := g.run (updates.map (·.action))
    match ← if s.done || s.full then none else pullWithin now turns s with
    | (some r, s') => return (now, some r) :: (← attendWithin turns now s' later)
    | (none, _) => return [(now, none)]

/-- What is asked within some turns is what is asked. -/
theorem attend_of_attendWithin {turns : Nat} {schedule : List (List TruthUpdate)} :
    ∀ {g : Graph digest} {s : Search plan} {asked : List (Graph digest × Option Row)},
      attendWithin turns g s schedule = some asked → s.attend g schedule = asked := by
  induction schedule with
  | nil =>
    intro g s asked h
    cases h
    rfl
  | cons updates later ih =>
    intro g s asked h
    rw [attendWithin] at h
    by_cases hs : (s.done || s.full) = true
    · rw [if_pos hs] at h
      cases h
    · rw [if_neg hs] at h
      obtain ⟨result, hpull, h⟩ := Option.bind_eq_some_iff.mp h
      rw [Bool.or_eq_true, not_or] at hs
      rw [attend, Search.next, if_neg hs.1, if_neg hs.2, pull_of_pullWithin hpull]
      rcases result with ⟨_ | r, s'⟩
      · cases h
        rfl
      · obtain ⟨more, hmore, h⟩ := Option.bind_eq_some_iff.mp h
        cases h
        rw [← ih hmore]

/-- The graphs in which a search was asked. -/
def moments (asked : List (Graph digest × Option Row)) : List (Graph digest) := asked.map (·.1)

/-- The rows that were handed out. -/
def handedOut (asked : List (Graph digest × Option Row)) : List Row := asked.filterMap (·.2)

/-- Whether the search was asked in vain, so that it is at its end. -/
def inVain (asked : List (Graph digest × Option Row)) : Bool := asked.any (·.2.isNone)

/-- What comes of asking a search that has been asked in some graphs before. -/
structure Attended (g : Graph digest) (past : List (Graph digest)) (p : Pattern) (s : Search plan)
    (schedule : List (List TruthUpdate)) (asked : List (Graph digest × Option Row)) : Prop where
  alike : ∀ k ∈ moments asked, g.Alike k
  sublist : (handedOut asked).Sublist (pending g s)
  passes : ∀ row ∈ handedOut asked, row.Passes p (past ++ moments asked)
  fails : inVain asked → ∀ row ∈ pending g s, row ∈ handedOut asked ∨
    ∃ k ∈ moments asked, row.Fails p k
  ends : (pending g s).length < schedule.length → inVain asked

namespace Attended

variable {s s' : Search plan} {now : Graph digest} {updates : List TruthUpdate}
  {later : List (List TruthUpdate)} {asked : List (Graph digest × Option Row)} {r : Row}

/-- Nobody asks. -/
theorem nil : Attended g past p s [] [] where
  alike := by simp [moments]
  sublist := List.nil_sublist _
  passes := by simp [handedOut]
  fails := by simp [inVain]
  ends := by simp

/-- The search is asked in vain. -/
theorem last (alike : g.Alike now) (fails : ∀ row ∈ pending g s, row.Fails p now) :
    Attended g past p s (updates :: later) [(now, none)] where
  alike := by
    intro k hk
    rwa [List.mem_singleton.mp hk]
  sublist := List.nil_sublist _
  passes := by simp [handedOut]
  fails _ row hrow := .inr ⟨now, List.mem_cons_self, fails row hrow⟩
  ends _ := rfl

/-- The search hands out a row and is asked again. -/
theorem cons (alike : g.Alike now) {skipped : List Row}
    (rows : pending g s = skipped ++ r :: pending g s') (passes : r.Passes p (past ++ [now]))
    (fails : ∀ row ∈ skipped, row.Fails p now)
    (rest : Attended g (past ++ [now]) p s' later asked) :
    Attended g past p s (updates :: later) ((now, some r) :: asked) := by
  have out : handedOut ((now, some r) :: asked) = r :: handedOut asked := rfl
  have vainly : inVain ((now, some r) :: asked) = inVain asked := rfl
  have all : past ++ moments ((now, some r) :: asked) = past ++ [now] ++ moments asked := by
    rw [List.append_assoc]
    rfl
  constructor
  case alike => exact List.forall_mem_cons.mpr ⟨alike, rest.alike⟩
  case sublist =>
    rw [out, rows]
    exact (rest.sublist.cons_cons r).trans (List.sublist_append_right _ _)
  case passes =>
    rw [out, all, List.forall_mem_cons]
    exact ⟨passes.mono (List.subset_append_left _ _), rest.passes⟩
  case fails =>
    intro vain row hrow
    rw [rows, List.mem_append, List.mem_cons] at hrow
    rw [vainly] at vain
    rw [out, List.mem_cons]
    rcases hrow with hrow | rfl | hrow
    · exact .inr ⟨now, List.mem_cons_self, fails row hrow⟩
    · exact .inl (.inl rfl)
    · rcases rest.fails vain row hrow with hrow | ⟨k, hk, hfails⟩
      · exact .inl (.inr hrow)
      · exact .inr ⟨k, List.mem_cons_of_mem _ hk, hfails⟩
  case ends =>
    intro long
    rw [rows, List.length_append, List.length_cons, List.length_cons] at long
    rw [vainly]
    exact rest.ends (by omega)

end Attended

/-- **Whoever asks** a search between updates gets what is pending, but for rows that fail. -/
theorem Underway.attended (hc : Compiled g p plan) (schedule : List (List TruthUpdate)) :
    ∀ {k : Graph digest} {past : List (Graph digest)} {s : Search plan}, g.Alike k →
      (∀ k ∈ past, g.Alike k) → Underway g past s →
        Attended g past p s schedule (s.attend k schedule) := by
  induction schedule with
  | nil =>
    intro k past s _ _ _
    exact .nil
  | cons updates later ih =>
    intro k past s hk alike under
    have hnow : g.Alike (k.run (updates.map (·.action))) := hk.trans (Graph.alike_run k updates)
    generalize hk' : k.run (updates.map (·.action)) = now at hnow
    have alike' : ∀ k ∈ past ++ [now], g.Alike k := by
      rw [List.forall_mem_append, List.forall_mem_singleton]
      exact ⟨alike, hnow⟩
    have asked := (under.mono (List.subset_append_left past [now])).next hc alike'
      (List.mem_append_right past List.mem_cons_self)
    rw [attend, hk']
    rcases hnext : s.next now with ⟨_ | r, s'⟩
    · rw [hnext] at asked
      exact .last hnow asked
    · rw [hnext] at asked
      obtain ⟨under', passes, skipped, rows, fails⟩ := asked
      exact .cons hnow rows passes fails (ih hnow alike' under')

/-- **The record** of a search that is asked between updates of truth values.  The moments are those
at which it is asked, since in between it does not look. -/
structure LiveAnswers (g : Graph digest) (p : Pattern) (plan : Plan)
    (asked : List (Graph digest × Option Row)) : Prop where
  /-- The rows ascend strictly. -/
  ascending : (handedOut asked).Pairwise
    fun a b => List.Lex (· < ·) (plan.reading a) (plan.reading b)
  /-- No two rows give the same atoms to the clauses. -/
  groundings_ne : (handedOut asked).Pairwise fun (a b : Row) => a.groundings ≠ b.groundings
  /-- Each row is a structural solution. -/
  structural : ∀ row ∈ handedOut asked,
    p.StructuralSolution g (fun name => row.values[name]?) row.groundings
  /-- A constraint of a row has held at some moment: if it holds at none, there is no such row. -/
  held : ∀ row ∈ handedOut asked, ∀ c ∈ p.constraints, ∃ m ∈ moments asked, row.Satisfies m c
  /-- A structural solution of which the other constraints hold at all moments is not missing. -/
  complete : inVain asked → ∀ values groundings, p.StructuralSolution g values groundings →
    (∀ c ∈ p.constraints, ¬ c.Structural → ∀ m ∈ moments asked, c.Holds m values groundings) →
      ∃ row ∈ handedOut asked, (∀ name, row.values[name]? = values name) ∧
        row.groundings = groundings

/-- What is asked of a search that begins with all rows of the plan without checks. -/
theorem liveAnswers_of_attended (hb : Compiled g p.bare plan.unchecked) (hg : g.Covered)
    (ht : g.types.WellFormed) {s : Search plan}
    (whole : pending g s = allRows g plan.unchecked) {schedule : List (List TruthUpdate)}
    {asked : List (Graph digest × Option Row)} (h : Attended g [] p s schedule asked) :
    LiveAnswers g p plan asked := by
  have sublist := h.sublist
  rw [whole] at sublist
  constructor
  case ascending => exact hb.ascending_allRows.sublist sublist
  case groundings_ne => exact hb.groundings_ne.sublist sublist
  case held => exact h.passes
  case structural =>
    intro row hrow
    refine ⟨(hb.solution_of_mem (sublist.subset hrow)).2, ?_⟩
    intro c hcon structural
    obtain ⟨m, hm, holds⟩ := h.passes row hrow c hcon
    exact (structural.holds_iff (h.alike m hm)).mp holds
  case complete =>
    intro vain values groundings solves always
    obtain ⟨row, hrow, hvalues, rfl⟩ := hb.exists_row hg ht solves.bare
    rw [← whole] at hrow
    rcases h.fails vain row hrow with hout | ⟨m, hm, c, hcon, fails⟩
    · exact ⟨row, hout, hvalues, rfl⟩
    · -- the constraint that failed is one that holds at all moments
      have named : (fun name => row.values[name]?) = values := funext hvalues
      rw [Row.Satisfies, named] at fails
      by_cases structural : c.Structural
      · have holds := solves.constraints c hcon structural
        exact absurd ((structural.holds_iff (h.alike m hm)).mpr holds) fails
      · exact absurd (always c hcon structural m hm) fails

/-- A search at its end hands nothing out. -/
theorem attend_of_done {s : Search plan} (done : s.done = true)
    (schedule : List (List TruthUpdate)) : handedOut (s.attend g schedule) = [] ∧
      (0 < schedule.length → inVain (s.attend g schedule)) := by
  cases schedule with
  | nil => exact ⟨rfl, by simp⟩
  | cons updates later =>
    rw [attend, next_of_done done]
    exact ⟨rfl, fun _ => rfl⟩

end Search

namespace Graph

open Search

/-- **A search during which truth values change**, of a pattern that is accepted in a reachable
graph, comes to its end, loses no solution that holds all the time and finds none that never
holds. -/
theorem Reachable.liveAnswers (hg : g.Reachable) (accepted : g.compile p = .ok plan) :
    (∃ bound, ∀ schedule, bound < schedule.length →
      inVain ((start g plan .none).attend g schedule)) ∧
    ∀ schedule, LiveAnswers g p plan ((start g plan .none).attend g schedule) := by
  have covered := hg.covered
  have ht := hg.typesMakeSense.wellFormed
  rcases compile_eq_ok covered (compile_bare accepted) with ⟨hnil, none⟩ | hb
  · -- there is nothing to search
    have done : (start g plan .none).done = true := List.isEmpty_iff.mpr hnil
    refine ⟨⟨0, fun schedule => (attend_of_done done schedule).2⟩, ?_⟩
    intro schedule
    have nothing := (attend_of_done (g := g) done schedule).1
    constructor
    case complete =>
      intro _ values groundings solves
      exact absurd solves.bare (none values groundings)
    all_goals simp [nothing]
  · have hc : Compiled g p plan := by
      rcases compile_eq_ok covered accepted with ⟨hnil, -⟩ | hc
      · exact absurd hnil hb.order_ne_nil
      · exact hc
    have hne : plan.isEmpty = false := by
      rw [isEmpty_eq_false, List.length_pos_iff]
      exact hc.order_ne_nil
    obtain ⟨under, whole⟩ := underway_start (g := g) [] hne
    have attended := fun schedule => under.attended hc schedule (.refl g) (by simp)
    refine ⟨⟨(pending g (start g plan .none)).length, fun schedule => (attended schedule).ends⟩, ?_⟩
    intro schedule
    exact liveAnswers_of_attended hb covered ht whole (attended schedule)

/-- An atom is asked for whose truth value is known, with a link over it.  It is forgotten as soon
as the first link has been found, and the second one is found all the same. -/
theorem liveAnswers_of_forgotten_truth :
    let g := (empty : Graph fun _ => 0).run
      [.addNode "Node" "a", .addNode "Node" "b", .addNode "Node" "c",
        .addLink "Link" [⟨0⟩, ⟨1⟩], .addLink "Link" [⟨0⟩, ⟨2⟩], .addLink "Link" [⟨1⟩, ⟨0⟩],
        .addLink "Link" [⟨2⟩, ⟨0⟩]]
    let x := Term.var ⟨"x", none⟩
    let known := fun atoms : List SeenAtom => atoms.all (·.truth.isSome)
    let p : Pattern := ⟨[x, .link "Link" [x, .var ⟨"y", none⟩]],
      [.predicate ⟨[.var "x"], known⟩]⟩
    let schedule : List (List TruthUpdate) := [[.replace ⟨0⟩ (some ⟨1, 1⟩)], [.replace ⟨0⟩ none],
      [.replace ⟨1⟩ (some ⟨1, 1⟩)], [.revise ⟨7⟩ ⟨1, 1⟩]]
    g.Reachable ∧ ∃ plan, g.compile p = .ok plan ∧
      let asked := (start g plan .none).attend g schedule
      LiveAnswers g p plan asked ∧ inVain asked ∧
        (handedOut asked).map (·.groundings) = [[⟨0⟩, ⟨3⟩], [⟨0⟩, ⟨4⟩], [⟨1⟩, ⟨5⟩]] := by
  intro g x known p schedule
  have reachable : g.Reachable := ⟨_, rfl⟩
  let plan : Plan := ((g.compile p).toOption).getD (.hopeless [])
  have accepted : g.compile p = .ok plan := rfl
  obtain ⟨-, live⟩ := Reachable.liveAnswers reachable accepted
  have found : ((start g plan .none).attendWithin 20 g schedule).map (fun asked =>
      (inVain asked, (handedOut asked).map (·.groundings)))
        = some (true, [[⟨0⟩, ⟨3⟩], [⟨0⟩, ⟨4⟩], [⟨1⟩, ⟨5⟩]]) := by
    decide +kernel
  obtain ⟨asked, hasked, heq⟩ := Option.map_eq_some_iff.mp found
  rw [Prod.mk.injEq] at heq
  refine ⟨reachable, plan, accepted, live schedule, ?_⟩
  rw [attend_of_attendWithin hasked]
  exact heq

end Graph

end TypedHypergraph
