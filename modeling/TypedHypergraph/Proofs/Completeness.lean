/-
# What an answer says of its completeness

An inquiry is answered under the caps of the one who asks and of the one who answers.  The search
looks for one row more than these let through, so that it shows whether there is one; its steps may
be used up before or after it has been found.  An answer is *truthful* (`Answer.Truthful`) if it
holds the first rows of the search without caps, says `truncated` exactly if the steps are enough
for more of them than are let through, and `exhausted` exactly if the steps are not enough to say
so.  An answer that says neither is complete.

* `Search.steps_asked_le_final` : what is found is found within the steps of the whole search;
* `Graph.truthful_cutAnswer` : an answer tells what the search under the wider caps has shown;
* `Graph.Reachable.answersTruthfully` : every answer of a reachable graph is truthful.
-/
import TypedHypergraph.Form.Reply
import TypedHypergraph.Proofs.Answers
import TypedHypergraph.Proofs.Caps

namespace TypedHypergraph

variable {digest : Content → UInt64} {g : Graph digest} {plan : Plan}

namespace Search

/-- The search is not over before its last row is found. -/
theorem steps_asked_le_final {s : Search plan} (free : s.caps = .none) (k : Nat) :
    (s.asked g k).steps ≤ (s.final g).steps := by
  induction k generalizing s with
  | zero => exact steps_le_final free
  | succ k ih =>
    rcases hn : s.next g with ⟨_ | r, s'⟩
    · rw [asked, hn, asked_of_done (done_of_next_none hn), final_of_none hn]
    · have follows := follows_of_next (g := g) free
      rw [hn] at follows
      rw [asked_succ_of_some hn, final_of_some hn]
      exact ih (follows.caps.trans free)

/-- At most all rows are affordable. -/
theorem affordable_le_length (g : Graph digest) (s : Search plan) (caps : Caps) :
    affordable g s caps ≤ (s.rows g).length := by
  unfold affordable
  refine List.countP_le_length.trans ?_
  rw [List.length_range]

/-- Steps that are enough for the whole search are enough for every row. -/
theorem affordable_of_enough (g : Graph digest) (s : Search plan) (caps : Caps)
    (free : s.caps = .none) (enough : ∀ most, caps.steps = some most → (s.final g).steps ≤ most) :
    affordable g s caps = (s.rows g).length := by
  rw [affordable, List.countP_eq_length.mpr, List.length_range]
  intro j _
  cases hs : caps.steps with
  | none => rfl
  | some most =>
    have found := steps_asked_le_final (g := g) free (j + 1)
    exact decide_eq_true (found.trans (enough most hs))

/-- The next row, if it is found in a number of turns. -/
def nextWithin (g : Graph digest) (turns : Nat) (s : Search plan) :
    Option (Option Row × Search plan) :=
  if s.done then some (none, s)
  else if s.full then some (none, { s with done := true })
  else pullWithin g turns s

/-- What is found within some turns is what the search finds. -/
theorem next_of_nextWithin {turns : Nat} {s : Search plan} {result : Option Row × Search plan}
    (h : nextWithin g turns s = some result) : s.next g = result := by
  unfold nextWithin at h
  unfold next
  by_cases hdone : s.done = true
  · rw [if_pos hdone] at h ⊢
    exact Option.some.inj h
  · rw [if_neg hdone] at h ⊢
    by_cases hfull : s.full = true
    · rw [if_pos hfull] at h ⊢
      exact Option.some.inj h
    · rw [if_neg hfull] at h ⊢
      exact pull_of_pullWithin h

/-- All rows from here on and the search at its end, if asking a number of times is enough. -/
def collectWithin (g : Graph digest) (turns : Nat) :
    Nat → Search plan → Option (List Row × Search plan)
  | 0, _ => none
  | times + 1, s => do
    match ← nextWithin g turns s with
    | (some r, s') =>
      let (rows, e) ← collectWithin g turns times s'
      return (r :: rows, e)
    | (none, s') => return ([], s')

/-- What is collected within some turns is all rows of the search, and where it ends. -/
theorem rows_of_collectWithin {turns times : Nat} {s e : Search plan} {rows : List Row}
    (h : collectWithin g turns times s = some (rows, e)) : s.rows g = rows ∧ s.final g = e := by
  induction times generalizing s rows with
  | zero => cases h
  | succ times ih =>
    rw [collectWithin] at h
    obtain ⟨⟨row, s'⟩, hasked, h⟩ := Option.bind_eq_some_iff.mp h
    have hnext := next_of_nextWithin hasked
    cases row with
    | none =>
      cases h
      exact ⟨rows_of_none hnext, final_of_none hnext⟩
    | some r =>
      obtain ⟨⟨rest, e'⟩, hrest, h⟩ := Option.bind_eq_some_iff.mp h
      cases h
      obtain ⟨hrows, hfinal⟩ := ih hrest
      rw [rows_of_some hnext, final_of_some hnext, hrows, hfinal]
      exact ⟨rfl, rfl⟩

end Search

/-! ## Truthful answers -/

/-- What an answer tells under some caps, given all rows of the search without caps, the number of
those that are found within the steps, and the steps that this search takes. -/
structure Answer.Truthful (caps : Caps) (all : List Row) (found steps : Nat) (a : Answer) :
    Prop where
  /-- The first rows that are found within the steps, as many as are let through. -/
  rows : a.rows = all.take (caps.results.elim found (min · found))
  length : a.rows.length = caps.results.elim found (min · found)
  truncated_iff : a.truncated = true ↔ ∃ most, caps.results = some most ∧ most < found
  exhausted_iff : a.exhausted = true ↔
    (∀ most, caps.results = some most → found ≤ most) ∧
      ∃ most, caps.steps = some most ∧ most < steps
  exclusive : ¬ (a.truncated = true ∧ a.exhausted = true)
  /-- Without a flag nothing is missing. -/
  complete : a.truncated = false → a.exhausted = false → a.rows = all
  /-- There are more rows than are let through. -/
  more : a.truncated = true → ∃ most, caps.results = some most ∧ most < all.length

/-- What is said of rows and flags is enough: the flags exclude each other, and without them the
rows are all there are. -/
theorem Answer.truthful_of_iff {caps : Caps} {all : List Row} {found steps : Nat} {a : Answer}
    (within : found ≤ all.length)
    (enough : (∀ most, caps.steps = some most → steps ≤ most) → found = all.length)
    (rows : a.rows = all.take (caps.results.elim found (min · found)))
    (truncated : a.truncated = true ↔ ∃ most, caps.results = some most ∧ most < found)
    (exhausted : a.exhausted = true ↔ (∀ most, caps.results = some most → found ≤ most) ∧
      ∃ most, caps.steps = some most ∧ most < steps) :
    a.Truthful caps all found steps where
  rows := rows
  length := by
    rw [rows, List.length_take]
    cases caps.results with
    | none => exact Nat.min_eq_left within
    | some most => exact Nat.min_eq_left ((Nat.min_le_right most found).trans within)
  truncated_iff := truncated
  exhausted_iff := exhausted
  exclusive := by
    rintro ⟨isTruncated, isExhausted⟩
    obtain ⟨most, hmost, more⟩ := truncated.mp isTruncated
    have fits := (exhausted.mp isExhausted).1 most hmost
    omega
  complete := by
    intro notTruncated notExhausted
    have fits : ∀ most, caps.results = some most → found ≤ most := by
      intro most hmost
      by_contra more
      rw [truncated.mpr ⟨most, hmost, not_le.mp more⟩] at notTruncated
      cases notTruncated
    have paid : ∀ most, caps.steps = some most → steps ≤ most := by
      intro most hmost
      by_contra more
      rw [exhausted.mpr ⟨fits, most, hmost, not_le.mp more⟩] at notExhausted
      cases notExhausted
    rw [rows, List.take_of_length_le]
    cases hr : caps.results with
    | none => exact (enough paid).ge
    | some most =>
      rw [Option.elim_some, Nat.min_eq_right (fits most hr)]
      exact (enough paid).ge
  more := by
    intro isTruncated
    obtain ⟨most, hmost, more⟩ := truncated.mp isTruncated
    exact ⟨most, hmost, more.trans_le within⟩

namespace Graph

variable {p : Pattern}

/-- The rows of a plan that is accepted answer the pattern, also if there is no hope of any. -/
theorem Covered.answers_rows (covered : g.Covered) (types : g.types.WellFormed)
    (accepted : g.compile p = .ok plan) :
    Answers g p plan ((Search.start g plan .none).rows g) := by
  rcases compile_eq_ok covered accepted with ⟨hnil, none⟩ | hc
  · have nodup : plan.order.Nodup := by
      rw [hnil]
      exact List.nodup_nil
    have norows : Search.allRows g plan = [] := by
      rw [Search.allRows, hnil, List.length_nil, Search.solve]
    rw [Search.rows_start nodup, norows]
    exact answers_of_hopeless none
  · rw [Search.rows_start hc.ready.nodup]
    exact hc.answers_allRows covered types

/-- What the rows of a search under the wider caps are cut to, and what is said of them. -/
def cutAnswer (g : Graph digest) (plan : Plan) (caps : Caps) : Answer :=
  let search := Search.start g plan caps.widen
  ⟨Caps.cut caps.results (search.rows g), (search.final g).exhausted,
    Caps.cuts caps.results (search.rows g)⟩

/-- An inquiry that compiles is answered by the search cut off at the smaller ones of both caps. -/
theorem answer_eq {i : Inquiry} {caps : Caps}
    (accepted : g.compile (i.toQuery caps).pattern = .ok plan) :
    g.answer i caps = .ok (g.cutAnswer plan (i.caps.meet caps)) := by
  unfold answer
  dsimp only
  rw [accepted]
  rfl

/-- Widened caps let one row more through. -/
theorem results_widen {caps : Caps}
    (small : ∀ most, caps.results = some most → most < Limits.lastCount) :
    caps.widen.results = caps.results.map (· + 1) := by
  rw [Caps.widen]
  cases hr : caps.results with
  | none => rfl
  | some most =>
    have room := small most hr
    rw [Option.map_some, Option.map_some, Nat.min_eq_left (by omega)]

/-- The search under the wider caps hands out one row more than is let through, if there is one
within the steps. -/
theorem cut_widen (g : Graph digest) (plan : Plan) {caps : Caps}
    (small : ∀ most, caps.results = some most → most < Limits.lastCount) :
    Search.Cut g (Search.start g plan .none) caps.widen
      (caps.results.elim (Search.affordable g (Search.start g plan .none) caps)
        fun most => min (most + 1) (Search.affordable g (Search.start g plan .none) caps)) := by
  have within : Search.beyond caps.widen.steps (Search.start g plan .none).steps = false := by
    rw [Caps.widen]
    cases caps.steps with
    | none => rfl
    | some most => exact decide_eq_false (Nat.not_lt_zero most)
  have cut := Search.cut (g := g) (s := Search.start g plan .none) rfl rfl within
    fun most _ => Nat.zero_le most
  have granted : Search.granted g (Search.start g plan .none) caps.widen
      = caps.results.elim (Search.affordable g (Search.start g plan .none) caps)
        fun most => min (most + 1) (Search.affordable g (Search.start g plan .none) caps) := by
    unfold Search.granted
    rw [results_widen small]
    cases caps.results <;> rfl
  rwa [granted] at cut

/-- **An answer** tells what the search under the wider caps has shown. -/
theorem truthful_cutAnswer (g : Graph digest) (plan : Plan) {caps : Caps}
    (small : ∀ most, caps.results = some most → most < Limits.lastCount) :
    (g.cutAnswer plan caps).Truthful caps ((Search.start g plan .none).rows g)
      (Search.affordable g (Search.start g plan .none) caps)
      ((Search.start g plan .none).final g).steps := by
  have cut := cut_widen g plan small
  have within := Search.affordable_le_length g (Search.start g plan .none) caps
  have enough := Search.affordable_of_enough g (Search.start g plan .none) caps rfl
  have rows : (g.cutAnswer plan caps).rows = Caps.cut caps.results _ :=
    congrArg (Caps.cut caps.results) cut.rows
  have truncated : (g.cutAnswer plan caps).truncated = Caps.cuts caps.results _ :=
    congrArg (Caps.cuts caps.results) cut.rows
  have exhausted : (g.cutAnswer plan caps).exhausted = true ↔ _ := cut.ended.exhausted_iff
  have found : (Search.start g plan .none).found = 0 := rfl
  rw [results_widen small, found, Nat.zero_add] at exhausted
  cases hr : caps.results with
  | none =>
    rw [hr] at rows truncated exhausted
    apply Answer.truthful_of_iff within enough
    · rw [rows, hr]
      rfl
    · simp [truncated, Caps.cuts, hr]
    · rw [exhausted, hr]
      simp [Caps.widen]
  | some most =>
    rw [hr] at rows truncated exhausted
    simp only [Option.elim_some] at rows truncated exhausted
    apply Answer.truthful_of_iff within enough
    · rw [rows, hr, Caps.cut, List.take_take, Option.elim_some]
      congr 1
      omega
    · rw [truncated, hr]
      simp only [Caps.cuts, decide_eq_true_eq, List.length_take, Option.some.injEq,
        exists_eq_left']
      omega
    · rw [exhausted, hr]
      simp only [ne_eq, Option.map_some, Option.some.injEq, forall_eq', Caps.widen]
      refine and_congr_left fun _ => ?_
      omega

/-- **Every answer** of a reachable graph is truthful.  Here `found` is the number of rows that are
found within the steps of the caps that hold for both sides. -/
theorem Reachable.answersTruthfully (hg : g.Reachable) (i : Inquiry) (caps : Caps)
    (accepted : g.compile (i.toQuery caps).pattern = .ok plan)
    (small : ∀ most, (i.caps.meet caps).results = some most → most < Limits.lastCount) :
    let search := Search.start g plan .none
    let found := (List.range (search.rows g).length).countP fun j =>
      (i.caps.meet caps).steps.all ((search.asked g (j + 1)).steps ≤ ·)
    Answers g (i.toQuery caps).pattern plan (search.rows g) ∧
      ∃ a, g.answer i caps = .ok a ∧
        a.Truthful (i.caps.meet caps) (search.rows g) found (search.final g).steps ∧
        a.toJson = .obj [("count", .nat a.rows.length), ("bindings", .arr (a.rows.map Row.toJson)),
          ("budget_exhausted", .bool a.exhausted), ("truncated", .bool a.truncated)] :=
  ⟨hg.covered.answers_rows hg.typesMakeSense.wellFormed accepted, _, answer_eq accepted,
    truthful_cutAnswer g plan small, rfl⟩

/-- Four words are asked for, at most two are let through, and the steps are just enough to find a
third one: more rows are known to be there, although the search is far from its end. -/
theorem answersTruthfully_of_last_step :
    let g := (empty : Graph fun _ => 0).run
      [.declareType "Word" (some "Node"), .addNode "Word" "a", .addNode "Node" "n",
        .addNode "Word" "b", .addNode "Word" "c", .addNode "Word" "d"]
    let i : Inquiry := ⟨[.var ⟨"x", some "Word"⟩], [], ⟨some 5, none⟩⟩
    let caps : Caps := ⟨some 2, some 3⟩
    let plan : Plan := ((g.compile (i.toQuery caps).pattern).toOption).getD (.hopeless [])
    let search := Search.start g plan .none
    let found := (List.range (search.rows g).length).countP fun j =>
      (i.caps.meet caps).steps.all ((search.asked g (j + 1)).steps ≤ ·)
    g.Reachable ∧ g.compile (i.toQuery caps).pattern = .ok plan ∧
      (∀ most, (i.caps.meet caps).results = some most → most < Limits.lastCount) ∧
      Answers g (i.toQuery caps).pattern plan (search.rows g) ∧
      ∃ a, g.answer i caps = .ok a ∧
        a.Truthful (i.caps.meet caps) (search.rows g) found (search.final g).steps ∧
        a.rows.map (·.groundings) = [[⟨0⟩], [⟨2⟩]] ∧ a.truncated = true ∧ a.exhausted = false := by
  intro g i caps plan search found
  have reachable : g.Reachable := ⟨_, rfl⟩
  have accepted : g.compile (i.toQuery caps).pattern = .ok plan := rfl
  have small : ∀ most, (i.caps.meet caps).results = some most → most < Limits.lastCount := by
    rintro most ⟨⟩
    decide +kernel
  obtain ⟨answers, a, ha, truthful, -⟩ :=
    Reachable.answersTruthfully reachable i caps accepted small
  refine ⟨reachable, accepted, small, answers, a, ha, truthful, ?_⟩
  -- the search under the wider caps finds three words, and ends there
  have collected : (Search.collectWithin g 20 20
      (Search.start g plan (i.caps.meet caps).widen)).map (fun (rows, e) =>
        (rows.map (·.groundings), e.exhausted)) = some ([[⟨0⟩], [⟨2⟩], [⟨3⟩]], false) := by
    decide +kernel
  obtain ⟨⟨rows, e⟩, hcollect, heq⟩ := Option.map_eq_some_iff.mp collected
  rw [Prod.mk.injEq] at heq
  have ended := Search.rows_of_collectWithin hcollect
  have cut := Except.ok.inj (ha.symm.trans (answer_eq accepted))
  have most : (i.caps.meet caps).results = some 2 := rfl
  have three : rows.length = 3 := by
    rw [← List.length_map (·.groundings), heq.1]
    rfl
  rw [cut, cutAnswer, ended.1, ended.2, most, Caps.cut, Caps.cuts, List.map_take, heq.1, heq.2,
    three]
  exact ⟨rfl, rfl, rfl⟩

end Graph

end TypedHypergraph
