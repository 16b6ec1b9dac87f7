/-
# The course of a search

A search goes from turn to turn, under some caps, while truth values are updated, and it may be
stopped when it has found as many rows as are wanted.  The *course* of a search (`Search.Course`)
leads through all points that it can come to: what holds at its start and is kept by updates and by
turns holds at all of them.

What one turn can do is said once (`Search.Move`), so that nothing that is kept has to be shown by
taking the turn apart again.  At all points of the course of a search every level of its stack finds
its frame again, and this frame is vetted (`Search.Course.steady`).
-/
import TypedHypergraph.Proofs.Caps
import TypedHypergraph.Proofs.LiveTruth

namespace TypedHypergraph

namespace Search

variable {digest : Content → UInt64} {g m now : Graph digest} {past : List (Graph digest)}
  {plan : Plan} {caps : Caps} {s : Search plan}

/-! ## What a turn can do -/

/-- The search after one more atom has been tried. -/
def stepped (s : Search plan) (frame : Frame) (stack : List ChoicePoint) : Search plan :=
  { s with frame, stack, steps := s.steps + 1 }

/-- The next atom of the deepest level is tried in a graph, and leaves a frame behind. -/
structure Trial (m : Graph digest) (s : Search plan) (h : Handle) (rest : List Handle) (mark : Nat)
    (below : List ChoicePoint) (fits : Bool) (f : Frame) : Prop where
  stack : s.stack = ⟨h :: rest, mark⟩ :: below
  within : beyond s.caps.steps (s.steps + 1) = false
  tried : attempt m plan (retreat plan s.frame below.length mark) below.length h = (fits, f)

/-- What a turn in a graph can do. -/
inductive Move (m : Graph digest) (s : Search plan) : Turn plan → Prop
  /-- There is no level. -/
  | none (stack : s.stack = []) : Move m s (.over { s with done := true })
  /-- The last level is left. -/
  | last {mark : Nat} (stack : s.stack = [⟨[], mark⟩]) :
    Move m s (.over { s with frame := retreat plan s.frame 0 mark, stack := [], done := true })
  /-- A level is left for the one above it. -/
  | close {mark : Nat} {c : ChoicePoint} {below : List ChoicePoint}
    (stack : s.stack = ⟨[], mark⟩ :: c :: below) :
    Move m s (.onward { s with
      frame := retreat plan s.frame (c :: below).length mark, stack := c :: below })
  /-- An atom is taken that goes beyond the cap. -/
  | beyond {h : Handle} {rest : List Handle} {mark : Nat} {below : List ChoicePoint}
    (stack : s.stack = ⟨h :: rest, mark⟩ :: below)
    (late : beyond s.caps.steps (s.steps + 1) = true) :
    Move m s (.over
      { s.stepped (retreat plan s.frame below.length mark) (⟨rest, mark⟩ :: below) with
        done := true, exhausted := true })
  /-- The atom does not fit, or a check turns it down. -/
  | reject {h : Handle} {rest : List Handle} {mark : Nat} {below : List ChoicePoint} {f : Frame}
    (trial : Trial m s h rest mark below false f) :
    Move m s (.onward (s.stepped f (⟨rest, mark⟩ :: below)))
  /-- The atom is the last one of a row. -/
  | row {h : Handle} {rest : List Handle} {mark : Nat} {below : List ChoicePoint} {f : Frame}
    (trial : Trial m s h rest mark below true f) (deep : plan.order.length ≤ below.length + 1) :
    Move m s (.row (plan.rowOf f)
      { s.stepped f (⟨rest, mark⟩ :: below) with found := s.found + 1 })
  /-- Below the atom a level is entered. -/
  | descend {h : Handle} {rest : List Handle} {mark : Nat} {below : List ChoicePoint} {f : Frame}
    (trial : Trial m s h rest mark below true f) (room : below.length + 1 < plan.order.length) :
    Move m s (.onward (s.stepped f
      (⟨candidatesAt m plan f (below.length + 1), f.trail.length⟩ :: ⟨rest, mark⟩ :: below)))

/-- **A turn** is one of the moves. -/
theorem move_turn (m : Graph digest) (s : Search plan) : Move m s (s.turn m) := by
  rcases hs : s.stack with _ | ⟨⟨_ | ⟨h, rest⟩, mark⟩, below⟩
  · rw [turn_of_nil m hs]
    exact .none hs
  · rw [turn_of_close m hs]
    cases below with
    | nil => exact .last hs
    | cons c below => exact .close hs
  · cases hb : Search.beyond s.caps.steps (s.steps + 1) with
    | true =>
      rw [turn_of_beyond m hs hb]
      exact .beyond hs hb
    | false =>
      rw [turn_of_within m hs hb]
      rcases ha : attempt m plan (retreat plan s.frame below.length mark) below.length h with
        ⟨_ | _, f⟩
      · exact .reject ⟨hs, hb, ha⟩
      · unfold Search.tried
        dsimp only
        by_cases hlast : plan.order.length ≤ below.length + 1
        · rw [if_pos hlast]
          exact .row ⟨hs, hb, ha⟩ hlast
        · rw [if_neg hlast]
          exact .descend ⟨hs, hb, ha⟩ (Nat.lt_of_not_le hlast)

/-- A turn that goes on does not end the search. -/
theorem done_of_onward {s' : Search plan} (turned : s.turn m = .onward s') : s'.done = s.done := by
  have move := move_turn m s
  rw [turned] at move
  cases move <;> rfl

/-! ## The points of a search -/

/-- The search over an empty plan has nothing on its stack at the start. -/
theorem stack_start_of_isEmpty (g : Graph digest) (caps : Caps) (h : plan.isEmpty = true) :
    (start g plan caps).stack = [] := by
  show (if plan.isEmpty then [] else _) = _
  rw [h, if_pos rfl]

/-- The search over a plan starts with the candidates for its first goal. -/
theorem stack_start (g : Graph digest) (caps : Caps) (h : plan.isEmpty = false) :
    (start g plan caps).stack = [⟨candidatesAt g plan (Frame.empty plan) 0, 0⟩] := by
  show (if plan.isEmpty then [] else _) = _
  rw [h, if_neg Bool.false_ne_true]

/-- The points that a search of a plan can come to, each with the graphs of the moments so far, the
present one first. -/
inductive Course (g : Graph digest) (plan : Plan) (caps : Caps) :
    List (Graph digest) → Search plan → Prop
  | start : Course g plan caps [g] (start g plan caps)
  /-- A truth value is updated. -/
  | update {now : Graph digest} {past : List (Graph digest)} {s : Search plan}
    (u : TruthUpdate) (before : Course g plan caps (now :: past) s) :
    Course g plan caps (now.apply u.action :: now :: past) s
  /-- A turn is taken. -/
  | turn {now : Graph digest} {past : List (Graph digest)} {s : Search plan}
    (before : Course g plan caps (now :: past) s) (live : s.done = false) :
    Course g plan caps (now :: past) (s.turn now).search
  /-- Another row is not wanted. -/
  | stop {past : List (Graph digest)} {s : Search plan} (before : Course g plan caps past s)
    (full : s.full = true) : Course g plan caps past { s with done := true }

namespace Course

/-- **The graphs of a course** differ in truth values only. -/
theorem alike (course : Course g plan caps past s) : ∀ m ∈ past, g.Alike m := by
  induction course with
  | start =>
    intro m hm
    rw [List.mem_singleton.mp hm]
    exact .refl g
  | @update now past s u _ ih =>
    rw [List.forall_mem_cons]
    exact ⟨(ih now List.mem_cons_self).trans (Graph.alike_apply now u), ih⟩
  | turn _ _ ih => exact ih
  | stop _ _ ih => exact ih

/-- The turns up to the next row, or to the end, are on the course. -/
theorem pull (course : Course g plan caps (now :: past) s) (live : s.done = false) :
    Course g plan caps (now :: past) (s.pull now).2 := by
  fun_induction Search.pull now s with
  | case1 s s₁ h₁ ih =>
    have turned := course.turn live
    rw [h₁] at turned
    exact ih turned ((done_of_onward h₁).trans live)
  | case2 s r s₁ h₁ =>
    have turned := course.turn live
    rw [h₁] at turned
    exact turned
  | case3 s s₁ h₁ =>
    have turned := course.turn live
    rw [h₁] at turned
    exact turned

/-- **To ask for a row** stays on the course. -/
theorem next (course : Course g plan caps (now :: past) s) :
    Course g plan caps (now :: past) (s.next now).2 := by
  unfold Search.next
  cases hdone : s.done with
  | true => exact course
  | false =>
    rw [if_neg Bool.false_ne_true]
    cases hfull : s.full with
    | true => exact course.stop hfull
    | false => exact course.pull hdone

/-- Several updates stay on the course. -/
theorem updates (course : Course g plan caps (now :: past) s) (us : List TruthUpdate) :
    ∃ earlier, Course g plan caps (now.run (us.map (·.action)) :: earlier) s := by
  induction us generalizing now past with
  | nil => exact ⟨past, course⟩
  | cons u us ih => exact ih (course.update u)

/-- **What frames keep** when they are retreated from and when atoms are tried holds of all frames
of a course. -/
theorem frame {P : Frame → Prop} (empty : P (Frame.empty plan))
    (retreats : ∀ f depth mark, P f → P (retreat plan f depth mark))
    (attempts : ∀ (m : Graph digest) f depth h, P f → P (attempt m plan f depth h).2)
    (course : Course g plan caps past s) : P s.frame := by
  induction course with
  | start => exact empty
  | update _ _ ih => exact ih
  | @turn now past s _ _ ih =>
    have tries : ∀ {h rest mark below fits f}, Trial now s h rest mark below fits f → P f := by
      intro h rest mark below fits f trial
      have kept := attempts now _ below.length h (retreats s.frame below.length mark ih)
      rw [trial.tried] at kept
      exact kept
    have move := move_turn now s
    generalize s.turn now = t at move
    cases move with
    | none => exact ih
    | last => exact retreats _ _ _ ih
    | close => exact retreats _ _ _ ih
    | beyond => exact retreats _ _ _ ih
    | reject trial => exact tries trial
    | row trial => exact tries trial
    | descend trial => exact tries trial
  | stop _ _ ih => exact ih

end Course

/-! ## Levels find their frames -/

/-- Every level of a search finds its frame again, and this frame is vetted. -/
structure Steady (g : Graph digest) (past : List (Graph digest)) (s : Search plan) : Prop where
  settled : Settled plan s.stack s.frame
  founded : Founded g plan past s.stack s.frame

/-- The frame that the deepest level of a search finds, with its atoms. -/
structure Regained (g : Graph digest) (past : List (Graph digest)) (plan : Plan) (f : Frame)
    (hs : List Handle) (mark depth : Nat) : Prop where
  length : hs.length = depth
  vetted : plan.Vetted g past f hs
  lt : depth < plan.order.length
  trail : f.trail.length = mark
  tidy : Tidy plan f depth

namespace Steady

/-- **The deepest level** of a search finds its frame. -/
theorem regained (h : Steady g past s) {remaining : List Handle} {mark : Nat}
    {below : List ChoicePoint} (stack : s.stack = ⟨remaining, mark⟩ :: below) :
    ∃ hs, Regained g past plan (retreat plan s.frame below.length mark) hs mark below.length := by
  obtain ⟨settled, founded⟩ := h
  rw [stack] at settled founded
  obtain ⟨depth, trail, tidy, -⟩ := settled
  obtain ⟨⟨hs, length, vetted⟩, -⟩ := founded
  exact ⟨hs, length, vetted, depth, trail, tidy⟩

/-- There are never more levels than clauses. -/
theorem length_stack_le (h : Steady g past s) : s.stack.length ≤ plan.order.length := by
  rcases hs : s.stack with _ | ⟨⟨remaining, mark⟩, below⟩
  · exact Nat.zero_le _
  · obtain ⟨_, regained⟩ := h.regained hs
    exact regained.lt

/-- A level is still found from another frame that leads back to the same one. -/
theorem of_retreat {t : Search plan} {remaining rest : List Handle} {mark : Nat}
    {below : List ChoicePoint} (h : Steady g past s) (stack : s.stack = ⟨remaining, mark⟩ :: below)
    (stack' : t.stack = ⟨rest, mark⟩ :: below)
    (back : retreat plan t.frame below.length mark = retreat plan s.frame below.length mark) :
    Steady g past t := by
  obtain ⟨settled, founded⟩ := h
  rw [stack] at settled founded
  constructor
  · rw [stack', Settled, back]
    exact settled
  · rw [stack', Founded, back]
    exact founded

end Steady

namespace Regained

variable {f f' : Frame} {hs : List Handle} {mark depth : Nat}

/-- Going back to where a frame already stands does not change it. -/
theorem retreat_self (h : Regained g past plan f hs mark depth) :
    retreat plan f depth mark = f := by
  rw [← h.trail]
  exact Search.retreat_self h.tidy

/-- After an attempt the level finds its frame. -/
theorem retreat_attempt (h : Regained g past plan f hs mark depth) {a : Handle} {fits : Bool}
    (ha : attempt m plan f depth a = (fits, f')) : retreat plan f' depth mark = f := by
  have hc := List.getElem?_eq_getElem h.lt
  have back := Search.retreat_attempt (g := m) hc (h.tidy _ _ le_rfl hc) a
  rw [ha, h.trail] at back
  exact back

/-- **An attempt that succeeds** leaves a frame for the next level. -/
theorem deeper (h : Regained g past plan f hs mark depth) (ready : plan.Ready)
    (alike : g.Alike m) (now : m ∈ past) {a : Handle}
    (ha : attempt m plan f depth a = (true, f')) :
    plan.Vetted g past f' (hs ++ [a]) ∧ Tidy plan f' (depth + 1) := by
  refine ⟨?_, h.tidy.attempt ready.nodup h.lt ha⟩
  -- what the unchecked attempt leaves has passed the checks of the depth
  rw [alike.attempt_eq, Prod.mk.injEq, Bool.and_eq_true] at ha
  obtain ⟨⟨fits, passes⟩, left⟩ := ha
  rw [left] at passes
  exact h.vetted.attempt ready now h.length h.lt (Prod.ext fits left) passes

end Regained

/-- After an atom has been tried its level is found again. -/
theorem Steady.tried (h : Steady g past s) {a : Handle} {rest : List Handle} {mark : Nat}
    {below : List ChoicePoint} {fits : Bool} {f : Frame}
    (trial : Trial m s a rest mark below fits f) :
    Steady g past (s.stepped f (⟨rest, mark⟩ :: below)) := by
  obtain ⟨_, regained⟩ := h.regained trial.stack
  exact h.of_retreat trial.stack rfl (regained.retreat_attempt trial.tried)

/-- A search that begins is steady. -/
theorem steady_start (g : Graph digest) (plan : Plan) (caps : Caps) :
    Steady g [g] (start g plan caps) := by
  cases hempty : plan.isEmpty with
  | true =>
    have hstack := stack_start_of_isEmpty g caps hempty
    constructor
    · rw [hstack]
      trivial
    · rw [hstack]
      trivial
  | false => exact ⟨(ahead_start (g := g) caps hempty).1, (underway_start [g] hempty).1.founded⟩

/-- **A turn** keeps a search steady. -/
theorem Steady.turn (ready : plan.isEmpty = false → plan.Ready) (alike : g.Alike m)
    (now : m ∈ past) (h : Steady g past s) : Steady g past (s.turn m).search := by
  have move := move_turn m s
  generalize s.turn m = t at move
  cases move with
  | none => exact ⟨h.settled, h.founded⟩
  | last => exact ⟨trivial, trivial⟩
  | close stack =>
    obtain ⟨settled, founded⟩ := h
    rw [stack] at settled founded
    exact ⟨settled.2.2.2, founded.2⟩
  | beyond stack =>
    obtain ⟨_, regained⟩ := h.regained stack
    exact h.of_retreat stack rfl regained.retreat_self
  | reject trial => exact h.tried trial
  | row trial =>
    have kept := h.tried trial
    exact ⟨kept.settled, kept.founded⟩
  | @descend a rest mark below f trial room =>
    have kept := h.tried trial
    obtain ⟨hs, regained⟩ := h.regained trial.stack
    have ready := ready (isEmpty_eq_false.mpr (Nat.zero_lt_of_lt room))
    obtain ⟨vetted, tidy⟩ := regained.deeper ready alike now trial.tried
    refine ⟨settled_enter (⟨rest, mark⟩ :: below) tidy room kept.settled _, ?_⟩
    -- the level that is entered finds the frame that the attempt left
    have entered : retreat plan f (below.length + 1) f.trail.length = f := retreat_self tidy
    have length : (hs ++ [a]).length = below.length + 1 := by
      rw [List.length_append, List.length_singleton, regained.length]
    show Founded g plan past (⟨_, _⟩ :: ⟨rest, mark⟩ :: below) f
    rw [Founded]
    simp only [List.length_cons, entered]
    exact ⟨⟨_, length, vetted⟩, kept.founded⟩

/-- **At all points** of a course every level finds its frame again. -/
theorem Course.steady (ready : plan.isEmpty = false → plan.Ready)
    (course : Course g plan caps past s) : Steady g past s := by
  induction course with
  | start => exact steady_start g plan caps
  | update _ _ ih => exact ⟨ih.settled, ih.founded.mono (List.subset_cons_self _ _)⟩
  | @turn now past s before _ ih =>
    exact ih.turn ready (before.alike now List.mem_cons_self) List.mem_cons_self
  | stop _ _ ih => exact ⟨ih.settled, ih.founded⟩

/-- A plan of a pattern is ready if there is something to search. -/
theorem ready_of_compile {p : Pattern} (hg : g.Covered) (accepted : g.compile p = .ok plan)
    (nonempty : plan.isEmpty = false) : plan.Ready := by
  rw [isEmpty_eq_false, List.length_pos_iff] at nonempty
  exact (Graph.compiled_of_order_ne_nil hg accepted nonempty).ready

end Search

end TypedHypergraph
