/-
# Single turns

What one turn of a search does, one equation for each kind of turn: there is no level left, the
deepest level is exhausted, its next atom goes beyond the cap, or this atom is tried.

A search without a cap on steps only counts upward (`Search.Follows`), one row at a time.
-/
import Mathlib.Tactic
import TypedHypergraph.Search.Rows

namespace TypedHypergraph

namespace Search

variable {digest : Content → UInt64} {plan : Plan}

/-! ## Kinds of turns -/

/-- A search with nothing on its stack is over. -/
theorem turn_of_nil (g : Graph digest) {s : Search plan} (hs : s.stack = []) :
    s.turn g = .over { s with done := true } := by
  rw [turn, hs]

/-- An exhausted level is left for the one above it, if there is one. -/
theorem turn_of_close (g : Graph digest) {s : Search plan} {mark : Nat} {below : List ChoicePoint}
    (hs : s.stack = ⟨[], mark⟩ :: below) :
    s.turn g =
      if below.isEmpty then
        .over { s with
          frame := retreat plan s.frame below.length mark, stack := below, done := true }
      else .onward { s with frame := retreat plan s.frame below.length mark, stack := below } := by
  rw [turn, hs]

/-- A turn that would try more atoms than the cap allows ends the search. -/
theorem turn_of_beyond (g : Graph digest) {s : Search plan} {h : Handle} {rest : List Handle}
    {mark : Nat} {below : List ChoicePoint} (hs : s.stack = ⟨h :: rest, mark⟩ :: below)
    (hb : beyond s.caps.steps (s.steps + 1) = true) :
    s.turn g = .over { s with
      frame := retreat plan s.frame below.length mark
      stack := ⟨rest, mark⟩ :: below
      steps := s.steps + 1
      done := true
      exhausted := true } := by
  rw [turn, hs]
  dsimp only
  rw [if_pos hb]

/-- The turn in which an atom is tried, given what came of it. -/
def tried (g : Graph digest) (s : Search plan) (rest : List Handle) (mark : Nat)
    (below : List ChoicePoint) : Bool × Frame → Turn plan
  | (false, frame) =>
    .onward { s with frame, stack := ⟨rest, mark⟩ :: below, steps := s.steps + 1 }
  | (true, frame) =>
    if plan.order.length ≤ below.length + 1 then
      .row (plan.rowOf frame) { s with
        frame, stack := ⟨rest, mark⟩ :: below, steps := s.steps + 1, found := s.found + 1 }
    else
      .onward { s with
        frame
        stack := ⟨candidatesAt g plan frame (below.length + 1), frame.trail.length⟩ ::
          ⟨rest, mark⟩ :: below
        steps := s.steps + 1 }

/-- A turn within the cap tries the next atom on top of the stack. -/
theorem turn_of_within (g : Graph digest) {s : Search plan} {h : Handle} {rest : List Handle}
    {mark : Nat} {below : List ChoicePoint} (hs : s.stack = ⟨h :: rest, mark⟩ :: below)
    (hb : beyond s.caps.steps (s.steps + 1) = false) :
    s.turn g = tried g s rest mark below
      (attempt g plan (retreat plan s.frame below.length mark) below.length h) := by
  rw [turn, hs]
  dsimp only
  rw [hb, if_neg Bool.false_ne_true]
  rcases attempt g plan (retreat plan s.frame below.length mark) below.length h with
    ⟨_ | _, frame⟩
  · rfl
  · rfl

/-! ## Turns up to a row -/

/-- To pull a search whose turn goes on is to pull it after that turn. -/
theorem pull_of_onward {g : Graph digest} {s s' : Search plan} (h : s.turn g = .onward s') :
    s.pull g = s'.pull g := by
  rw [pull]
  split
  · rename_i s₁ h₁
    rw [h] at h₁
    cases h₁
    rfl
  · rename_i r s₁ h₁
    rw [h] at h₁
    cases h₁
  · rename_i s₁ h₁
    rw [h] at h₁
    cases h₁

/-- To pull a search whose turn gives a row gives this row. -/
theorem pull_of_row {g : Graph digest} {s s' : Search plan} {r : Row}
    (h : s.turn g = .row r s') : s.pull g = (some r, s') := by
  rw [pull]
  split
  · rename_i s₁ h₁
    rw [h] at h₁
    cases h₁
  · rename_i r₁ s₁ h₁
    rw [h] at h₁
    cases h₁
    rfl
  · rename_i s₁ h₁
    rw [h] at h₁
    cases h₁

/-- To pull a search whose turn says that it is over gives nothing. -/
theorem pull_of_over {g : Graph digest} {s s' : Search plan} (h : s.turn g = .over s') :
    s.pull g = (none, s') := by
  rw [pull]
  split
  · rename_i s₁ h₁
    rw [h] at h₁
    cases h₁
  · rename_i r s₁ h₁
    rw [h] at h₁
    cases h₁
  · rename_i s₁ h₁
    rw [h] at h₁
    cases h₁
    rfl

/-- The next row, as long as a number of turns is enough to find it, by a recursion that can be
evaluated. -/
def pullWithin (g : Graph digest) : Nat → Search plan → Option (Option Row × Search plan)
  | 0, _ => none
  | turns + 1, s =>
    match s.turn g with
    | .onward s' => pullWithin g turns s'
    | .row r s' => some (some r, s')
    | .over s' => some (none, s')

/-- What is pulled within some turns is what is pulled. -/
theorem pull_of_pullWithin {g : Graph digest} {turns : Nat} {s : Search plan}
    {result : Option Row × Search plan} (h : pullWithin g turns s = some result) :
    s.pull g = result := by
  induction turns generalizing s with
  | zero => cases h
  | succ turns ih =>
    rw [pullWithin] at h
    rcases ht : s.turn g with s' | ⟨r, s'⟩ | s'
    · rw [ht] at h
      rw [pull_of_onward ht, ih h]
    · rw [ht] at h
      cases h
      exact pull_of_row ht
    · rw [ht] at h
      cases h
      exact pull_of_over ht

/-! ## Counting -/

/-- A search has gone on without a cap on steps, and has found some more rows. -/
structure Follows (s s' : Search plan) (more : Nat) : Prop where
  caps : s'.caps = s.caps
  exhausted : s'.exhausted = s.exhausted
  steps : s.steps ≤ s'.steps
  found : s'.found = s.found + more

theorem Follows.refl (s : Search plan) : Follows s s 0 := ⟨rfl, rfl, le_rfl, rfl⟩

theorem Follows.trans {s₁ s₂ s₃ : Search plan} {m n : Nat} (h : Follows s₁ s₂ m)
    (h' : Follows s₂ s₃ n) : Follows s₁ s₃ (m + n) where
  caps := h'.caps.trans h.caps
  exhausted := h'.exhausted.trans h.exhausted
  steps := h.steps.trans h'.steps
  found := by rw [h'.found, h.found, Nat.add_assoc]

/-- To try an atom is one step, and either nothing is found or one row. -/
theorem tried_cases (g : Graph digest) (s : Search plan) (rest : List Handle) (mark : Nat)
    (below : List ChoicePoint) (outcome : Bool × Frame) :
    (∃ s', tried g s rest mark below outcome = .onward s' ∧ s'.steps = s.steps + 1 ∧
      Follows s s' 0) ∨
    (∃ r s', tried g s rest mark below outcome = .row r s' ∧ s'.steps = s.steps + 1 ∧
      Follows s s' 1) := by
  rcases outcome with ⟨_ | _, frame⟩
  · exact .inl ⟨_, rfl, rfl, rfl, rfl, Nat.le_succ _, rfl⟩
  · unfold tried
    dsimp only
    by_cases hlast : plan.order.length ≤ below.length + 1
    · rw [if_pos hlast]
      exact .inr ⟨_, _, rfl, rfl, rfl, rfl, Nat.le_succ _, rfl⟩
    · rw [if_neg hlast]
      exact .inl ⟨_, rfl, rfl, rfl, rfl, Nat.le_succ _, rfl⟩

/-- **A turn without a cap on steps** only counts upward. -/
theorem follows_of_turn {g : Graph digest} {s : Search plan} (free : s.caps.steps = none) :
    match s.turn g with
    | .onward s' => Follows s s' 0
    | .row _ s' => Follows s s' 1
    | .over s' => Follows s s' 0 := by
  rcases hs : s.stack with _ | ⟨⟨_ | ⟨h, rest⟩, mark⟩, below⟩
  · rw [turn_of_nil g hs]
    exact ⟨rfl, rfl, le_rfl, rfl⟩
  · rw [turn_of_close g hs]
    cases below with
    | nil => exact ⟨rfl, rfl, le_rfl, rfl⟩
    | cons c below => exact ⟨rfl, rfl, le_rfl, rfl⟩
  · have hb : beyond s.caps.steps (s.steps + 1) = false := by
      rw [free]
      rfl
    rw [turn_of_within g hs hb]
    rcases tried_cases g s rest mark below
      (attempt g plan (retreat plan s.frame below.length mark) below.length h) with
      ⟨s', hs', -, hf⟩ | ⟨r, s', hs', -, hf⟩
    · rw [hs']
      exact hf
    · rw [hs']
      exact hf

/-- Up to the next row or the end, a search without a cap on steps only counts upward. -/
theorem follows_of_pull {g : Graph digest} {s : Search plan} (free : s.caps.steps = none) :
    Follows s (s.pull g).2 (s.pull g).1.toList.length := by
  fun_induction pull g s with
  | case1 s s₁ h₁ ih =>
    have first := follows_of_turn (g := g) free
    rw [h₁] at first
    have rest := ih (by rw [first.caps, free])
    simpa using first.trans rest
  | case2 s r s₁ h₁ =>
    have first := follows_of_turn (g := g) free
    rw [h₁] at first
    exact first
  | case3 s s₁ h₁ =>
    have first := follows_of_turn (g := g) free
    rw [h₁] at first
    exact first

end Search

end TypedHypergraph
