/-
# What goals say

A goal *holds* of an atom, for given atoms of the slots, if it stands for this atom (`Goal.Holds`).
The more slots are bound, the more goals hold; a goal that holds has all its slots bound.
-/
import TypedHypergraph.Graph.Basic
import TypedHypergraph.Plan.Compile
import TypedHypergraph.Proofs.Guards

namespace TypedHypergraph

variable {digest : Content → UInt64}

namespace Goal

mutual

/-- With atoms for its slots, a goal stands for an atom. -/
def Holds (g : Graph digest) (values : Nat → Option Handle) : Goal → Handle → Prop
  | .ground m, h => m = h
  | .slot i, h => values i = some h
  | .link type goals, h =>
    ∃ hs, HoldAll g values goals hs ∧ g.content? h = some (.link type hs)

/-- Goals stand for atoms one by one. -/
def HoldAll (g : Graph digest) (values : Nat → Option Handle) : List Goal → List Handle → Prop
  | [], hs => hs = []
  | goal :: rest, hs =>
    ∃ h more, Holds g values goal h ∧ HoldAll g values rest more ∧ hs = h :: more

end

/-- Goals that hold of atoms are as many as the atoms. -/
theorem length_of_holdAll {g : Graph digest} {values : Nat → Option Handle} {goals : List Goal}
    {hs : List Handle} (h : HoldAll g values goals hs) : hs.length = goals.length := by
  induction goals generalizing hs with
  | nil =>
    rw [HoldAll] at h
    rw [h]
    rfl
  | cons goal rest ih =>
    rw [HoldAll] at h
    obtain ⟨a, more, -, hmore, rfl⟩ := h
    rw [List.length_cons, List.length_cons, ih hmore]

/-- Goals hold one by one exactly if each holds at its place. -/
theorem holdAll_iff_getElem? {g : Graph digest} {values : Nat → Option Handle}
    {goals : List Goal} {hs : List Handle} : HoldAll g values goals hs ↔
      hs.length = goals.length ∧ ∀ (c : Nat) (goal : Goal) (h : Handle), goals[c]? = some goal →
        hs[c]? = some h → goal.Holds g values h := by
  induction goals generalizing hs with
  | nil => simp [HoldAll]
  | cons goal rest ih =>
    rw [HoldAll]
    constructor
    · rintro ⟨h, more, hgoal, hrest, rfl⟩
      obtain ⟨hlen, hall⟩ := ih.mp hrest
      refine ⟨by rw [List.length_cons, List.length_cons, hlen], ?_⟩
      intro c x a hx ha
      cases c with
      | zero =>
        cases hx
        cases ha
        exact hgoal
      | succ c => exact hall c x a hx ha
    · rintro ⟨hlen, hall⟩
      cases hs with
      | nil => cases hlen
      | cons h more =>
        refine ⟨h, more, hall 0 goal h rfl rfl, ih.mpr ⟨by simpa using hlen, ?_⟩, rfl⟩
        intro c x a hx ha
        exact hall (c + 1) x a hx ha

mutual

/-- **With more slots bound**, what held before still holds. -/
theorem Holds.mono {g : Graph digest} {values values' : Nat → Option Handle}
    (more : ∀ i h, values i = some h → values' i = some h) :
    ∀ (goal : Goal) {h : Handle}, goal.Holds g values h → goal.Holds g values' h
  | .ground m, h, hh => by
    rw [Holds] at hh ⊢
    exact hh
  | .slot i, h, hh => by
    rw [Holds] at hh ⊢
    exact more i h hh
  | .link type goals, h, hh => by
    rw [Holds] at hh ⊢
    obtain ⟨hs, hall, hc⟩ := hh
    exact ⟨hs, HoldAll.mono more goals hall, hc⟩

theorem HoldAll.mono {g : Graph digest} {values values' : Nat → Option Handle}
    (more : ∀ i h, values i = some h → values' i = some h) :
    ∀ (goals : List Goal) {hs : List Handle}, HoldAll g values goals hs →
      HoldAll g values' goals hs
  | [], hs, hh => by
    rw [HoldAll] at hh ⊢
    exact hh
  | goal :: rest, hs, hh => by
    rw [HoldAll] at hh ⊢
    obtain ⟨h, hs', hgoal, hrest, rfl⟩ := hh
    exact ⟨h, hs', Holds.mono more goal hgoal, HoldAll.mono more rest hrest, rfl⟩

end

/-- A goal with a ground handle is the ground goal of this handle. -/
theorem eq_ground_of_groundHandle? {goal : Goal} {h : Handle} (hg : goal.groundHandle? = some h) :
    goal = .ground h := by
  cases goal with
  | ground m =>
    cases hg
    rfl
  | slot i => cases hg
  | link type goals => cases hg

/-- Goals that are all ground stand for their handles only. -/
theorem holdAll_iff_of_ground {g : Graph digest} {values : Nat → Option Handle}
    {goals : List Goal} {handles : List Handle} (hg : Graph.groundAll? goals = some handles)
    {hs : List Handle} : HoldAll g values goals hs ↔ hs = handles := by
  rw [Graph.groundAll?, Guards.mapM_eq_some] at hg
  induction hg generalizing hs with
  | nil => rw [HoldAll]
  | cons hgoal _ ih =>
    rw [HoldAll, eq_ground_of_groundHandle? hgoal]
    simp only [Holds, ih]
    constructor
    · rintro ⟨a, more, rfl, rfl, rfl⟩
      rfl
    · rintro rfl
      exact ⟨_, _, rfl, rfl, rfl⟩

/-! ## Slots of a goal -/

mutual

/-- A slot stands somewhere in a goal. -/
def Mentions (i : Nat) : Goal → Prop
  | .ground _ => False
  | .slot j => j = i
  | .link _ goals => MentionedIn i goals

/-- A slot is mentioned in one of several goals. -/
def MentionedIn (i : Nat) : List Goal → Prop
  | [] => False
  | goal :: rest => Mentions i goal ∨ MentionedIn i rest

end

mutual

/-- A goal appends the slots that it mentions to those seen so far. -/
theorem mem_collect {i : Nat} : ∀ (goal : Goal) (seen : List Nat),
    i ∈ goal.collect seen ↔ i ∈ seen ∨ goal.Mentions i
  | .ground m, seen => by
    rw [collect, Mentions, or_false]
  | .slot j, seen => by
    rw [collect, Mentions]
    by_cases hj : j ∈ seen
    · rw [if_pos hj]
      constructor
      · exact .inl
      · rintro (hi | rfl)
        · exact hi
        · exact hj
    · rw [if_neg hj, List.mem_append, List.mem_singleton, eq_comm]
  | .link type goals, seen => by
    rw [collect, Mentions, mem_collectAll goals]

/-- Several goals append the slots that they mention to those seen so far. -/
theorem mem_collectAll {i : Nat} : ∀ (goals : List Goal) (seen : List Nat),
    i ∈ collectAll seen goals ↔ i ∈ seen ∨ MentionedIn i goals
  | [], seen => by
    rw [collectAll, MentionedIn, or_false]
  | goal :: rest, seen => by
    rw [collectAll, MentionedIn, mem_collectAll rest, mem_collect goal, or_assoc]

end

/-- The slots of a goal are those that it mentions. -/
theorem mem_slots {i : Nat} {goal : Goal} : i ∈ goal.slots ↔ goal.Mentions i := by
  rw [slots, mem_collect]
  simp

/-- A slot is mentioned in several goals exactly if one of them mentions it. -/
theorem mentionedIn_iff {i : Nat} {goals : List Goal} :
    MentionedIn i goals ↔ ∃ goal ∈ goals, goal.Mentions i := by
  induction goals with
  | nil => simp [MentionedIn]
  | cons goal rest ih => simp [MentionedIn, ih]

/-- Goals that are all ground have no slot. -/
theorem not_mentionedIn_of_ground {i : Nat} {goals : List Goal} {handles : List Handle}
    (hg : Graph.groundAll? goals = some handles) : ¬ MentionedIn i goals := by
  rw [Graph.groundAll?, Guards.mapM_eq_some] at hg
  induction hg with
  | nil => exact id
  | cons hgoal _ ih =>
    rw [MentionedIn, eq_ground_of_groundHandle? hgoal]
    rintro (hi | hi)
    · exact hi
    · exact ih hi

mutual

/-- **A goal that holds** has all its slots bound. -/
theorem Holds.bound {g : Graph digest} {values : Nat → Option Handle} {i : Nat} :
    ∀ (goal : Goal) {h : Handle}, goal.Holds g values h → goal.Mentions i →
      ∃ x, values i = some x
  | .ground m, h, _, hi => by
    rw [Mentions] at hi
    exact hi.elim
  | .slot j, h, hh, hi => by
    rw [Holds] at hh
    rw [Mentions] at hi
    subst hi
    exact ⟨h, hh⟩
  | .link type goals, h, hh, hi => by
    rw [Holds] at hh
    rw [Mentions] at hi
    obtain ⟨hs, hall, -⟩ := hh
    exact HoldAll.bound goals hall hi

/-- Each slot that is mentioned in goals that hold has a value. -/
theorem HoldAll.bound {g : Graph digest} {values : Nat → Option Handle} {i : Nat} :
    ∀ (goals : List Goal) {hs : List Handle}, HoldAll g values goals hs → MentionedIn i goals →
      ∃ x, values i = some x
  | [], hs, _, hi => by
    rw [MentionedIn] at hi
    exact hi.elim
  | goal :: rest, hs, hh, hi => by
    rw [HoldAll] at hh
    rw [MentionedIn] at hi
    obtain ⟨h, more, hgoal, hrest, -⟩ := hh
    rcases hi with hi | hi
    · exact Holds.bound goal hgoal hi
    · exact HoldAll.bound rest hrest hi

end

end Goal

end TypedHypergraph
