/-
# Caps

A search with caps does what the search without caps does, up to a point: it hands out the first
rows of that search, as many as are wanted and as can be found in the steps that it may take, and
then ends (`Search.cutShort`).  It is *exhausted* if it ended because of its steps.

Turn by turn the two searches differ in nothing but their caps (`Search.capped`) until the steps
are used up.
-/
import TypedHypergraph.Proofs.Asking
import TypedHypergraph.Proofs.Turns

namespace TypedHypergraph

/-- Do something to the search after a turn. -/
def Turn.map {plan : Plan} (f : Search plan → Search plan) : Turn plan → Turn plan
  | .onward s => .onward (f s)
  | .row r s => .row r (f s)
  | .over s => .over (f s)

/-- The search after a turn. -/
def Turn.search {plan : Plan} : Turn plan → Search plan
  | .onward s => s
  | .row _ s => s
  | .over s => s

namespace Search

variable {digest : Content → UInt64} {plan : Plan} {g : Graph digest}

/-- The same search with other caps. -/
def capped (s : Search plan) (caps : Caps) : Search plan := { s with caps }

/-- A search that has ended because it went one step beyond its cap. -/
structure Spent (caps : Caps) (s : Search plan) : Prop where
  done : s.done = true
  exhausted : s.exhausted = true
  steps : ∃ most, caps.steps = some most ∧ s.steps = most + 1

/-- What is beyond a cap stays beyond it when more is tried. -/
theorem beyond_mono {cap : Option Nat} {m n : Nat} (hle : m ≤ n) (hb : beyond cap m = true) :
    beyond cap n = true := by
  cases cap with
  | none => cases hb
  | some most =>
    simp only [beyond, decide_eq_true_eq] at hb ⊢
    omega

/-- A number is beyond a cap exactly if there is a cap and it is greater. -/
theorem beyond_iff {cap : Option Nat} {n : Nat} :
    beyond cap n = true ↔ ∃ most, cap = some most ∧ most < n := by
  cases cap <;> simp [beyond]

/-! ## Turn by turn -/

/-- Trying an atom under caps is trying it and then putting the caps on. -/
theorem tried_capped (s : Search plan) (caps : Caps) (rest : List Handle) (mark : Nat)
    (below : List ChoicePoint) (outcome : Bool × Frame) :
    tried g (s.capped caps) rest mark below outcome
      = (tried g s rest mark below outcome).map (capped · caps) := by
  rcases outcome with ⟨_ | _, frame⟩
  · rfl
  · unfold tried
    dsimp only
    by_cases hlast : plan.order.length ≤ below.length + 1
    · rw [if_pos hlast, if_pos hlast]
      rfl
    · rw [if_neg hlast, if_neg hlast]
      rfl

/-- **A turn within the cap** is the turn without it; the turn that goes beyond it is the last. -/
theorem turn_capped {s : Search plan} (free : s.caps.steps = none) (caps : Caps)
    (within : beyond caps.steps s.steps = false) :
    (beyond caps.steps (s.turn g).search.steps = false ∧
      (s.capped caps).turn g = (s.turn g).map (capped · caps)) ∨
    (beyond caps.steps (s.turn g).search.steps = true ∧
      ∃ e, (s.capped caps).turn g = .over e ∧ Spent caps e) := by
  rcases hs : s.stack with _ | ⟨⟨_ | ⟨h, rest⟩, mark⟩, below⟩
  · rw [turn_of_nil g hs, turn_of_nil g (s := s.capped caps) hs]
    exact .inl ⟨within, rfl⟩
  · rw [turn_of_close g hs, turn_of_close g (s := s.capped caps) hs]
    cases below with
    | nil => exact .inl ⟨within, rfl⟩
    | cons c below => exact .inl ⟨within, rfl⟩
  · have hb : beyond s.caps.steps (s.steps + 1) = false := by
      rw [free]
      rfl
    -- the atom counts as a step, whether it fits or not
    have count : (s.turn g).search.steps = s.steps + 1 := by
      rw [turn_of_within g hs hb]
      rcases tried_cases g s rest mark below
        (attempt g plan (retreat plan s.frame below.length mark) below.length h) with
        ⟨s', hs', hsteps, -⟩ | ⟨r, s', hs', hsteps, -⟩
      · rw [hs']
        exact hsteps
      · rw [hs']
        exact hsteps
    rw [count]
    cases hcap : beyond caps.steps (s.steps + 1) with
    | false =>
      rw [turn_of_within g hs hb, turn_of_within g (s := s.capped caps) hs hcap, tried_capped]
      exact .inl ⟨rfl, rfl⟩
    | true =>
      rw [turn_of_beyond g (s := s.capped caps) hs hcap]
      obtain ⟨most, hmost, hlt⟩ := beyond_iff.mp hcap
      have hle : ¬ most < s.steps := by
        intro hlt'
        rw [beyond_iff.mpr ⟨most, hmost, hlt'⟩] at within
        cases within
      refine .inr ⟨rfl, _, rfl, rfl, rfl, most, hmost, ?_⟩
      show s.steps + 1 = most + 1
      omega

/-- **Up to the next row** or the end, the same holds. -/
theorem pull_capped {s : Search plan} (free : s.caps.steps = none) (caps : Caps)
    (within : beyond caps.steps s.steps = false) :
    (beyond caps.steps (s.pull g).2.steps = false ∧
      (s.capped caps).pull g = ((s.pull g).1, (s.pull g).2.capped caps)) ∨
    (beyond caps.steps (s.pull g).2.steps = true ∧
      ∃ e, (s.capped caps).pull g = (none, e) ∧ Spent caps e) := by
  fun_induction pull g s with
  | case1 s s₁ h₁ ih =>
    have follows := follows_of_turn (g := g) free
    have alike := turn_capped (g := g) free caps within
    rw [h₁] at follows alike
    -- steps never become fewer: what is beyond the cap after one turn stays beyond it
    have free₁ : s₁.caps.steps = none := by rw [follows.caps, free]
    rcases alike with ⟨hwithin, hturn⟩ | ⟨hbeyond, e, hturn, hspent⟩
    · rw [pull_of_onward hturn]
      exact ih free₁ hwithin
    · have hbeyond' := beyond_mono (follows_of_pull (g := g) free₁).steps hbeyond
      exact .inr ⟨hbeyond', e, pull_of_over hturn, hspent⟩
  | case2 s r s₁ h₁ =>
    have alike := turn_capped (g := g) free caps within
    rw [h₁] at alike
    rcases alike with ⟨hwithin, hturn⟩ | ⟨hbeyond, e, hturn, hspent⟩
    · exact .inl ⟨hwithin, pull_of_row hturn⟩
    · exact .inr ⟨hbeyond, e, pull_of_over hturn, hspent⟩
  | case3 s s₁ h₁ =>
    have alike := turn_capped (g := g) free caps within
    rw [h₁] at alike
    rcases alike with ⟨hwithin, hturn⟩ | ⟨hbeyond, e, hturn, hspent⟩
    · exact .inl ⟨hwithin, pull_of_over hturn⟩
    · exact .inr ⟨hbeyond, e, pull_of_over hturn, hspent⟩

/-! ## Row by row -/

/-- Asking a search without caps for a row follows on from it by the rows it gave. -/
theorem follows_of_next {s : Search plan} (free : s.caps = .none) :
    Follows s (s.next g).2 (s.next g).1.toList.length := by
  unfold next
  split
  · exact .refl s
  · have hfull : s.full = false := by
      rw [full, free]
      rfl
    rw [hfull, if_neg Bool.false_ne_true]
    apply follows_of_pull
    rw [free]
    rfl

/-- A search without caps has tried at least as many atoms at its end. -/
theorem steps_le_final {s : Search plan} (free : s.caps = .none) :
    s.steps ≤ (s.final g).steps := by
  induction s using rows_induction (g := g) with
  | ended s s' h =>
    have follows := follows_of_next (g := g) free
    rw [h] at follows
    rw [final_of_none h]
    exact follows.steps
  | more s r s' h ih =>
    have follows := follows_of_next (g := g) free
    rw [h] at follows
    rw [final_of_some h]
    exact follows.steps.trans (ih (follows.caps.trans free))

/-- A search without caps has tried at least as many atoms after some requests. -/
theorem steps_le_asked {s : Search plan} (free : s.caps = .none) (k : Nat) :
    s.steps ≤ (s.asked g k).steps := by
  induction k generalizing s with
  | zero => exact le_rfl
  | succ k ih =>
    have follows := follows_of_next (g := g) free
    exact follows.steps.trans (ih (follows.caps.trans free))

/-- A capped search has all rows it may give exactly if the cap on rows is at most what it has
found. -/
theorem full_capped_iff {s : Search plan} {caps : Caps} :
    (s.capped caps).full = true ↔ ∃ most, caps.results = some most ∧ most ≤ s.found := by
  unfold full capped
  cases hr : caps.results <;> simp

/-- A search that has found as many rows as are wanted ends where it stands. -/
theorem next_capped_of_full {s : Search plan} {caps : Caps} (live : s.done = false)
    (hfull : (s.capped caps).full = true) :
    (s.capped caps).next g = (none, { s.capped caps with done := true }) := by
  have hlive : ¬ (s.capped caps).done = true := by
    show ¬ s.done = true
    rw [live]
    exact Bool.false_ne_true
  rw [next, if_neg hlive, if_pos hfull]

/-- **The next row** under caps is the next one without caps, if the steps are enough for it. -/
theorem next_capped {s : Search plan} (free : s.caps = .none) {caps : Caps}
    (within : beyond caps.steps s.steps = false)
    (wanted : s.done = true ∨ (s.capped caps).full = false) :
    (beyond caps.steps (s.next g).2.steps = false ∧
      (s.capped caps).next g = ((s.next g).1, (s.next g).2.capped caps)) ∨
    (beyond caps.steps (s.next g).2.steps = true ∧
      ∃ e, (s.capped caps).next g = (none, e) ∧ Spent caps e) := by
  cases hdone : s.done with
  | true =>
    rw [next_of_done hdone, next_of_done (s := s.capped caps) hdone]
    exact .inl ⟨within, rfl⟩
  | false =>
    have hfull : (s.capped caps).full = false := by
      rcases wanted with hd | hf
      · rw [hdone] at hd
        cases hd
      · exact hf
    have hfull' : s.full = false := by
      rw [full, free]
      rfl
    -- neither search is over or has its rows, so both go on
    have plain : s.next g = s.pull g := by
      rw [next, hdone, hfull', if_neg Bool.false_ne_true, if_neg Bool.false_ne_true]
    have same : (s.capped caps).next g = (s.capped caps).pull g := by
      have hlive : ¬ (s.capped caps).done = true := by
        show ¬ s.done = true
        rw [hdone]
        exact Bool.false_ne_true
      rw [next, if_neg hlive, hfull, if_neg Bool.false_ne_true]
    rw [plain, same]
    apply pull_capped _ caps within
    rw [free]
    rfl

/-! ## How many rows -/

/-- For how many rows of a search the steps of a cap are enough. -/
def affordable (g : Graph digest) (s : Search plan) (caps : Caps) : Nat :=
  (List.range (s.rows g).length).countP fun j => caps.steps.all ((s.asked g (j + 1)).steps ≤ ·)

/-- How many rows a search hands out under caps: as many as are still wanted, and as the steps are
enough for. -/
def granted (g : Graph digest) (s : Search plan) (caps : Caps) : Nat :=
  match caps.results with
  | some most => min (most - s.found) (affordable g s caps)
  | none => affordable g s caps

/-- A cap lets a number through exactly if the number is not beyond it. -/
theorem all_le_iff {cap : Option Nat} {n : Nat} :
    cap.all (n ≤ ·) = true ↔ beyond cap n = false := by
  cases cap <;> simp [beyond]

/-- A search that has no further row has none that caps could afford. -/
theorem affordable_of_none {s s' : Search plan} (h : s.next g = (none, s')) (caps : Caps) :
    affordable g s caps = 0 := by
  rw [affordable, rows_of_none h]
  rfl

/-- A row within the cap on steps is one more that is affordable. -/
theorem affordable_of_some {s s' : Search plan} {r : Row} (h : s.next g = (some r, s'))
    {caps : Caps} (within : beyond caps.steps s'.steps = false) :
    affordable g s caps = affordable g s' caps + 1 := by
  rw [affordable, rows_of_some h, List.length_cons, List.range_succ_eq_map, List.countP_cons,
    List.countP_map, affordable]
  have first : (s.asked g (0 + 1)).steps = s'.steps := by
    rw [asked_succ_of_some h]
    rfl
  rw [first, if_pos (all_le_iff.mpr within)]
  congr 2
  funext j
  rw [Function.comp_apply, asked_succ_of_some h]

/-- Steps only grow, so that a row that comes too late is the last to be considered. -/
theorem affordable_of_beyond {s : Search plan} (free : s.caps = .none) {caps : Caps}
    (late : beyond caps.steps (s.next g).2.steps = true) : affordable g s caps = 0 := by
  rw [affordable, List.countP_eq_zero]
  intro j _ hj
  have follows := follows_of_next (g := g) free
  have hle := steps_le_asked (g := g) (follows.caps.trans free) j
  have hbeyond := beyond_mono hle late
  rw [all_le_iff] at hj
  rw [asked, hbeyond] at hj
  cases hj

/-- Where no row is affordable none is granted. -/
theorem granted_of_zero {s : Search plan} {caps : Caps} (h : affordable g s caps = 0) :
    granted g s caps = 0 := by
  unfold granted
  rw [h]
  cases caps.results <;> simp

/-- A row within both caps is one more that is granted. -/
theorem granted_of_some {s s' : Search plan} {r : Row} (h : s.next g = (some r, s'))
    {caps : Caps} (within : beyond caps.steps s'.steps = false)
    (wanted : (s.capped caps).full = false) (found : s'.found = s.found + 1) :
    granted g s caps = granted g s' caps + 1 := by
  unfold granted
  rw [affordable_of_some h within, found]
  cases hr : caps.results with
  | none => rfl
  | some most =>
    have hlt : ¬ most ≤ s.found := by
      intro hle
      rw [full_capped_iff.mpr ⟨most, hr, hle⟩] at wanted
      cases wanted
    dsimp only
    omega

/-! ## The end under caps -/

/-- How a search under caps ends that hands out a number of rows: it has the rows that are wanted,
or it goes beyond its steps, or it ends where the search without caps ends. -/
inductive End (g : Graph digest) (s : Search plan) (caps : Caps) (k : Nat) (e : Search plan) : Prop
  | wanted (results : caps.results = some (s.found + k)) (calm : e.exhausted = false)
    (steps : e.steps = (s.asked g k).steps)
  | spent (most : Nat) (results : caps.results ≠ some (s.found + k))
    (budget : caps.steps = some most) (less : most < (s.final g).steps)
    (alarm : e.exhausted = true) (steps : e.steps = most + 1)
  | whole (results : caps.results ≠ some (s.found + k))
    (enough : beyond caps.steps (s.final g).steps = false) (calm : e.exhausted = false)
    (steps : e.steps = (s.final g).steps)

section End

variable {s e : Search plan} {caps : Caps} {k : Nat}

/-- **A search runs out of steps** exactly if the cap on rows was not reached first and the whole
search takes more steps than it may. -/
theorem End.exhausted_iff (h : End g s caps k e) :
    e.exhausted = true ↔ caps.results ≠ some (s.found + k) ∧
      ∃ most, caps.steps = some most ∧ most < (s.final g).steps := by
  rcases h with ⟨hr, he, -⟩ | ⟨most, hr, hb, hlt, he, -⟩ | ⟨hr, hb, he, -⟩
  · rw [he]
    exact ⟨fun h => (Bool.false_ne_true h).elim, fun h => (h.1 hr).elim⟩
  · exact ⟨fun _ => ⟨hr, most, hb, hlt⟩, fun _ => he⟩
  · rw [he]
    constructor
    · exact fun h => (Bool.false_ne_true h).elim
    · rintro ⟨-, hlate⟩
      rw [beyond_iff.mpr hlate] at hb
      exact hb.symm

/-- A search that ran out of steps has tried one atom more than it may. -/
theorem End.steps_of_exhausted (h : End g s caps k e) {most : Nat} (hm : caps.steps = some most)
    (alarm : e.exhausted = true) : e.steps = most + 1 := by
  rcases h with ⟨-, he, -⟩ | ⟨most', -, hb, -, -, hsteps⟩ | ⟨-, -, he, -⟩
  · rw [he] at alarm
    cases alarm
  · rw [hm, Option.some.injEq] at hb
    rw [hsteps, hb]
  · rw [he] at alarm
    cases alarm

/-- A search that was stopped by the cap on rows has tried what its rows took. -/
theorem End.steps_of_wanted (h : End g s caps k e) (hr : caps.results = some (s.found + k)) :
    e.steps = (s.asked g k).steps := by
  rcases h with ⟨-, -, hsteps⟩ | ⟨_, hr', -⟩ | ⟨hr', -⟩
  · exact hsteps
  · exact absurd hr hr'
  · exact absurd hr hr'

/-- A search that no cap has stopped has tried what the whole search takes. -/
theorem End.steps_of_whole (h : End g s caps k e) (calm : e.exhausted = false)
    (hr : caps.results ≠ some (s.found + k)) : e.steps = (s.final g).steps := by
  rcases h with ⟨hr', -⟩ | ⟨_, -, -, -, he, -⟩ | ⟨-, -, -, hsteps⟩
  · exact absurd hr' hr
  · rw [he] at calm
    cases calm
  · exact hsteps

end End

/-- A search under caps next to the search without them. -/
structure Cut (g : Graph digest) (s : Search plan) (caps : Caps) (k : Nat) : Prop where
  rows : (s.capped caps).rows g = (s.rows g).take k
  asked : ∀ i ≤ k, (s.capped caps).asked g i = (s.asked g i).capped caps
  ended : End g s caps k ((s.capped caps).final g)

/-- Behind a row the two searches go on side by side. -/
theorem Cut.cons {s s' : Search plan} {r : Row} {caps : Caps} {k : Nat}
    (h : s.next g = (some r, s')) (hc : (s.capped caps).next g = (some r, s'.capped caps))
    (found : s'.found = s.found + 1) (cut : Cut g s' caps k) : Cut g s caps (k + 1) where
  rows := by
    rw [rows_of_some h, rows_of_some hc, cut.rows, List.take_succ_cons]
  asked := by
    intro i hi
    cases i with
    | zero => rfl
    | succ i =>
      rw [asked_succ_of_some h, asked_succ_of_some hc]
      exact cut.asked i (by omega)
  ended := by
    rw [final_of_some hc]
    have hk : s'.found + k = s.found + (k + 1) := by omega
    rcases cut.ended with ⟨hr, he, hsteps⟩ | ⟨most, hr, hb, hlt, he, hsteps⟩ | ⟨hr, hb, he, hsteps⟩
    · rw [hk] at hr
      exact .wanted hr he (by rw [hsteps, asked_succ_of_some h])
    · rw [hk] at hr
      exact .spent most hr hb (by rw [final_of_some h]; exact hlt) he hsteps
    · rw [hk] at hr
      exact .whole hr (by rw [final_of_some h]; exact hb) he (by rw [final_of_some h, hsteps])

/-- If a search under caps has no row, it does not matter which rows there are without caps. -/
theorem Cut.zero {s e : Search plan} {caps : Caps} (hc : (s.capped caps).next g = (none, e))
    (ended : End g s caps 0 e) : Cut g s caps 0 where
  rows := by rw [rows_of_none hc, List.take_zero]
  asked := by
    intro i hi
    rw [Nat.le_zero.mp hi]
    rfl
  ended := by
    rw [final_of_none hc]
    exact ended

/-- The search that has as many rows as are wanted. -/
theorem cut_of_full {s : Search plan} (calm : s.exhausted = false) {caps : Caps}
    (live : s.done = false) (hfull : (s.capped caps).full = true)
    (wanted : ∀ most, caps.results = some most → s.found ≤ most) :
    Cut g s caps (granted g s caps) := by
  obtain ⟨most, hr, hle⟩ := full_capped_iff.mp hfull
  have hk : granted g s caps = 0 := by
    unfold granted
    rw [hr]
    dsimp only
    rw [Nat.sub_eq_zero_of_le hle, Nat.zero_min]
  have hr' : caps.results = some (s.found + 0) := by
    rw [hr, Nat.add_zero, Nat.le_antisymm hle (wanted most hr)]
  rw [hk]
  exact .zero (next_capped_of_full live hfull) (.wanted hr' calm rfl)

/-- The search whose steps are not enough for the next row, nor for the end. -/
theorem cut_of_late {s : Search plan} (free : s.caps = .none) {caps : Caps}
    (hfull : (s.capped caps).full = false)
    (late : beyond caps.steps (s.next g).2.steps = true)
    (hlast : ∃ e, (s.capped caps).next g = (none, e) ∧ Spent caps e) :
    Cut g s caps (granted g s caps) := by
  obtain ⟨e, hc, spent⟩ := hlast
  obtain ⟨most, hmost, hsteps⟩ := spent.steps
  have hr : caps.results ≠ some (s.found + 0) := by
    intro hr
    rw [full_capped_iff.mpr ⟨_, hr, le_rfl⟩] at hfull
    cases hfull
  -- what is too late for the next row is too late for the end
  have hle : (s.next g).2.steps ≤ (s.final g).steps := by
    rcases hn : s.next g with ⟨_ | r, s'⟩
    · rw [final_of_none hn]
    · have follows := follows_of_next (g := g) free
      rw [hn] at follows
      rw [final_of_some hn]
      exact steps_le_final (follows.caps.trans free)
  have hlt : most < (s.final g).steps := by
    obtain ⟨most', hmost', hlt⟩ := beyond_iff.mp late
    rw [hmost, Option.some.injEq] at hmost'
    omega
  rw [granted_of_zero (affordable_of_beyond free late)]
  exact .zero hc (.spent most hr hmost hlt spent.exhausted hsteps)

/-- The search that has come to its end, with or without caps. -/
theorem cut_of_done {s s' : Search plan} (free : s.caps = .none) (calm : s.exhausted = false)
    {caps : Caps} (h : s.next g = (none, s')) (within : beyond caps.steps s'.steps = false)
    (wanted : s.done = true ∨ (s.capped caps).full = false)
    (hc : (s.capped caps).next g = (none, s'.capped caps)) :
    Cut g s caps (granted g s caps) := by
  have follows := follows_of_next (g := g) free
  rw [h] at follows
  have calm' : (s'.capped caps).exhausted = false := follows.exhausted.trans calm
  rw [granted_of_zero (affordable_of_none h caps)]
  apply Cut.zero hc
  by_cases hr : caps.results = some (s.found + 0)
  · -- only a search that is over can want no row
    have hdone : s.done = true := by
      rcases wanted with hdone | hfull
      · exact hdone
      · rw [full_capped_iff.mpr ⟨_, hr, le_rfl⟩] at hfull
        cases hfull
    rw [next_of_done hdone] at h
    cases h
    exact .wanted hr calm' rfl
  · refine .whole hr ?_ calm' ?_
    · rw [final_of_none h]
      exact within
    · rw [final_of_none h]
      rfl

/-- **Caps only cut a search short.** -/
theorem cut {s : Search plan} (free : s.caps = .none) (calm : s.exhausted = false) {caps : Caps}
    (within : beyond caps.steps s.steps = false)
    (wanted : ∀ most, caps.results = some most → s.found ≤ most) :
    Cut g s caps (granted g s caps) := by
  induction s using rows_induction (g := g) with
  | ended s s' h =>
    by_cases hend : s.done = true ∨ (s.capped caps).full = false
    · rcases next_capped (g := g) free within hend with ⟨hw, hc⟩ | ⟨late, hlast⟩
      · rw [h] at hw hc
        exact cut_of_done free calm h hw hend hc
      · have live : ¬ s.done = true := by
          intro hdone
          rw [next_of_done hdone, within] at late
          cases late
        exact cut_of_late free (hend.resolve_left live) late hlast
    · rw [not_or, Bool.not_eq_true, Bool.not_eq_false] at hend
      exact cut_of_full calm hend.1 hend.2 wanted
  | more s r s' h ih =>
    have live : s.done = false := by
      by_contra hdone
      rw [next_of_done (Bool.eq_true_of_not_eq_false hdone)] at h
      cases h
    have follows := follows_of_next (g := g) free
    rw [h] at follows
    cases hfull : (s.capped caps).full with
    | true => exact cut_of_full calm live hfull wanted
    | false =>
      rcases next_capped (g := g) free within (.inr hfull) with ⟨hw, hc⟩ | ⟨late, hlast⟩
      · rw [h] at hw hc
        have wanted' : ∀ most, caps.results = some most → s'.found ≤ most := by
          intro most hr
          have hlt : ¬ most ≤ s.found := by
            intro hle
            rw [full_capped_iff.mpr ⟨most, hr, hle⟩] at hfull
            cases hfull
          have hfound : s'.found = s.found + 1 := follows.found
          omega
        -- the row is handed out, and the rest is cut short as well
        have cut' := ih (follows.caps.trans free) (follows.exhausted.trans calm) hw wanted'
        rw [granted_of_some h hw hfull follows.found]
        exact cut'.cons h hc follows.found
      · exact cut_of_late free hfull late hlast

/-! ## Plans under caps -/

/-- Until a search has been asked in vain, its steps have not been used up. -/
theorem exhausted_asked {s : Search plan} (free : s.caps = .none) (k : Nat) :
    (s.asked g k).exhausted = s.exhausted := by
  induction k generalizing s with
  | zero => rfl
  | succ k ih =>
    have follows := follows_of_next (g := g) free
    rw [asked, ih (follows.caps.trans free), follows.exhausted]

/-- What is seen of a plan under caps, if its first rows are handed out and no more, next to what
is seen of it without caps. -/
structure CutShort (g : Graph digest) (plan : Plan) (caps : Caps) (k : Nat) : Prop where
  rows : (start g plan caps).rows g = ((start g plan .none).rows g).take k
  exhausted : ((start g plan caps).final g).exhausted = true ↔
    caps.results ≠ some k ∧
      ∃ most, caps.steps = some most ∧ most < ((start g plan .none).final g).steps
  /-- One step too many is counted. -/
  steps_of_exhausted : ∀ most, caps.steps = some most →
    ((start g plan caps).final g).exhausted = true →
      ((start g plan caps).final g).steps = most + 1
  /-- With all rows that are wanted, the search does not go on. -/
  steps_of_wanted : caps.results = some k →
    ((start g plan caps).final g).steps = ((start g plan .none).asked g k).steps
  steps_of_whole : ((start g plan caps).final g).exhausted = false → caps.results ≠ some k →
    ((start g plan caps).final g).steps = ((start g plan .none).final g).steps
  /-- To ask for one row after the other gives the same rows, -/
  next : ∀ i, (((start g plan caps).asked g i).next g).1 = ((start g plan caps).rows g)[i]?
  /-- after each of them the same number of steps, -/
  steps_asked : ∀ i ≤ k, ((start g plan caps).asked g i).exhausted = false ∧
    ((start g plan caps).asked g i).steps = ((start g plan .none).asked g i).steps
  /-- and then the same end, however often one asks. -/
  asked : ∀ i, ((start g plan caps).rows g).length < i →
    (start g plan caps).asked g i = (start g plan caps).final g
  next_final : ((start g plan caps).final g).next g = (none, (start g plan caps).final g)

/-- A search at its end gives no row and stays there. -/
theorem next_final (g : Graph digest) (s : Search plan) :
    (s.final g).next g = (none, s.final g) := by
  induction s using rows_induction (g := g) with
  | ended s s' h =>
    rw [final_of_none h]
    exact next_of_next_eq_none h
  | more s r s' h ih =>
    rw [final_of_some h]
    exact ih

/-- **Caps only cut a search short**: a plan under caps has the first rows that it has without
caps, as many as are wanted and as are found within the steps; its steps and whether they were used
up are as they should be, and it does not matter how the rows are asked for. -/
theorem cutShort (g : Graph digest) (plan : Plan) (caps : Caps) :
    let affordable := (List.range ((start g plan .none).rows g).length).countP fun j =>
      caps.steps.all (((start g plan .none).asked g (j + 1)).steps ≤ ·)
    CutShort g plan caps (caps.results.elim affordable (min · affordable)) := by
  intro n
  -- nothing is found at the start, so the wanted rows are as many as the cap says
  have hk : granted g (start g plan .none) caps = caps.results.elim n (min · n) := by
    unfold granted
    cases caps.results with
    | none => rfl
    | some most => rfl
  have within : beyond caps.steps (start g plan .none).steps = false := by
    cases caps.steps with
    | none => rfl
    | some most => exact decide_eq_false (Nat.not_lt_zero most)
  have both : Cut g (start g plan .none) caps (caps.results.elim n (min · n)) := by
    rw [← hk]
    exact cut rfl rfl within fun most _ => Nat.zero_le most
  have found : (start g plan .none).found + caps.results.elim n (min · n)
      = caps.results.elim n (min · n) := Nat.zero_add _
  have ended := both.ended
  exact {
    rows := both.rows
    exhausted := by
      rw [← found]
      exact ended.exhausted_iff
    steps_of_exhausted := fun most hm alarm => ended.steps_of_exhausted hm alarm
    steps_of_wanted := by
      intro hr
      apply ended.steps_of_wanted
      rw [found]
      exact hr
    steps_of_whole := by
      intro calm hr
      apply ended.steps_of_whole calm
      rw [found]
      exact hr
    next := next_asked g _
    steps_asked := by
      intro i hi
      have same := both.asked i hi
      have calm := exhausted_asked (g := g) (s := start g plan .none) rfl i
      show (((start g plan .none).capped caps).asked g i).exhausted = false ∧
        (((start g plan .none).capped caps).asked g i).steps = _
      rw [same]
      exact ⟨calm, rfl⟩
    asked := fun i hi => asked_of_lt g _ hi
    next_final := next_final g _ }

end Search

end TypedHypergraph
