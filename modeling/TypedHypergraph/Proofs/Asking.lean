/-
# Asking for rows

A search hands out its rows one at a time, or all at once.  The two agree: what is collected are
the rows that are handed out one by one (`next_asked`), and the search that is left after the last
one is the search that has been asked in vain (`asked_of_lt`).  Asking in vain ends a search for
good (`next_of_next_eq_none`).
-/
import Mathlib.Tactic
import TypedHypergraph.Search.Rows

namespace TypedHypergraph

namespace Search

variable {digest : Content → UInt64} {plan : Plan}

/-! ## Asking in vain -/

/-- A search whose turn says that it is over is done. -/
theorem done_of_turn_over {g : Graph digest} {s s' : Search plan} (h : s.turn g = .over s') :
    s'.done = true := by
  unfold turn at h
  split at h
  · cases h
    rfl
  · rename_i remaining mark below hs
    cases remaining with
    | nil =>
      simp only at h
      split at h
      · cases h
        rfl
      · cases h
    | cons x rest =>
      simp only at h
      split at h
      · cases h
        rfl
      · split at h
        · cases h
        · split at h <;> cases h

/-- A search that has been pulled in vain is done. -/
theorem done_of_pull_none {g : Graph digest} {s s' : Search plan} (h : s.pull g = (none, s')) :
    s'.done = true := by
  fun_induction pull g s with
  | case1 s s₁ h₁ ih => exact ih h
  | case2 s r s₁ h₁ => cases h
  | case3 s s₁ h₁ =>
    cases h
    exact done_of_turn_over h₁

/-- A search that is done gives no row and stays as it is. -/
theorem next_of_done {g : Graph digest} {s : Search plan} (h : s.done = true) :
    s.next g = (none, s) := by
  rw [next, if_pos h]

/-- A search that gives no row is done afterwards. -/
theorem done_of_next_none {g : Graph digest} {s s' : Search plan} (h : s.next g = (none, s')) :
    s'.done = true := by
  unfold next at h
  split at h
  · rename_i hdone
    cases h
    exact hdone
  · split at h
    · cases h
      rfl
    · exact done_of_pull_none h

/-- Without caps, and before its end, a search takes turns. -/
theorem next_eq_pull {g : Graph digest} {s : Search plan} (free : s.caps = .none)
    (live : s.done = false) : s.next g = s.pull g := by
  have hfull : s.full = false := by
    rw [full, free]
    rfl
  rw [next, live, hfull, if_neg Bool.false_ne_true, if_neg Bool.false_ne_true]

/-- **A search that was asked in vain** gives nothing from then on and does not change. -/
theorem next_of_next_eq_none {g : Graph digest} {s s' : Search plan}
    (h : s.next g = (none, s')) : s'.next g = (none, s') :=
  next_of_done (done_of_next_none h)

/-! ## All rows -/

/-- All rows from here on. -/
def rows (g : Graph digest) (s : Search plan) : List Row := (s.collect g []).1

/-- The search after its last row. -/
def final (g : Graph digest) (s : Search plan) : Search plan := (s.collect g []).2

/-- A search that ends has no row; another one has a row and then those of the search after it. -/
theorem rows_induction {g : Graph digest} {P : Search plan → Prop}
    (ended : ∀ s s', s.next g = (none, s') → P s)
    (more : ∀ s r s', s.next g = (some r, s') → P s' → P s) (s : Search plan) : P s := by
  -- how the recursion of `collect` goes does not depend on the rows before
  have all : ∀ _ : List Row, P s := by
    intro before
    fun_induction collect g s before with
    | case1 s before r s' h ih => exact more s r s' h ih
    | case2 s before s' h => exact ended s s' h
  exact all []

/-- Without a further row, what was collected is all there is. -/
theorem collect_of_none {g : Graph digest} {s s' : Search plan} (h : s.next g = (none, s'))
    (before : List Row) : s.collect g before = (before.reverse, s') := by
  rw [collect]
  split
  · rename_i r s₁ h₁
    rw [h] at h₁
    cases h₁
  · rename_i s₁ h₁
    rw [h] at h₁
    cases h₁
    rfl

/-- A further row goes in front of what was collected. -/
theorem collect_of_some {g : Graph digest} {s s' : Search plan} {r : Row}
    (h : s.next g = (some r, s')) (before : List Row) :
    s.collect g before = s'.collect g (r :: before) := by
  rw [collect]
  split
  · rename_i r₁ s₁ h₁
    rw [h] at h₁
    cases h₁
    rfl
  · rename_i s₁ h₁
    rw [h] at h₁
    cases h₁

/-- Rows that have been found before stand in front. -/
theorem collect_eq (g : Graph digest) (s : Search plan) (before : List Row) :
    s.collect g before = (before.reverse ++ s.rows g, s.final g) := by
  unfold rows final
  induction s using rows_induction (g := g) generalizing before with
  | ended s s' h =>
    rw [collect_of_none h, collect_of_none h]
    simp
  | more s r s' h ih =>
    rw [collect_of_some h, collect_of_some h, ih (r :: before), ih [r]]
    simp

/-- A search that gives no row has none. -/
theorem rows_of_none {g : Graph digest} {s s' : Search plan} (h : s.next g = (none, s')) :
    s.rows g = [] := by
  rw [rows, collect_of_none h]
  rfl

/-- The rows of a search are its next one and those after it. -/
theorem rows_of_some {g : Graph digest} {s s' : Search plan} {r : Row}
    (h : s.next g = (some r, s')) : s.rows g = r :: s'.rows g := by
  rw [rows, collect_of_some h, collect_eq]
  rfl

/-- A search that gives no row ends where asking for one leaves it. -/
theorem final_of_none {g : Graph digest} {s s' : Search plan} (h : s.next g = (none, s')) :
    s.final g = s' := by
  rw [final, collect_of_none h]

/-- A search ends where it ends after its next row. -/
theorem final_of_some {g : Graph digest} {s s' : Search plan} {r : Row}
    (h : s.next g = (some r, s')) : s.final g = s'.final g := by
  rw [final, collect_of_some h, collect_eq]

/-! ## One row after the other -/

/-- The search after it has been asked for a number of rows. -/
def asked (g : Graph digest) (s : Search plan) : Nat → Search plan
  | 0 => s
  | k + 1 => asked g (s.next g).2 k

/-- Asking for one row more is asking the search that the first row leaves. -/
theorem asked_succ_of_some {g : Graph digest} {s s' : Search plan} {r : Row}
    (h : s.next g = (some r, s')) (k : Nat) : s.asked g (k + 1) = s'.asked g k := by
  rw [asked, h]

/-- Asking does not change a search that is done. -/
theorem asked_of_done {g : Graph digest} {s : Search plan} (h : s.done = true) (k : Nat) :
    s.asked g k = s := by
  induction k with
  | zero => rfl
  | succ k ih => rw [asked, next_of_done h, ih]

/-- **What is handed out** at each time of asking is the row of that number. -/
theorem next_asked (g : Graph digest) (s : Search plan) (i : Nat) :
    ((s.asked g i).next g).1 = (s.rows g)[i]? := by
  induction s using rows_induction (g := g) generalizing i with
  | ended s s' h =>
    rw [rows_of_none h]
    cases i with
    | zero => rw [asked, h, List.getElem?_nil]
    | succ i =>
      rw [asked, h, asked_of_done (done_of_next_none h), next_of_next_eq_none h,
        List.getElem?_nil]
  | more s r s' h ih =>
    rw [rows_of_some h]
    cases i with
    | zero => rw [asked, h, List.getElem?_cons_zero]
    | succ i => rw [asked_succ_of_some h, ih, List.getElem?_cons_succ]

/-- **After the last row** and once more a search is at its end, where it stays. -/
theorem asked_of_lt (g : Graph digest) (s : Search plan) {i : Nat} (h : (s.rows g).length < i) :
    s.asked g i = s.final g := by
  induction s using rows_induction (g := g) generalizing i with
  | ended s s' hn =>
    rw [rows_of_none hn] at h
    obtain ⟨i, rfl⟩ := Nat.exists_eq_add_one_of_ne_zero (Nat.ne_of_gt h)
    rw [asked, hn, asked_of_done (done_of_next_none hn), final_of_none hn]
  | more s r s' hn ih =>
    rw [rows_of_some hn, List.length_cons] at h
    obtain ⟨i, rfl⟩ := Nat.exists_eq_add_one_of_ne_zero (Nat.ne_of_gt (Nat.zero_lt_of_lt h))
    rw [asked_succ_of_some hn, final_of_some hn, ih (by omega)]

end Search

end TypedHypergraph
