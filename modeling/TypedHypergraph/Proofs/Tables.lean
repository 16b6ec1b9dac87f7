/-
# Orders and schedules by tables

The order of clauses can be found with a table of flags, one for each slot, that tell which slots
are bound (`Plan.clauseOrder?`), and the schedule of checks with tables of the depths at which slots
and clauses are bound first (`Plan.schedule?`).  Every look-up in a table is checked: one that is
out of range gives nothing.

As long as clauses mention slots that there are and checks look at slots and clauses that there are,
no look-up is out of range, and the tables lead to the same order and the same schedule
(`Plan.clauseOrder?_eq`, `Plan.schedule?_eq`).
-/
import TypedHypergraph.Proofs.Guards
import TypedHypergraph.Proofs.Ordering

namespace TypedHypergraph

/-! ## Tables -/

section Tables

variable {α β : Type}

/-- Look-ups that all succeed give what is found. -/
theorem mapM_some {f : α → Option β} {k : α → β} {xs : List α}
    (h : ∀ x ∈ xs, f x = some (k x)) : xs.mapM f = some (xs.map k) := by
  rw [Guards.mapM_congr h]
  exact List.mapM_pure

/-- Write to a place of an array that there is. -/
def put? (a : Array α) (i : Nat) (x : α) : Option (Array α) :=
  if i < a.size then some (a.setIfInBounds i x) else none

/-- At a place that there is, a table can be written to. -/
theorem put?_eq {a : Array α} {i : Nat} (h : i < a.size) (x : α) :
    put? a i x = some (a.setIfInBounds i x) := if_pos h

/-- Write to a place of an array that there is, unless something is written there. -/
def fill? (a : Array (Option β)) (i : Nat) (x : β) : Option (Array (Option β)) := do
  match ← a[i]? with
  | some _ => return a
  | none => put? a i (some x)

/-- An array lists the values of a function at the first numbers. -/
structure Tabulates (a : Array α) (n : Nat) (f : Nat → α) : Prop where
  size : a.size = n
  getElem? : ∀ i < n, a[i]? = some (f i)

namespace Tabulates

variable {a : Array α} {n : Nat} {f : Nat → α}

/-- An array of copies tabulates the constant function. -/
theorem replicate (n : Nat) (x : α) : Tabulates (Array.replicate n x) n fun _ => x where
  size := Array.size_replicate
  getElem? i hi := by rw [Array.getElem?_replicate, if_pos hi]

theorem congr (h : Tabulates a n f) {f' : Nat → α} (same : ∀ i < n, f i = f' i) :
    Tabulates a n f' where
  size := h.size
  getElem? i hi := by rw [h.getElem? i hi, same i hi]

/-- **To write** to a place that there is changes the value there. -/
theorem put (h : Tabulates a n f) {i : Nat} (hi : i < n) (x : α) :
    ∃ a', put? a i x = some a' ∧ Tabulates a' n (Function.update f i x) := by
  have hlt : i < a.size := by rwa [h.size]
  refine ⟨_, put?_eq hlt x, by rw [Array.size_setIfInBounds, h.size], ?_⟩
  intro j hj
  rw [Array.getElem?_setIfInBounds]
  by_cases hij : i = j
  · subst hij
    rw [if_pos rfl, if_pos hlt, Function.update_self]
  · rw [if_neg hij, h.getElem? j hj, Function.update_of_ne (Ne.symm hij)]

/-- A table lists the values of its function. -/
theorem toList_eq (h : Tabulates a n f) : a.toList = (List.range n).map f := by
  apply List.ext_getElem?
  intro i
  rw [Array.getElem?_toList, List.getElem?_map]
  by_cases hi : i < n
  · rw [h.getElem? i hi, List.getElem?_range hi]
    rfl
  · have hle : n ≤ i := Nat.le_of_not_lt hi
    have beyond : (List.range n).length ≤ i := by rwa [List.length_range]
    rw [Array.getElem?_eq_none (by rwa [h.size]), List.getElem?_eq_none beyond]
    rfl

/-- To write one value to several places. -/
theorem putAll (h : Tabulates a n f) {is : List Nat} (within : ∀ i ∈ is, i < n) (x : α) :
    ∃ a', is.foldlM (fun a i => put? a i x) a = some a' ∧
      Tabulates a' n fun i => if i ∈ is then x else f i := by
  induction is generalizing a f with
  | nil => exact ⟨a, rfl, h.congr fun i _ => by simp⟩
  | cons i is ih =>
    rw [List.forall_mem_cons] at within
    obtain ⟨a₁, hput, h₁⟩ := h.put within.1 x
    obtain ⟨a₂, hfold, h₂⟩ := ih h₁ within.2
    refine ⟨a₂, ?_, h₂.congr ?_⟩
    · rw [List.foldlM_cons, hput]
      exact hfold
    · intro j _
      by_cases hj : j = i
      · simp [hj]
      · simp [hj]

/-- To write one value to those of several places where there is none. -/
theorem fillAll {a : Array (Option β)} {f : Nat → Option β} (h : Tabulates a n f) {is : List Nat}
    (within : ∀ i ∈ is, i < n) (x : β) :
    ∃ a', is.foldlM (fun a i => fill? a i x) a = some a' ∧
      Tabulates a' n fun i => (f i).or (if i ∈ is then some x else none) := by
  induction is generalizing a f with
  | nil => exact ⟨a, rfl, h.congr fun i _ => by simp⟩
  | cons i is ih =>
    rw [List.forall_mem_cons] at within
    rw [List.foldlM_cons, fill?, h.getElem? i within.1]
    cases hi : f i with
    | some y =>
      obtain ⟨a', hfold, h'⟩ := ih h within.2
      refine ⟨a', hfold, h'.congr ?_⟩
      intro j _
      by_cases hj : j = i
      · simp [hj, hi]
      · simp [hj]
    | none =>
      obtain ⟨a₁, hput, h₁⟩ := h.put within.1 (some x)
      obtain ⟨a₂, hfold, h₂⟩ := ih h₁ within.2
      refine ⟨a₂, ?_, h₂.congr ?_⟩
      · show (put? a i (some x)).bind _ = _
        rw [hput]
        exact hfold
      · intro j _
        by_cases hj : j = i
        · simp [hj, hi]
        · simp [hj]

end Tabulates

end Tables

/-! ## Orders -/

variable {digest : Content → UInt64}

namespace Goal

/-- Whether a goal is held by a certain atom or a slot that is flagged, itself or as one of its
members. -/
def isAnchored? (flags : Array Bool) : Goal → Option Bool
  | .ground _ => some true
  | .slot i => flags[i]?
  | .link _ members => do
    let held ← members.mapM fun
      | .ground _ => some true
      | .slot i => flags[i]?
      | .link _ _ => some false
    return held.any id

/-- The estimate for a goal, where the table of bound slots has to have an entry for each slot. -/
def estimate? (g : Graph digest) (slots : List Slot) (flags : Array Bool) : Goal → Option Nat
  | .slot i => do
    if ← flags[i]? then return 1
    else
      match (← slots[i]?).type with
      | some type => return (g.types.subtypes type).foldl (fun n type => n + g.countOfType type) 0
      | none => return g.size
  | .ground h => some ((Goal.ground h).estimate g slots [])
  | .link type members => some ((Goal.link type members).estimate g slots [])

end Goal

namespace Plan

/-- The rank of a clause, where the tables have to have an entry for the clause and each of its
slots. -/
def rank? (g : Graph digest) (slots : List Slot) (goals : List Goal) (flags : Array Bool)
    (clause : Nat) : Option Rank := do
  let goal ← goals[clause]?
  let bound ← goal.slots.mapM (flags[·]?)
  let anchored ← goal.isAnchored? flags
  let estimate ← goal.estimate? g slots flags
  return { unbound := (bound.filter (!·)).length, adrift := !anchored, estimate, clause }

/-- The better one of a clause, with its rank, and another clause. -/
def better? (rankOf? : Nat → Option Rank) (least : Nat × Rank) (clause : Nat) :
    Option (Nat × Rank) := do
  let rank ← rankOf? clause
  return if rank.compare least.2 = .lt then (clause, rank) else least

/-- The clause with the least rank, where each clause has to have one. -/
def best? (rankOf? : Nat → Option Rank) : List Nat → Option (Option Nat)
  | [] => some none
  | first :: rest => do
    let rank ← rankOf? first
    let least ← rest.foldlM (better? rankOf?) (first, rank)
    return some least.1

/-- The order of the clauses, where each table has to have an entry for what is looked up in it. -/
def arrange? (g : Graph digest) (slots : List Slot) (goals : List Goal) :
    Nat → List Nat → Array Bool → Option (List Nat)
  | 0, _, _ => some []
  | fuel + 1, left, flags => do
    match ← best? (rank? g slots goals flags) left with
    | none => return []
    | some clause => do
      let goal ← goals[clause]?
      let flags ← goal.slots.foldlM (fun flags i => put? flags i true) flags
      let rest ← arrange? g slots goals fuel (left.filter (· ≠ clause)) flags
      return clause :: rest

/-- All clauses in the order in which they are searched, by a table of flags. -/
def clauseOrder? (g : Graph digest) (slots : List Slot) (goals : List Goal) : Option (List Nat) :=
  arrange? g slots goals goals.length (List.range goals.length)
    (Array.replicate slots.length false)

section Order

variable {g : Graph digest} {slots : List Slot} {goals : List Goal} {flags : Array Bool}
  {bound : List Nat}

/-- A table of the bound slots tells right whether a goal is anchored. -/
theorem isAnchored?_eq (table : Tabulates flags slots.length fun i => decide (i ∈ bound))
    {goal : Goal} (within : ∀ i, goal.Mentions i → i < slots.length) :
    goal.isAnchored? flags = some (goal.isAnchored bound) := by
  cases goal with
  | ground h => rfl
  | slot i => exact table.getElem? i (within i (by rw [Goal.Mentions]))
  | link type members =>
    have held : ∀ member ∈ members, (fun
        | .ground _ => some true
        | .slot i => flags[i]?
        | .link _ _ => some false : Goal → Option Bool) member = some ((fun
        | .ground _ => true
        | .slot i => decide (i ∈ bound)
        | .link _ _ => false : Goal → Bool) member) := by
      intro member hmember
      cases member with
      | ground h => rfl
      | slot i =>
        apply table.getElem? i
        apply within
        rw [Goal.Mentions, Goal.mentionedIn_iff]
        exact ⟨_, hmember, by rw [Goal.Mentions]⟩
      | link type members => rfl
    rw [Goal.isAnchored?, mapM_some held, Goal.isAnchored]
    dsimp only [Option.bind_eq_bind, Option.bind_some]
    rw [List.any_map]
    rfl

/-- A table of the bound slots gives the right estimate. -/
theorem estimate?_eq (table : Tabulates flags slots.length fun i => decide (i ∈ bound))
    {goal : Goal} (within : ∀ i, goal.Mentions i → i < slots.length) :
    goal.estimate? g slots flags = some (goal.estimate g slots bound) := by
  cases goal with
  | ground h => rfl
  | slot i =>
    have hi : i < slots.length := within i (by rw [Goal.Mentions])
    have hslot := List.getElem?_eq_getElem hi
    rw [Goal.estimate?, Goal.estimate, table.getElem? i hi, hslot]
    dsimp only [Option.bind_eq_bind, Option.bind_some]
    by_cases hb : i ∈ bound
    · rw [if_pos (decide_eq_true hb), if_pos hb]
      rfl
    · rw [if_neg (by simpa using hb), if_neg hb]
      cases slots[i].type <;> rfl
  | link type members => rfl

/-- **The rank** of a clause is found in the table of flags. -/
theorem rank?_eq (table : Tabulates flags slots.length fun i => decide (i ∈ bound))
    {clause : Goal × Nat} (hgoal : goals[clause.2]? = some clause.1)
    (within : ∀ i, clause.1.Mentions i → i < slots.length) :
    rank? g slots goals flags clause.2 = some (rank g slots bound clause) := by
  have marked : clause.1.slots.mapM (flags[·]?)
      = some (clause.1.slots.map fun i => decide (i ∈ bound)) :=
    mapM_some fun i hi => table.getElem? i (within i (Goal.mem_slots.mp hi))
  rw [rank?, hgoal]
  dsimp only [Option.bind_eq_bind, Option.bind_some]
  rw [marked, Option.bind_some, isAnchored?_eq table within, Option.bind_some,
    estimate?_eq table within, Option.bind_some, rank, List.filter_map, List.length_map]
  simp [Function.comp_def]

/-- The best of some clauses is found by their ranks, if each clause has one. -/
theorem best?_eq {rankOf? : Nat → Option Rank} {rankOf : Goal × Nat → Rank}
    {left : List (Goal × Nat)} (ranks : ∀ c ∈ left, rankOf? c.2 = some (rankOf c)) :
    best? rankOf? (left.map (·.2)) = some ((best rankOf left).map (·.2)) := by
  cases left with
  | nil => rfl
  | cons first rest =>
    rw [List.forall_mem_cons] at ranks
    -- the least clause so far is carried along with its rank
    have folds : ∀ (rest : List (Goal × Nat)) (least : Goal × Nat),
        (∀ c ∈ rest, rankOf? c.2 = some (rankOf c)) → ∃ c, rest.foldl
          (fun least c => if (rankOf c).compare (rankOf least) = .lt then c else least) least = c ∧
            (rest.map (·.2)).foldlM (better? rankOf?) (least.2, rankOf least)
              = some (c.2, rankOf c) := by
      intro rest
      induction rest with
      | nil =>
        intro least _
        exact ⟨least, rfl, rfl⟩
      | cons c rest ih =>
        intro least ranks
        rw [List.forall_mem_cons] at ranks
        rw [List.map_cons, List.foldlM_cons, List.foldl_cons, better?, ranks.1]
        dsimp only [Option.bind_eq_bind, Option.bind_some, Option.pure_def]
        by_cases hlt : (rankOf c).compare (rankOf least) = .lt
        · rw [if_pos hlt, if_pos hlt]
          exact ih c ranks.2
        · rw [if_neg hlt, if_neg hlt]
          exact ih least ranks.2
    obtain ⟨c, hc, hfold⟩ := folds rest first ranks.2
    rw [List.map_cons, best?, ranks.1, best, hc]
    dsimp only [Option.bind_eq_bind, Option.bind_some]
    rw [hfold]
    rfl

/-- **The clauses that are left** are put into the same order by a table of flags. -/
theorem arrange?_eq (within : ∀ goal ∈ goals, ∀ i, goal.Mentions i → i < slots.length) :
    ∀ (fuel : Nat) {left : List (Goal × Nat)} {flags : Array Bool} {bound : List Nat},
      (∀ c ∈ left, goals[c.2]? = some c.1) →
        Tabulates flags slots.length (fun i => decide (i ∈ bound)) →
          arrange? g slots goals fuel (left.map (·.2)) flags
            = some (arrange g slots fuel left bound) := by
  intro fuel
  induction fuel with
  | zero =>
    intro left flags bound _ _
    rfl
  | succ fuel ih =>
    intro left flags bound hgoals table
    have ranks : ∀ c ∈ left, rank? g slots goals flags c.2 = some (rank g slots bound c) :=
      fun c hc => rank?_eq table (hgoals c hc) (within _ (List.mem_of_getElem? (hgoals c hc)))
    rw [arrange?, arrange, best?_eq ranks]
    cases hbest : best (rank g slots bound) left with
    | none => rfl
    | some clause =>
      have hclause := hgoals clause (best_mem hbest)
      have slots_lt : ∀ i ∈ clause.1.slots, i < slots.length :=
        fun i hi => within _ (List.mem_of_getElem? hclause) i (Goal.mem_slots.mp hi)
      -- the flags of the chosen clause are put down, and the table is that of one more goal
      obtain ⟨flags', hfold, table'⟩ := table.putAll slots_lt true
      have bound' : Tabulates flags' slots.length
          fun i => decide (i ∈ clause.1.collect bound) := by
        refine table'.congr fun i _ => ?_
        have collects : i ∈ clause.1.collect bound ↔ i ∈ bound ∨ i ∈ clause.1.slots := by
          rw [Goal.mem_collect, Goal.mem_slots]
        by_cases hm : i ∈ clause.1.slots
        · simp [hm, collects]
        · simp [hm, collects]
      have hgoals' : ∀ c ∈ left.filter (·.2 ≠ clause.2), goals[c.2]? = some c.1 :=
        fun c hc => hgoals c (List.mem_of_mem_filter hc)
      have rest := ih hgoals' bound'
      have left' : (left.filter (·.2 ≠ clause.2)).map (·.2)
          = (left.map (·.2)).filter (· ≠ clause.2) := by
        rw [List.filter_map]
        rfl
      rw [left'] at rest
      dsimp only [Option.bind_eq_bind, Option.bind_some, Option.map_some]
      rw [hclause, Option.bind_some, hfold, Option.bind_some, rest]
      rfl

/-- **The order of clauses** is found by a table of flags, without a look-up that is out of
range. -/
theorem clauseOrder?_eq (within : ∀ goal ∈ goals, ∀ i, goal.Mentions i → i < slots.length) :
    clauseOrder? g slots goals = some (clauseOrder g slots goals) := by
  have table : Tabulates (Array.replicate slots.length false) slots.length
      fun i => decide (i ∈ ([] : List Nat)) := .replicate _ _
  rw [clauseOrder?, ← map_snd_zipIdx]
  exact arrange?_eq within _ (fun c hc => List.mem_zipIdx_iff_getElem?.mp hc) table

end Order

/-! ## Schedules -/

/-- The depths at which slots and clauses are bound first, as far as they have been noted. -/
structure Depths where
  slots : Array (Option Nat)
  clauses : Array (Option Nat)

namespace Depths

/-- Note the depth of a clause, and of its slots that have none. -/
def note? (goals : List Goal) (t : Depths) (clause depth : Nat) : Option Depths := do
  let clauses ← put? t.clauses clause (some depth)
  let goal ← goals[clause]?
  let slots ← goal.slots.foldlM (fun table i => fill? table i depth) t.slots
  return ⟨slots, clauses⟩

/-- The depth that the tables give for a place. -/
def at? (t : Depths) : Source → Option (Option Nat)
  | .slot i => t.slots[i]?
  | .clause c => t.clauses[c]?

/-- The depth at which a check is made.  A depth that has not been noted is beyond all others. -/
def ready? (t : Depths) (depths : Nat) (check : Check) : Option Nat := do
  let noted ← check.sources.mapM t.at?
  return min ((noted.map (·.getD depths)).foldl max 0) (depths - 1)

/-- Enter a check, with its place, at the depth at which it is made. -/
def enter? (t : Depths) (depths : Nat) (due : Array (List Nat)) (check : Check × Nat) :
    Option (Array (List Nat)) := do
  let ready ← t.ready? depths check.1
  let before ← due[ready]?
  put? due ready (before ++ [check.2])

end Depths

/-- The depths at which all places of the plan are bound, noted clause by clause. -/
def depths? (slots : List Slot) (goals : List Goal) (order : List Nat) : Option Depths :=
  order.zipIdx.foldlM (fun t (clause, depth) => t.note? goals clause depth)
    ⟨Array.replicate slots.length none, Array.replicate goals.length none⟩

/-- For each depth the places of the checks that are made there, by tables of depths. -/
def schedule? (slots : List Slot) (goals : List Goal) (order : List Nat) (checks : List Check) :
    Option (List (List Nat)) := do
  let t ← depths? slots goals order
  let due ← checks.zipIdx.foldlM (t.enter? order.length) (Array.replicate order.length [])
  return due.toList

section Schedule

variable {slots : List Slot} {goals : List Goal} {order : List Nat} {checks : List Check}

/-- The first depth at which a place is bound, if there is one. -/
def noted (goals : List Goal) (order : List Nat) : Source → Option Nat
  | .slot i => order.findIdx? fun clause => i ∈ ((goals[clause]?).map (·.slots)).getD []
  | .clause c => order.findIdx? (· = c)

/-- A noted depth is the one at which the place is bound. -/
theorem getD_noted (source : Source) :
    (noted goals order source).getD order.length = boundAt goals order source := by
  cases source with
  | slot i => rw [noted, boundAt, List.findIdx_eq_getD_findIdx?]
  | clause c => rw [noted, boundAt, List.findIdx_eq_getD_findIdx?]

/-- The tables tell the first depths of slots and clauses. -/
structure Depths.Tell (t : Depths) (slots : List Slot) (goals : List Goal) (order : List Nat) :
    Prop where
  slots : Tabulates t.slots slots.length fun i => noted goals order (.slot i)
  clauses : Tabulates t.clauses goals.length fun c => noted goals order (.clause c)

/-- **To note** one more clause. -/
theorem Depths.Tell.note {t : Depths} (tell : t.Tell slots goals order) {clause : Nat} {goal : Goal}
    (hgoal : goals[clause]? = some goal) (within : ∀ i ∈ goal.slots, i < slots.length)
    (new : clause ∉ order) : ∃ t', t.note? goals clause order.length = some t' ∧
      t'.Tell slots goals (order ++ [clause]) := by
  have hclause : clause < goals.length := (List.getElem?_eq_some_iff.mp hgoal).1
  obtain ⟨clauses, hput, htable⟩ := tell.clauses.put hclause (some order.length)
  obtain ⟨slots', hfill, stable⟩ := tell.slots.fillAll within order.length
  refine ⟨⟨slots', clauses⟩, ?_, ?_, ?_⟩
  · rw [Depths.note?, hput]
    dsimp only [Option.bind_eq_bind, Option.bind_some]
    rw [hgoal, Option.bind_some]
    rw [hfill]
    rfl
  · refine stable.congr fun i _ => ?_
    rw [noted, noted, List.findIdx?_append, List.findIdx?_singleton, hgoal]
    by_cases hi : i ∈ goal.slots
    · simp [hi]
    · simp [hi]
  · refine htable.congr fun c _ => ?_
    rw [noted, List.findIdx?_append, List.findIdx?_singleton]
    by_cases hc : c = clause
    · -- the clause has not been searched before
      have none : order.findIdx? (· = c) = none := by
        rw [List.findIdx?_eq_none_iff]
        intro x hx
        rw [decide_eq_false_iff_not]
        rintro rfl
        exact new (hc ▸ hx)
      rw [none, hc]
      simp
    · rw [Function.update_of_ne hc, noted]
      simp [Ne.symm hc]

/-- **The tables** of an order tell the first depths. -/
theorem exists_depths? (within : ∀ goal ∈ goals, ∀ i, goal.Mentions i → i < slots.length)
    (known : ∀ c ∈ order, c < goals.length) (nodup : order.Nodup) :
    ∃ t, depths? slots goals order = some t ∧ t.Tell slots goals order := by
  induction order using List.reverseRecOn with
  | nil => exact ⟨_, rfl, .replicate _ _, .replicate _ _⟩
  | append_singleton order clause ih =>
    rw [List.forall_mem_append, List.forall_mem_singleton] at known
    rw [List.nodup_append] at nodup
    obtain ⟨t, ht, tell⟩ := ih known.1 nodup.1
    have hgoal := List.getElem?_eq_getElem known.2
    have mem := List.getElem_mem known.2
    have new : clause ∉ order := fun h => nodup.2.2 clause h clause (List.mem_singleton_self _) rfl
    obtain ⟨t', hnote, tell'⟩ :=
      tell.note hgoal (fun i hi => within _ mem i (Goal.mem_slots.mp hi)) new
    refine ⟨t', ?_, tell'⟩
    rw [depths?] at ht ⊢
    rw [List.zipIdx_append, List.foldlM_append, ht]
    show (t.note? goals clause (0 + order.length)).bind _ = _
    rw [Nat.zero_add, hnote]
    rfl

/-- Tables that tell right give the depth at which a check is made. -/
theorem Depths.Tell.ready?_eq {t : Depths} (tell : t.Tell slots goals order) {check : Check}
    (slot : ∀ i, .slot i ∈ check.sources → i < slots.length)
    (clause : ∀ c, .clause c ∈ check.sources → c < goals.length) :
    t.ready? order.length check = some (readyAt goals order check) := by
  have found : check.sources.mapM t.at? = some (check.sources.map (noted goals order)) := by
    apply mapM_some
    intro source hs
    cases source with
    | slot i => exact tell.slots.getElem? i (slot i hs)
    | clause c => exact tell.clauses.getElem? c (clause c hs)
  rw [ready?, found, readyAt]
  dsimp only [Option.bind_eq_bind, Option.bind_some]
  rw [List.map_map]
  have depths : (fun source => (noted goals order source).getD order.length)
      = boundAt goals order := funext getD_noted
  rw [← depths]
  rfl

/-- **To enter** one more check. -/
theorem Depths.Tell.enter {t : Depths} (tell : t.Tell slots goals order) {check : Check}
    (slot : ∀ i, .slot i ∈ check.sources → i < slots.length)
    (clause : ∀ c, .clause c ∈ check.sources → c < goals.length)
    (hlt : readyAt goals order check < order.length) {due : Array (List Nat)}
    (table : Tabulates due order.length fun d => (List.range checks.length).filter fun i =>
      (checks[i]?.map (readyAt goals order)) = some d) :
    ∃ due', t.enter? order.length due (check, checks.length) = some due' ∧
      Tabulates due' order.length fun d => (List.range (checks ++ [check]).length).filter fun i =>
        ((checks ++ [check])[i]?.map (readyAt goals order)) = some d := by
  obtain ⟨due', hput, table'⟩ := table.put hlt (((List.range checks.length).filter fun i =>
    (checks[i]?.map (readyAt goals order)) = some (readyAt goals order check)) ++ [checks.length])
  refine ⟨due', ?_, table'.congr ?_⟩
  · rw [Depths.enter?, tell.ready?_eq slot clause]
    dsimp only [Option.bind_eq_bind, Option.bind_some]
    rw [table.getElem? _ hlt, Option.bind_some, hput]
  · intro d _
    -- the checks before are where they were
    have before : ((List.range checks.length).filter fun i =>
          ((checks ++ [check])[i]?.map (readyAt goals order)) = some d)
        = (List.range checks.length).filter fun i =>
          (checks[i]?.map (readyAt goals order)) = some d := by
      apply List.filter_congr
      intro i hi
      rw [List.getElem?_append_left (List.mem_range.mp hi)]
    rw [List.length_append, List.length_singleton, List.range_succ, List.filter_append, before,
      List.filter_singleton, List.getElem?_concat_length]
    by_cases hd : readyAt goals order check = d
    · simp [hd]
    · simp [hd, Function.update_of_ne (Ne.symm hd)]

/-- **The schedule** is found by tables, without a look-up that is out of range. -/
theorem schedule?_eq (within : ∀ goal ∈ goals, ∀ i, goal.Mentions i → i < slots.length)
    (known : ∀ c ∈ order, c < goals.length) (nodup : order.Nodup)
    (slot : ∀ check ∈ checks, ∀ i, .slot i ∈ check.sources → i < slots.length)
    (clause : ∀ check ∈ checks, ∀ c, .clause c ∈ check.sources → c < goals.length)
    (room : checks ≠ [] → order ≠ []) :
    schedule? slots goals order checks = some (schedule goals order checks) := by
  obtain ⟨t, ht, tell⟩ := exists_depths? within known nodup
  have lists : ∃ due, checks.zipIdx.foldlM (t.enter? order.length)
        (Array.replicate order.length []) = some due ∧
      Tabulates due order.length fun d => (List.range checks.length).filter fun i =>
        (checks[i]?.map (readyAt goals order)) = some d := by
    clear ht
    induction checks using List.reverseRecOn with
    | nil => exact ⟨_, rfl, .replicate _ _⟩
    | append_singleton checks check ih =>
      simp only [List.forall_mem_append, List.forall_mem_singleton] at slot clause
      have nonempty : order ≠ [] := room (by simp)
      obtain ⟨due, hdue, table⟩ := ih slot.1 clause.1 fun _ => nonempty
      have hlt : readyAt goals order check < order.length := by
        have hpos := List.length_pos_iff.mpr nonempty
        rw [readyAt]
        omega
      obtain ⟨due', henter, table'⟩ := tell.enter slot.2 clause.2 hlt table
      refine ⟨due', ?_, table'⟩
      rw [List.zipIdx_append, List.foldlM_append, hdue, Nat.zero_add]
      show (t.enter? order.length due (check, checks.length)).bind _ = _
      rw [henter]
      rfl
  obtain ⟨due, hdue, table⟩ := lists
  rw [schedule?, ht]
  dsimp only [Option.bind_eq_bind, Option.bind_some]
  rw [hdue, schedule, ← table.toList_eq]
  rfl

end Schedule

end Plan

end TypedHypergraph
