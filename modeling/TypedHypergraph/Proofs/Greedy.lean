/-
# The greedy order

What the rank of a clause is, said without a list of bound slots: behind some goals that are
searched before it, a goal leaves certain slots unbound, may be held, and has an estimate
(`Goal.Ranked`).  There is exactly one such rank.

The order of clauses is greedy (`Plan.greedy_clauseOrder`): at every place stands the clause that,
behind the clauses before it, has the least rank of all that stand there or later.
-/
import Mathlib.Data.Prod.Lex
import Mathlib.Data.Set.Card
import TypedHypergraph.Proofs.Indices
import TypedHypergraph.Proofs.Ordering

namespace TypedHypergraph

variable {digest : Content → UInt64} {g : Graph digest} {slots : List Slot}

/-! ## The order of ranks -/

namespace Rank

/-- What is compared of a rank, first things first. -/
def key (r : Rank) : ℕ ×ₗ Bool ×ₗ ℕ ×ₗ ℕ :=
  toLex (r.unbound, toLex (r.adrift, toLex (r.estimate, r.clause)))

/-- **Ranks are compared lexicographically**; to be anchored comes before being adrift. -/
theorem compare_eq_lt_iff (a b : Rank) : a.compare b = .lt ↔ a.key < b.key := by
  have flag : ∀ x y : Bool, x.toNat < y.toNat ↔ x < y := by decide
  have same : ∀ x y : Bool, x.toNat = y.toNat ↔ x = y := by decide
  simp only [Rank.compare, key, Ordering.then_eq_lt, Nat.compare_eq_lt, Nat.compare_eq_eq,
    Prod.Lex.toLex_lt_toLex, flag, same]

end Rank

/-! ## What a rank says -/

namespace Goal

/-- Behind some goals, a goal stands for a certain atom, or for one that they have bound. -/
def Fixed (earlier : List Goal) : Goal → Prop
  | .ground _ => True
  | .slot i => MentionedIn i earlier
  | .link _ _ => False

/-- Behind some goals, a goal is fixed itself, or one of its members is. -/
def Held (earlier : List Goal) : Goal → Prop
  | .ground _ => True
  | .slot i => MentionedIn i earlier
  | .link _ members => ∃ member ∈ members, member.Fixed earlier

/-- What the indices say of the number of atoms that will be tried for a goal behind some goals:
one for a fixed atom, the atoms of the type of a free slot, or all atoms; and for a link the atoms
of its type, or the links over one of its certain members, whichever are fewest. -/
inductive Estimated (g : Graph digest) (slots : List Slot) (earlier : List Goal) :
    Goal → Nat → Prop
  | ground (h : Handle) : Estimated g slots earlier (.ground h) 1
  | bound {i : Nat} (hi : MentionedIn i earlier) : Estimated g slots earlier (.slot i) 1
  | typed {i : Nat} {type : TypeId} (hi : ¬ MentionedIn i earlier)
    (ht : slots[i]?.bind (·.type) = some type) :
    Estimated g slots earlier (.slot i) ((g.types.subtypes type).map g.countOfType).sum
  | untyped {i : Nat} (hi : ¬ MentionedIn i earlier) (ht : slots[i]?.bind (·.type) = none) :
    Estimated g slots earlier (.slot i) g.size
  | link {type : TypeId} {members : List Goal} {n : Nat}
    (least : IsLeast {m | m = g.countOfType type ∨ ∃ h links, Goal.ground h ∈ members ∧
      g.incidence.get? h = some links ∧ m = links.length} n) :
    Estimated g slots earlier (.link type members) n

/-- **The rank of a clause** behind some goals that are searched before it. -/
structure Ranked (g : Graph digest) (slots : List Slot) (earlier : List Goal) (goal : Goal)
    (clause : Nat) (r : Rank) : Prop where
  unbound : r.unbound = {i | goal.Mentions i ∧ ¬ MentionedIn i earlier}.ncard
  adrift : r.adrift = true ↔ ¬ goal.Held earlier
  estimate : goal.Estimated g slots earlier r.estimate
  clause : r.clause = clause

/-- There is only one right estimate for a goal. -/
theorem Estimated.unique {earlier : List Goal} {goal : Goal} {m n : Nat}
    (hm : goal.Estimated g slots earlier m) (hn : goal.Estimated g slots earlier n) : m = n := by
  cases hm with
  | ground h => cases hn; rfl
  | bound hi =>
    cases hn with
    | bound => rfl
    | typed hi' => exact absurd hi hi'
    | untyped hi' => exact absurd hi hi'
  | typed hi ht =>
    cases hn with
    | bound hi' => exact absurd hi' hi
    | typed _ ht' =>
      rw [ht, Option.some.injEq] at ht'
      rw [ht']
    | untyped _ ht' => simp [ht] at ht'
  | untyped hi ht =>
    cases hn with
    | bound hi' => exact absurd hi' hi
    | typed _ ht' => simp [ht] at ht'
    | untyped => rfl
  | link least =>
    cases hn with
    | link least' => exact least.unique least'

/-- There is only one right rank for a goal. -/
theorem Ranked.unique {earlier : List Goal} {goal : Goal} {clause : Nat} {r r' : Rank}
    (hr : Ranked g slots earlier goal clause r) (hr' : Ranked g slots earlier goal clause r') :
    r = r' := by
  obtain ⟨unbound, adrift, estimate, place⟩ := r
  obtain ⟨unbound', adrift', estimate', place'⟩ := r'
  have hu : unbound = unbound' := hr.unbound.trans hr'.unbound.symm
  have ha : adrift = adrift' := Bool.eq_iff_iff.mpr (hr.adrift.trans hr'.adrift.symm)
  have he : estimate = estimate' := hr.estimate.unique hr'.estimate
  have hc : place = place' := hr.clause.trans hr'.clause.symm
  rw [hu, ha, he, hc]

/-! ## Ranks from bound slots -/

mutual

/-- Collecting the slots of a goal lists none of them twice. -/
theorem nodup_collect : ∀ (goal : Goal) {seen : List Nat}, seen.Nodup → (goal.collect seen).Nodup
  | .ground _, seen, h => by
    rw [collect]
    exact h
  | .slot i, seen, h => by
    rw [collect]
    split
    · exact h
    · rename_i hi
      rw [List.nodup_append]
      exact ⟨h, List.nodup_singleton i, by simpa using fun a ha => ne_of_mem_of_not_mem ha hi⟩
  | .link _ goals, seen, h => by
    rw [collect]
    exact nodup_collectAll goals h

/-- Collecting the slots of several goals lists none of them twice. -/
theorem nodup_collectAll : ∀ (goals : List Goal) {seen : List Nat}, seen.Nodup →
    (collectAll seen goals).Nodup
  | [], seen, h => by
    rw [collectAll]
    exact h
  | goal :: rest, seen, h => by
    rw [collectAll]
    exact nodup_collectAll rest (nodup_collect goal h)

end

/-- The slots of the earlier goals are bound, and no others. -/
def Binds (bound : List Nat) (earlier : List Goal) : Prop := ∀ i, i ∈ bound ↔ MentionedIn i earlier

variable {bound : List Nat} {earlier : List Goal}

/-- Before the first goal no slot is bound. -/
theorem binds_nil : Binds [] [] := by
  intro i
  simp [MentionedIn]

/-- Behind one more goal its slots are bound as well. -/
theorem Binds.collect (h : Binds bound earlier) (goal : Goal) :
    Binds (goal.collect bound) (earlier ++ [goal]) := by
  intro i
  rw [mem_collect, h i, mentionedIn_iff, mentionedIn_iff]
  simp [or_and_right, exists_or]

/-- The slots of a goal that are still free are those that no earlier goal mentions. -/
theorem length_unbound (h : Binds bound earlier) (goal : Goal) :
    (goal.slots.filter (· ∉ bound)).length
      = {i | goal.Mentions i ∧ ¬ MentionedIn i earlier}.ncard := by
  have nodup : (goal.slots.filter (· ∉ bound)).Nodup :=
    (nodup_collect goal List.nodup_nil).filter _
  have same : {i | goal.Mentions i ∧ ¬ MentionedIn i earlier}
      = ((goal.slots.filter (· ∉ bound)).toFinset : Set Nat) := by
    ext i
    simp [mem_slots, h i]
  rw [same, Set.ncard_coe_finset, List.toFinset_card_of_nodup nodup]

/-- A goal is anchored exactly if the earlier goals hold it. -/
theorem isAnchored_iff (h : Binds bound earlier) (goal : Goal) :
    goal.isAnchored bound = true ↔ goal.Held earlier := by
  cases goal with
  | ground m => simp [isAnchored, Held]
  | slot i => simp [isAnchored, Held, h i]
  | link type members =>
    rw [isAnchored, Held, List.any_eq_true]
    -- a member is looked at as a goal is, but not into its own members
    have member : ∀ goal : Goal, (match goal with
        | .ground _ => true
        | .slot i => decide (i ∈ bound)
        | .link _ _ => false) = true ↔ goal.Fixed earlier := by
      intro goal
      cases goal with
      | ground m => simp [Fixed]
      | slot i => simp [Fixed, h i]
      | link type members => simp [Fixed]
    exact exists_congr fun goal => and_congr_right fun _ => member goal

/-- The least of some numbers. -/
theorem isLeast_leastOf (first : Nat) (rest : List Nat) :
    IsLeast {m | m = first ∨ m ∈ rest} (leastOf first rest) := by
  unfold leastOf
  induction rest generalizing first with
  | nil => simp
  | cons x rest ih =>
    obtain ⟨hmem, hle⟩ := ih (min first x)
    rw [List.foldl_cons]
    constructor
    · rcases hmem with hmem | hmem
      · rcases min_choice first x with hmin | hmin
        · exact .inl (hmem.trans hmin)
        · exact .inr (List.mem_cons.mpr (.inl (hmem.trans hmin)))
      · exact .inr (List.mem_cons_of_mem _ hmem)
    · have hfirst : rest.foldl min (min first x) ≤ min first x := hle (.inl rfl)
      rintro m (rfl | hm)
      · exact hfirst.trans (min_le_left _ _)
      · rcases List.mem_cons.mp hm with rfl | hm
        · exact hfirst.trans (min_le_right _ _)
        · exact hle (.inr hm)

/-- The numbers of links over certain members, for those that have an entry. -/
theorem mem_degrees {members : List Goal} {m : Nat} :
    (m ∈ (members.filterMap groundHandle?).filterMap fun h =>
        if g.incidence.contains h then some (g.incidence.degree h) else none) ↔
      ∃ h links, Goal.ground h ∈ members ∧ g.incidence.get? h = some links ∧ m = links.length := by
  simp only [List.mem_filterMap, Option.ite_none_right_eq_some, Option.some.injEq]
  constructor
  · rintro ⟨h, ⟨goal, hgoal, hground⟩, hentry, rfl⟩
    rw [eq_ground_of_groundHandle? hground] at hgoal
    obtain ⟨links, hlinks⟩ := (Incidence.contains_iff_get? _ _).mp hentry
    exact ⟨h, links, hgoal, hlinks, Incidence.degree_eq_length hlinks⟩
  · rintro ⟨h, links, hgoal, hlinks, rfl⟩
    exact ⟨h, ⟨_, hgoal, rfl⟩, (Incidence.contains_iff_get? _ _).mpr ⟨links, hlinks⟩,
      Incidence.degree_eq_length hlinks⟩

/-- **The estimate** for a goal is the right one, whichever goals came before. -/
theorem estimated_estimate (h : Binds bound earlier) (goal : Goal) :
    goal.Estimated g slots earlier (goal.estimate g slots bound) := by
  cases goal with
  | ground m => exact .ground m
  | slot i =>
    rw [estimate]
    by_cases hi : i ∈ bound
    · rw [if_pos hi]
      exact .bound ((h i).mp hi)
    · have free : ¬ MentionedIn i earlier := fun hm => hi ((h i).mpr hm)
      rw [if_neg hi]
      cases ht : slots[i]?.bind (·.type) with
      | none => exact .untyped free ht
      | some type =>
        have sum := Estimated.typed (g := g) free ht
        rw [List.sum_eq_foldl, List.foldl_map] at sum
        exact sum
  | link type members =>
    rw [estimate]
    refine .link ?_
    have least := isLeast_leastOf (g.countOfType type)
      ((members.filterMap groundHandle?).filterMap fun h =>
        if g.incidence.contains h then some (g.incidence.degree h) else none)
    simpa only [mem_degrees] using least

end Goal

/-! ## The best of some clauses -/

/-- To keep whatever comes sooner is to end with a key that none is below. -/
theorem foldl_least_le {α κ : Type} [Preorder κ] (key : α → κ) {sooner : α → α → Prop}
    [DecidableRel sooner] (le_of_sooner : ∀ a b, sooner a b → key a ≤ key b)
    (le_of_not_sooner : ∀ a b, ¬ sooner a b → key b ≤ key a) (rest : List α) (first : α) :
    ∀ x ∈ first :: rest,
      key (rest.foldl (fun least c => if sooner c least then c else least) first) ≤ key x := by
  induction rest generalizing first with
  | nil => simp
  | cons y rest ih =>
    intro x hx
    rw [List.foldl_cons]
    by_cases hsooner : sooner y first
    · rw [if_pos hsooner]
      rcases List.mem_cons.mp hx with rfl | hx
      · exact (ih y y List.mem_cons_self).trans (le_of_sooner y x hsooner)
      · exact ih y x hx
    · rw [if_neg hsooner]
      rcases List.mem_cons.mp hx with rfl | hx
      · exact ih x x List.mem_cons_self
      · rcases List.mem_cons.mp hx with rfl | hx
        · exact (ih first first List.mem_cons_self).trans (le_of_not_sooner x first hsooner)
        · exact ih first x (List.mem_cons_of_mem _ hx)

namespace Plan

variable {bound : List Nat} {earlier : List Goal}

/-- **The rank that is computed** from the slots that are bound is the rank of the clause. -/
theorem ranked_rank (h : Goal.Binds bound earlier) (clause : Goal × Nat) :
    clause.1.Ranked g slots earlier clause.2 (rank g slots bound clause) where
  unbound := Goal.length_unbound h clause.1
  adrift := by
    rw [← Goal.isAnchored_iff h clause.1]
    simp [rank]
  estimate := Goal.estimated_estimate h clause.1
  clause := rfl

/-- **The best clause** has the least rank. -/
theorem best_least {rankOf : Goal × Nat → Rank} {clauses : List (Goal × Nat)} {c : Goal × Nat}
    (h : best rankOf clauses = some c) : ∀ x ∈ clauses, (rankOf c).key ≤ (rankOf x).key := by
  cases clauses with
  | nil => cases h
  | cons first rest =>
    rw [best, Option.some.injEq] at h
    rw [← h]
    apply foldl_least_le fun c => (rankOf c).key
    · exact fun a b hlt => ((Rank.compare_eq_lt_iff _ _).mp hlt).le
    · exact fun a b hlt => le_of_not_gt fun h => hlt ((Rank.compare_eq_lt_iff _ _).mpr h)

/-! ## The order -/

/-- The goals of some places. -/
def goalsOf (goals : List Goal) (places : List Nat) : List Goal := places.filterMap (goals[·]?)

/-- To put a place behind some goals is to put its goal there. -/
theorem append_goalsOf_cons {goals : List Goal} {place : Nat} {goal : Goal}
    (hgoal : goals[place]? = some goal) (earlier : List Goal) (places : List Nat) :
    earlier ++ goalsOf goals (place :: places) = earlier ++ [goal] ++ goalsOf goals places := by
  rw [goalsOf, List.filterMap_cons_some hgoal, List.append_assoc]
  rfl

/-- At every place of an order behind some goals stands a clause of least rank. -/
def LeastFirst (g : Graph digest) (slots : List Slot) (goals earlier : List Goal)
    (order : List Nat) : Prop :=
  ∀ (d chosen : Nat) (goal : Goal), order[d]? = some chosen → goals[chosen]? = some goal →
    ∀ other ∈ order.drop d, ∀ goal' : Goal, goals[other]? = some goal' →
      ∀ r r' : Rank, goal.Ranked g slots (earlier ++ goalsOf goals (order.take d)) chosen r →
        goal'.Ranked g slots (earlier ++ goalsOf goals (order.take d)) other r' → r.key ≤ r'.key

/-- **The clauses that are left** are put into an order that is greedy behind the goals before. -/
theorem leastFirst_arrange {goals : List Goal} : ∀ (fuel : Nat) {left : List (Goal × Nat)}
    {bound : List Nat} {earlier : List Goal}, left.length ≤ fuel → (left.map (·.2)).Nodup →
      (∀ c ∈ left, goals[c.2]? = some c.1) → Goal.Binds bound earlier →
        LeastFirst g slots goals earlier (arrange g slots fuel left bound) := by
  intro fuel
  induction fuel with
  | zero =>
    intro left bound earlier _ _ _ _ d chosen goal hchosen
    rw [arrange] at hchosen
    cases hchosen
  | succ fuel ih =>
    intro left bound earlier hlen hnodup hgoals binds
    have perm := perm_arrange g slots (fuel + 1) left bound hlen hnodup
    rw [arrange] at perm ⊢
    cases hbest : best (rank g slots bound) left with
    | none =>
      intro d chosen goal hchosen
      cases hchosen
    | some clause =>
      rw [hbest] at perm
      have hmem : clause ∈ left := best_mem hbest
      have hclause := hgoals clause hmem
      rintro (_ | d) chosen goal hchosen hgoal other hother goal' hgoal' r r' hr hr'
      · -- the first place: the best of all that are left
        have hat : clause.2 = chosen := by simpa using hchosen
        rw [← hat, hclause, Option.some.injEq] at hgoal
        rw [List.drop_zero, perm.mem_iff] at hother
        obtain ⟨c, hc, rfl⟩ := List.mem_map.mp hother
        rw [hgoals c hc, Option.some.injEq] at hgoal'
        subst hgoal hgoal' hat
        have before : earlier ++ goalsOf goals ([] : List Nat) = earlier := List.append_nil _
        rw [List.take_zero, before] at hr hr'
        rw [hr.unique (ranked_rank binds clause), hr'.unique (ranked_rank binds c)]
        exact best_least hbest c hc
      · -- a later place: behind one more goal
        have hless : (left.filter (·.2 ≠ clause.2)).length < left.length :=
          List.length_filter_lt_length_iff_exists.mpr ⟨clause, hmem, by simp⟩
        have hsub : ((left.filter (·.2 ≠ clause.2)).map (·.2)).Nodup :=
          hnodup.sublist (List.filter_sublist.map _)
        have rest := ih (by omega) hsub (fun c hc => hgoals c (List.mem_of_mem_filter hc))
          (binds.collect clause.1)
        rw [List.take_succ_cons, append_goalsOf_cons hclause] at hr hr'
        exact rest d chosen goal hchosen hgoal other hother goal' hgoal' r r' hr hr'

/-- An order of clauses in which each stands once and the best of those that are left comes next. -/
structure Greedy (g : Graph digest) (slots : List Slot) (goals : List Goal) (order : List Nat) :
    Prop where
  perm : order.Perm (List.range goals.length)
  /-- At every place each clause has one rank behind the clauses that stand before it. -/
  ranked : ∀ (d clause : Nat) (goal : Goal), goals[clause]? = some goal →
    ∃! r, goal.Ranked g slots (goalsOf goals (order.take d)) clause r
  /-- No clause that stands at this place or later has a lesser rank than the one that is chosen. -/
  least : LeastFirst g slots goals [] order

/-- **The order of clauses is greedy.** -/
theorem greedy_clauseOrder (g : Graph digest) (slots : List Slot) (goals : List Goal) :
    Greedy g slots goals (clauseOrder g slots goals) where
  perm := perm_clauseOrder g slots goals
  ranked := by
    intro d clause goal _
    generalize hearlier : goalsOf goals ((clauseOrder g slots goals).take d) = earlier
    have binds : Goal.Binds (Goal.collectAll [] earlier) earlier := by
      intro i
      rw [Goal.mem_collectAll]
      simp
    have ranked : goal.Ranked g slots earlier clause _ := ranked_rank binds (goal, clause)
    exact ⟨_, ranked, fun r hr => hr.unique ranked⟩
  least := by
    have few : goals.zipIdx.length ≤ goals.length := by rw [List.length_zipIdx]
    exact leastFirst_arrange goals.length few (nodup_map_snd_zipIdx goals)
      (fun c hc => List.mem_zipIdx_iff_getElem?.mp hc) Goal.binds_nil

end Plan

end TypedHypergraph
