/-
# The rows of a plan

The rows of a plan that is ready are those of the frames that are reached at its end: there is no
other row (`Plan.Ready.continues_of_mem_solve`), none of them is missing
(`Plan.Ready.mem_solve`), and they come in the lexicographic order of their atoms, read in the order
of the search (`Plan.Ready.ascending_solve`).
-/
import TypedHypergraph.Proofs.Backtracking
import TypedHypergraph.Proofs.Placing

namespace TypedHypergraph

namespace Plan

variable {digest : Content → UInt64} {g : Graph digest} {plan : Plan}

/-- The atoms of the clauses of a row, in the order of the search. -/
def reading (plan : Plan) (row : Row) : List Handle :=
  plan.order.filterMap fun c => row.groundings[c]?

/-! ## Rows of frames -/

/-- Where everything is known, nothing is left out. -/
theorem map_some_filterMap_id {α : Type} {xs : List (Option α)}
    (known : ∀ x ∈ xs, ∃ a, x = some a) : (xs.filterMap id).map some = xs := by
  induction xs with
  | nil => rfl
  | cons x xs ih =>
    rw [List.forall_mem_cons] at known
    obtain ⟨⟨a, rfl⟩, hrest⟩ := known
    show some a :: (xs.filterMap id).map some = some a :: xs
    rw [ih hrest]

/-- In the row of a frame that is placed at the end, all clauses have atoms. -/
theorem Placed.map_groundings (ready : plan.Ready) {f : Frame} {hs : List Handle}
    (h : Placed g plan f hs) (full : hs.length = plan.order.length) :
    (plan.rowOf f).groundings.map some = f.groundings.toList := by
  apply map_some_filterMap_id
  intro x hx
  obtain ⟨c, hc⟩ := List.mem_iff_getElem?.mp hx
  have hlt : c < plan.goals.length := by
    have hsize := (List.getElem?_eq_some_iff.mp hc).1
    rwa [Array.length_toList, h.groundings] at hsize
  obtain ⟨e, he⟩ := List.mem_iff_getElem?.mp (ready.mem_order.mpr hlt)
  have hdepth : e < hs.length := by
    rw [full]
    exact (List.getElem?_eq_some_iff.mp he).1
  have hat := h.grounding e c he
  rw [Array.getElem?_toList] at hc
  rw [Frame.grounding?, hc, Option.join_some, List.getElem?_eq_getElem hdepth] at hat
  exact ⟨_, hat⟩

/-- The row of a full frame has a grounding for each clause. -/
theorem Placed.length_groundings (ready : plan.Ready) {f : Frame} {hs : List Handle}
    (h : Placed g plan f hs) (full : hs.length = plan.order.length) :
    (plan.rowOf f).groundings.length = plan.goals.length := by
  rw [← List.length_map, h.map_groundings ready full, Array.length_toList, h.groundings]

/-- The groundings of the row of a full frame are those of the frame. -/
theorem Placed.getElem?_groundings (ready : plan.Ready) {f : Frame} {hs : List Handle}
    (h : Placed g plan f hs) (full : hs.length = plan.order.length) (c : Nat) :
    (plan.rowOf f).groundings[c]? = f.grounding? c := by
  rw [Frame.grounding?, ← Array.getElem?_toList, ← h.map_groundings ready full,
    List.getElem?_map]
  cases (plan.rowOf f).groundings[c]? <;> rfl

/-- What is read of a row with an atom for each clause is the atoms of all clauses. -/
theorem Ready.map_reading (ready : plan.Ready) {row : Row}
    (full : row.groundings.length = plan.goals.length) :
    (plan.reading row).map some = plan.order.map fun c => row.groundings[c]? := by
  have read : plan.reading row = (plan.order.map fun c => row.groundings[c]?).filterMap id := by
    rw [List.filterMap_map]
    rfl
  rw [read]
  apply map_some_filterMap_id
  intro x hx
  obtain ⟨c, hc, rfl⟩ := List.mem_map.mp hx
  have hlt : c < row.groundings.length := by
    rw [full]
    exact ready.mem_order.mp hc
  exact ⟨_, List.getElem?_eq_getElem hlt⟩

/-- A full row is read off at each depth of the search. -/
theorem Ready.length_reading (ready : plan.Ready) {row : Row}
    (full : row.groundings.length = plan.goals.length) :
    (plan.reading row).length = plan.order.length := by
  rw [← List.length_map some, ready.map_reading full, List.length_map]

/-- The atom of the clause of a depth is read at this depth. -/
theorem Ready.getElem?_reading (ready : plan.Ready) {row : Row}
    (full : row.groundings.length = plan.goals.length) {e c : Nat}
    (hc : plan.order[e]? = some c) : (plan.reading row)[e]? = row.groundings[c]? := by
  have hmap := congrArg (·[e]?) (ready.map_reading full)
  have hlt : c < row.groundings.length := by
    rw [full]
    exact ready.mem_order.mp (List.mem_of_getElem? hc)
  simp only [List.getElem?_map, hc, Option.map_some, List.getElem?_eq_getElem hlt] at hmap ⊢
  obtain ⟨a, ha, heq⟩ := Option.map_eq_some_iff.mp hmap
  rw [ha, heq]

/-- The atoms of all clauses are read, each once. -/
theorem Ready.reading_perm (ready : plan.Ready) {row : Row}
    (full : row.groundings.length = plan.goals.length) :
    (plan.reading row).Perm row.groundings := by
  have plainly : (List.range plan.goals.length).map (fun c => row.groundings[c]?)
      = row.groundings.map some := by
    apply List.ext_getElem
    · rw [List.length_map, List.length_map, List.length_range, full]
    · intro c hc _
      rw [List.length_map, List.length_range] at hc
      rw [List.getElem_map, List.getElem_map, List.getElem_range, List.getElem?_eq_getElem]
  rw [← List.map_perm_map_iff (Option.some_injective Handle), ready.map_reading full, ← plainly]
  exact ready.order.map _

/-- Read in the order of the search, the row of a frame has the atoms that are in place. -/
theorem Placed.reading_rowOf (ready : plan.Ready) {f : Frame} {hs : List Handle}
    (h : Placed g plan f hs) (full : hs.length = plan.order.length) :
    plan.reading (plan.rowOf f) = hs := by
  have hlen := h.length_groundings ready full
  apply List.ext_getElem?
  intro e
  cases he : plan.order[e]? with
  | none =>
    rw [List.getElem?_eq_none_iff] at he
    rw [List.getElem?_eq_none, List.getElem?_eq_none]
    · rw [full]
      exact he
    · rw [ready.length_reading hlen]
      exact he
  | some c =>
    rw [ready.getElem?_reading hlen he, h.getElem?_groundings ready full, h.grounding e c he]

/-- The row of a frame depends on its bindings and groundings only. -/
theorem rowOf_congr {f f' : Frame} (hb : f.bindings = f'.bindings)
    (hg : f.groundings = f'.groundings) : plan.rowOf f = plan.rowOf f' := by
  unfold rowOf
  rw [hb, hg]

/-- A row is that of a frame that is reached at the end, and that goes on from a certain frame. -/
def Continues (g : Graph digest) (plan : Plan) (f : Frame) (hs : List Handle) (row : Row) : Prop :=
  ∃ F hs', Reached g plan F hs' ∧ hs'.length = plan.order.length ∧ hs <+: hs' ∧
    f.Agrees F.binding? ∧ row = plan.rowOf F

namespace Ready

open Search

/-! ## No other row -/

/-- What goes on from the frames of a depth goes on from a frame that leads there. -/
theorem continues_step (ready : plan.Ready) {row : Row} {left : Nat}
    (below : ∀ {f : Frame} {hs : List Handle}, Reached g plan f hs →
      hs.length + left = plan.order.length → row ∈ solve g plan left f hs.length →
        Continues g plan f hs row)
    {f f' : Frame} {hs : List Handle} {a : Handle} (reached : Reached g plan f hs)
    (hlen : hs.length + (left + 1) = plan.order.length)
    (ha : attempt g plan f hs.length a = (true, f'))
    (hrow : row ∈ branch g plan left f hs.length a) : Continues g plan f' (hs ++ [a]) row := by
  have reached' := reached.attempt ready (by omega) ha
  have hlen' : (hs ++ [a]).length = hs.length + 1 := by simp
  rw [branch, ha] at hrow
  dsimp only at hrow
  by_cases hleft : left = 0
  · rw [if_pos hleft, List.mem_singleton] at hrow
    exact ⟨f', hs ++ [a], reached', by omega, List.prefix_refl _, fun _ _ hb => hb, hrow⟩
  · rw [if_neg hleft, ← hlen'] at hrow
    exact below reached' (by omega) hrow

/-- **Every row** is that of a frame that is reached at the end, and that goes on from the frame at
hand. -/
theorem continues_of_mem_solve (ready : plan.Ready) {row : Row} :
    ∀ {left : Nat} {f : Frame} {hs : List Handle}, Reached g plan f hs →
      hs.length + left = plan.order.length → row ∈ solve g plan left f hs.length →
        Continues g plan f hs row := by
  intro left
  induction left with
  | zero =>
    intro f hs _ _ hrow
    rw [solve] at hrow
    cases hrow
  | succ left ih =>
    intro f hs reached hlen hrow
    rw [solve_succ, List.mem_flatMap] at hrow
    obtain ⟨a, -, hrow⟩ := hrow
    rcases ha : attempt g plan f hs.length a with ⟨_ | _, f'⟩
    · rw [branch, ha] at hrow
      cases hrow
    · obtain ⟨F, hs', hF, hfull, hpre, hagrees, hr⟩ :=
        ready.continues_step ih reached hlen ha hrow
      have agrees : f.Agrees f'.binding? := attempt_agrees ready (by omega) ha
      exact ⟨F, hs', hF, hfull, (List.prefix_append _ _).trans hpre,
        fun i b hb => hagrees i b (agrees i b hb), hr⟩

/-- The rows behind an atom go on from the frame after this atom. -/
theorem continues_of_mem_branch (ready : plan.Ready) {row : Row} {left : Nat} {f f' : Frame}
    {hs : List Handle} {a : Handle} (reached : Reached g plan f hs)
    (hlen : hs.length + (left + 1) = plan.order.length)
    (ha : attempt g plan f hs.length a = (true, f'))
    (hrow : row ∈ branch g plan left f hs.length a) : Continues g plan f' (hs ++ [a]) row :=
  ready.continues_step ready.continues_of_mem_solve reached hlen ha hrow

/-! ## No row is missing -/

/-- **Every frame** that is reached at the end has its row. -/
theorem mem_solve (ready : plan.Ready) (hg : g.Covered) (ht : g.types.WellFormed)
    (declared : ∀ s ∈ plan.slots, ∀ type, s.type = some type → g.types.contains type)
    {F : Frame} {hs' : List Handle} (h' : Reached g plan F hs')
    (full : hs'.length = plan.order.length) (stored : ∀ a ∈ hs', g.contains a) :
    ∀ {left : Nat} {f : Frame} {hs : List Handle}, Reached g plan f hs →
      hs.length + (left + 1) = plan.order.length → hs <+: hs' → f.Agrees F.binding? →
        plan.rowOf F ∈ solve g plan (left + 1) f hs.length := by
  intro left
  induction left with
  | zero =>
    intro f hs reached hlen hpre agrees
    obtain ⟨more, rfl⟩ := hpre
    obtain ⟨a, rfl⟩ : ∃ a, more = [a] := by
      rw [← List.length_eq_one_iff]
      rw [List.length_append] at full
      omega
    obtain ⟨hmem, f', ha, agrees'⟩ := reached.attempt_toward ready hg ht declared h' full stored
      (List.prefix_refl _) agrees
    -- the last atom is in its place, and no choice is left
    have reached' := reached.attempt ready (by omega) ha
    have hrow : plan.rowOf f' = plan.rowOf F := rowOf_congr
      (reached'.toPlaced.bindings_eq ready h'.toPlaced full agrees')
      (reached'.toPlaced.groundings_eq ready h'.toPlaced)
    rw [solve_succ, List.mem_flatMap]
    refine ⟨a, hmem, ?_⟩
    rw [branch, ha]
    dsimp only
    rw [if_pos rfl, hrow]
    exact List.mem_singleton_self _
  | succ left ih =>
    intro f hs reached hlen hpre agrees
    obtain ⟨more, rfl⟩ := hpre
    cases more with
    | nil =>
      rw [List.append_nil] at full
      omega
    | cons a more =>
      have ahead : hs ++ [a] <+: hs ++ a :: more := ⟨more, by simp⟩
      obtain ⟨hmem, f', ha, agrees'⟩ := reached.attempt_toward ready hg ht declared h' full stored
        ahead agrees
      have reached' := reached.attempt ready (by omega) ha
      have hlen' : (hs ++ [a]).length = hs.length + 1 := by simp
      -- the first atom is the right one, and the others follow by induction
      have below := ih reached' (by omega) ahead agrees'
      rw [hlen'] at below
      rw [solve_succ, List.mem_flatMap]
      refine ⟨a, hmem, ?_⟩
      rw [branch, ha]
      dsimp only
      rw [if_neg (Nat.succ_ne_zero left)]
      exact below

/-! ## Order -/

/-- Lists that first differ in an ascending pair are in lexicographic order. -/
theorem lex_of_prefixes {hs as bs : List Handle} {a b : Handle} (hab : a < b)
    (ha : hs ++ [a] <+: as) (hb : hs ++ [b] <+: bs) : List.Lex (· < ·) as bs := by
  obtain ⟨as, rfl⟩ := ha
  obtain ⟨bs, rfl⟩ := hb
  rw [List.append_assoc, List.append_assoc]
  exact List.Lex.append_left _ (List.Lex.rel hab) hs

/-- **The rows come in lexicographic order** of what is read. -/
theorem ascending_solve (ready : plan.Ready) :
    ∀ {left : Nat} {f : Frame} {hs : List Handle}, Reached g plan f hs →
      hs.length + left = plan.order.length →
        (solve g plan left f hs.length).Pairwise fun a b =>
          List.Lex (· < ·) (plan.reading a) (plan.reading b) := by
  intro left
  induction left with
  | zero =>
    intro f hs _ _
    rw [solve]
    exact List.Pairwise.nil
  | succ left ih =>
    intro f hs reached hlen
    -- behind an atom all rows read as this atom in its place
    have reads : ∀ a row, row ∈ branch g plan left f hs.length a →
        hs ++ [a] <+: plan.reading row := by
      intro a row hrow
      rcases ha : attempt g plan f hs.length a with ⟨_ | _, f'⟩
      · rw [branch, ha] at hrow
        cases hrow
      · obtain ⟨F, hs', hF, hfull, hpre, -, rfl⟩ :=
          ready.continues_of_mem_branch reached hlen ha hrow
        rw [hF.toPlaced.reading_rowOf ready hfull]
        exact hpre
    rw [solve_succ, List.pairwise_flatMap]
    constructor
    · intro a _
      unfold branch
      rcases ha : attempt g plan f hs.length a with ⟨_ | _, f'⟩
      · exact List.Pairwise.nil
      · dsimp only
        by_cases hleft : left = 0
        · rw [if_pos hleft]
          exact List.pairwise_singleton _ _
        · rw [if_neg hleft]
          have reached' := reached.attempt ready (by omega) ha
          have hlen' : (hs ++ [a]).length = hs.length + 1 := by simp
          rw [← hlen']
          exact ih reached' (by omega)
    · have ascending : (candidatesAt g plan f hs.length).Pairwise (· < ·) := by
        unfold candidatesAt
        split
        · exact Graph.ascending_candidates _
        · exact List.Pairwise.nil
      refine ascending.imp ?_
      intro a b hab x hx y hy
      exact lex_of_prefixes hab (reads a x hx) (reads b y hy)

end Ready

end Plan

end TypedHypergraph
