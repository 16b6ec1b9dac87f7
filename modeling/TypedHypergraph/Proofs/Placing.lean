/-
# Atoms in their places

A frame is *placed* by a list of atoms, one for each depth so far, if it is what the search has
assumed after its clauses matched these atoms (`Plan.Placed`), and *reached* if the checks that are
due have passed as well (`Plan.Reached`).

An attempt that succeeds leads from a frame that is reached to the next one
(`Plan.Reached.attempt`), and an attempt on the way to a frame that is reached does succeed
(`Plan.Reached.attempt_toward`).
-/
import TypedHypergraph.Proofs.Candidates
import TypedHypergraph.Proofs.Checking

namespace TypedHypergraph

namespace Plan

variable {digest : Content → UInt64} {g : Graph digest} {plan : Plan}

/-- A frame holds what has been assumed for the atoms of the first depths. -/
structure Placed (g : Graph digest) (plan : Plan) (f : Frame) (hs : List Handle) : Prop where
  bindings : f.bindings.size = plan.slots.length
  groundings : f.groundings.size = plan.goals.length
  grounding : ∀ e c : Nat, plan.order[e]? = some c → f.grounding? c = hs[e]?
  holds : ∀ (e : Nat) (goal : Goal) (h : Handle), plan.goalAt? e = some goal → hs[e]? = some h →
    goal.Holds g f.binding? h
  suits : ∀ i h, f.binding? i = some h → g.Suits plan.slots i h

/-- The checks that are due have passed as well. -/
structure Reached (g : Graph digest) (plan : Plan) (f : Frame) (hs : List Handle) : Prop
    extends Placed g plan f hs where
  checks : ∀ check ∈ plan.checks, readyAt plan.goals plan.order check < hs.length →
    check.passes g f = true

namespace Placed

variable {f f' : Frame} {hs hs' : List Handle}

/-! ## What is known in a place -/

/-- A slot that has been bound by a certain depth is known. -/
theorem exists_binding? (ready : plan.Ready) (h : Placed g plan f hs) {i : Nat}
    (hi : i < plan.slots.length) (hb : boundAt plan.goals plan.order (.slot i) < hs.length) :
    ∃ a, f.binding? i = some a := by
  obtain ⟨goal, hgoal, hm⟩ := ready.goal_of_boundAt_slot hi
  exact Goal.Holds.bound goal (h.holds _ goal _ hgoal (List.getElem?_eq_getElem hb)) hm

/-- **What has been bound** is found in later places as it was. -/
theorem find?_eq (ready : plan.Ready) (h : Placed g plan f hs) (h' : Placed g plan f' hs')
    (earlier : hs <+: hs') (agrees : f.Agrees f'.binding?) {source : Source}
    (hk : plan.Knows source) (hb : boundAt plan.goals plan.order source < hs.length) :
    f.find? source = f'.find? source := by
  cases source with
  | slot i =>
    obtain ⟨a, ha⟩ := h.exists_binding? ready hk hb
    show f.binding? i = f'.binding? i
    rw [ha, agrees i a ha]
  | clause c =>
    have horder := ready.order_of_boundAt_clause hk
    show f.grounding? c = f'.grounding? c
    rw [h.grounding _ c horder, h'.grounding _ c horder]
    obtain ⟨more, rfl⟩ := earlier
    rw [List.getElem?_append_left hb]

/-- What has been bound is checked in later places as it was, against whatever graph. -/
theorem passes_eq (ready : plan.Ready) (h : Placed g plan f hs) (h' : Placed g plan f' hs')
    (earlier : hs <+: hs') (agrees : f.Agrees f'.binding?) {check : Check}
    (hc : check ∈ plan.checks) (hr : readyAt plan.goals plan.order check < hs.length)
    {m : Graph digest} : check.passes m f = check.passes m f' := by
  apply Check.passes_congr
  intro source hs
  exact h.find?_eq ready h' earlier agrees (ready.sources check hc source hs)
    ((ready.boundAt_le hc hs).trans_lt hr)

/-- Where all clauses have their atoms, all slots are known. -/
theorem bindings_eq (ready : plan.Ready) (h : Placed g plan f hs) (h' : Placed g plan f' hs)
    (full : hs.length = plan.order.length) (agrees : f.Agrees f'.binding?) :
    f.bindings = f'.bindings := by
  have same : ∀ i, i < plan.slots.length → f.binding? i = f'.binding? i := by
    intro i hi
    have hb : boundAt plan.goals plan.order (.slot i) < hs.length := by
      rw [full]
      exact ready.boundAt_lt (.slot i) hi
    obtain ⟨a, ha⟩ := h.exists_binding? ready hi hb
    rw [ha, agrees i a ha]
  apply Array.ext
  · rw [h.bindings, h'.bindings]
  · intro i hi hi'
    have hs := same i (by rw [← h.bindings]; exact hi)
    unfold Frame.binding? at hs
    rw [Array.getElem?_eq_getElem hi, Array.getElem?_eq_getElem hi'] at hs
    exact hs

/-- Frames that have placed the same atoms have the same groundings. -/
theorem groundings_eq (ready : plan.Ready) (h : Placed g plan f hs) (h' : Placed g plan f' hs) :
    f.groundings = f'.groundings := by
  apply Array.ext
  · rw [h.groundings, h'.groundings]
  · intro c hc hc'
    have hmem : c ∈ plan.order := ready.mem_order.mpr (by rw [← h.groundings]; exact hc)
    obtain ⟨e, he⟩ := List.mem_iff_getElem?.mp hmem
    have hs : f.grounding? c = f'.grounding? c := by
      rw [h.grounding e c he, h'.grounding e c he]
    unfold Frame.grounding? at hs
    rw [Array.getElem?_eq_getElem hc, Array.getElem?_eq_getElem hc'] at hs
    exact hs

end Placed

/-! ## The beginning -/

/-- The empty frame is reached with nothing placed. -/
theorem reached_empty : Reached g plan (Frame.empty plan) [] where
  bindings := Array.size_replicate
  groundings := Array.size_replicate
  grounding := by
    intro e c _
    unfold Frame.grounding? Frame.empty
    rw [Array.getElem?_replicate, List.getElem?_nil]
    split <;> rfl
  holds := by simp
  suits := by
    intro i h hb
    unfold Frame.binding? Frame.empty at hb
    rw [Array.getElem?_replicate] at hb
    split at hb <;> cases hb
  checks := by simp

/-! ## One place further -/

/-- An attempt that succeeds has unified the goal and noted the atom, and the checks of the depth
have passed. -/
theorem attempt_eq_true (ready : plan.Ready) {f f' : Frame} {depth : Nat} {h : Handle}
    (hdepth : depth < plan.order.length) (ha : Search.attempt g plan f depth h = (true, f')) :
    ∃ clause goal f₁, plan.order[depth]? = some clause ∧ clause < plan.goals.length ∧
      plan.goalAt? depth = some goal ∧ goal ∈ plan.goals ∧
      g.unify plan.slots f goal h = (true, f₁) ∧ f' = f₁.ground clause h ∧
      plan.checksPass g f' depth = true := by
  obtain ⟨clause, goal, hclause, hgoal, hat⟩ := ready.exists_goalAt? hdepth
  rw [Search.attempt_eq hclause hat] at ha
  rcases hu : g.unify plan.slots f goal h with ⟨_ | _, f₁⟩
  · rw [hu] at ha
    cases ha
  · rw [hu] at ha
    simp only [Prod.mk.injEq] at ha
    obtain ⟨hpass, rfl⟩ := ha
    exact ⟨clause, goal, f₁, hclause, (List.getElem?_eq_some_iff.mp hgoal).1, hat,
      List.mem_of_getElem? hgoal, hu, rfl, hpass⟩

/-- What was bound before an attempt that succeeds is bound after it. -/
theorem attempt_agrees (ready : plan.Ready) {f f' : Frame} {depth : Nat} {h : Handle}
    (hdepth : depth < plan.order.length) (ha : Search.attempt g plan f depth h = (true, f')) :
    f.Agrees f'.binding? := by
  obtain ⟨clause, goal, f₁, -, -, -, -, hu, rfl, -⟩ := attempt_eq_true ready hdepth ha
  have binds := Graph.binds_unify (g := g) plan.slots goal f h
  rw [hu] at binds
  exact fun i b hb => binds.mono hb

/-- To unify the goal of the next depth with an atom puts the atom in its place. -/
theorem Placed.unify (ready : plan.Ready) {f f₁ : Frame} {hs : List Handle} {h : Handle}
    {clause : Nat} {goal : Goal} (placed : Placed g plan f hs)
    (hclause : plan.order[hs.length]? = some clause) (hlt : clause < plan.goals.length)
    (hat : plan.goalAt? hs.length = some goal) (hmem : goal ∈ plan.goals)
    (hu : g.unify plan.slots f goal h = (true, f₁)) :
    Placed g plan (f₁.ground clause h) (hs ++ [h]) := by
  have binds := Graph.binds_unify (g := g) plan.slots goal f h
  rw [hu] at binds
  have hsize : ∀ i, goal.Mentions i → i < f.bindings.size := by
    intro i hi
    rw [placed.bindings]
    exact (ready.mentions i).mpr ⟨goal, hmem, hi⟩
  obtain ⟨hgoal, hadds⟩ := Graph.unify_sound goal hsize hu
  exact {
    bindings := binds.size.trans placed.bindings
    groundings := by
      show (f₁.groundings.setIfInBounds clause (some h)).size = _
      rw [Array.size_setIfInBounds, binds.groundings, placed.groundings]
    grounding := by
      intro e c hc
      rw [Frame.grounding?_ground, binds.groundings, placed.groundings]
      by_cases he : e = hs.length
      · rw [he, hclause, Option.some.injEq] at hc
        rw [if_pos ⟨hc, hlt⟩, he, List.getElem?_concat_length]
      · -- another depth has another clause
        have hne : clause ≠ c := by
          rintro rfl
          have hinj := (List.getElem?_inj (List.getElem?_eq_some_iff.mp hc).1 ready.nodup).mp
            (hc.trans hclause.symm)
          exact he hinj
        rw [if_neg (fun hboth => hne hboth.1), Frame.grounding?, binds.groundings]
        have before := placed.grounding e c hc
        rw [Frame.grounding?] at before
        rw [before]
        rcases Nat.lt_or_gt_of_ne he with hlt' | hgt
        · rw [List.getElem?_append_left hlt']
        · rw [List.getElem?_eq_none (by omega), List.getElem?_eq_none (by simp; omega)]
    holds := by
      intro e x a hx ha
      -- what held at the depths before holds still, and at this depth the goal was unified
      rcases Nat.lt_trichotomy e hs.length with hlt' | rfl | hgt
      · rw [List.getElem?_append_left hlt'] at ha
        exact Goal.Holds.mono (fun i b hb => binds.mono hb) x (placed.holds e x a hx ha)
      · rw [hat, Option.some.injEq] at hx
        rw [List.getElem?_concat_length, Option.some.injEq] at ha
        rw [← hx, ← ha]
        exact hgoal
      · rw [List.getElem?_eq_none (by simp; omega)] at ha
        cases ha
    suits := by
      intro i a hb
      rcases hadds i a hb with hb | ⟨-, hs⟩
      · exact placed.suits i a hb
      · exact hs }

namespace Reached

variable {f f' F : Frame} {hs hs' : List Handle}

/-- **An attempt that succeeds** leads one place further. -/
theorem attempt (ready : plan.Ready) (h : Reached g plan f hs)
    (hdepth : hs.length < plan.order.length) {a : Handle}
    (ha : Search.attempt g plan f hs.length a = (true, f')) :
    Reached g plan f' (hs ++ [a]) := by
  obtain ⟨clause, goal, f₁, hclause, hlt, hat, hmem, hu, rfl, hpass⟩ :=
    attempt_eq_true ready hdepth ha
  have binds := Graph.binds_unify (g := g) plan.slots goal f a
  rw [hu] at binds
  have placed := h.toPlaced.unify ready hclause hlt hat hmem hu
  refine ⟨placed, ?_⟩
  intro check hcheck hr
  rw [List.length_append, List.length_singleton] at hr
  rcases Nat.lt_succ_iff_lt_or_eq.mp hr with hr | hr
  · -- it has passed before
    rw [← h.toPlaced.passes_eq ready placed (List.prefix_append _ _)
      (fun i b hb => binds.mono hb) hcheck hr]
    exact h.checks check hcheck hr
  · have hdue := (ready.mem_checksDue hdepth).mpr ⟨hcheck, hr⟩
    exact List.all_eq_true.mp hpass check hdue

/-- **On the way to a frame** that is reached at the end, the atom of the next place is tried, and
the attempt succeeds. -/
theorem attempt_toward (ready : plan.Ready) (hg : g.Covered) (ht : g.types.WellFormed)
    (declared : ∀ s ∈ plan.slots, ∀ type, s.type = some type → g.types.contains type)
    (h : Reached g plan f hs) (h' : Reached g plan F hs')
    (full : hs'.length = plan.order.length) (stored : ∀ a ∈ hs', g.contains a) {a : Handle}
    (ahead : hs ++ [a] <+: hs') (agrees : f.Agrees F.binding?) :
    a ∈ Search.candidatesAt g plan f hs.length ∧
      ∃ f', Search.attempt g plan f hs.length a = (true, f') ∧ f'.Agrees F.binding? := by
  have hdepth : hs.length < plan.order.length := by
    have := ahead.length_le
    rw [List.length_append, List.length_singleton] at this
    omega
  obtain ⟨clause, goal, hclause, hgoal, hat⟩ := ready.exists_goalAt? hdepth
  have ha : hs'[hs.length]? = some a := by
    obtain ⟨more, rfl⟩ := ahead
    simp
  have hholds : goal.Holds g F.binding? a := h'.holds hs.length goal a hat ha
  have suits : ∀ i b, goal.Mentions i → F.binding? i = some b → g.Suits plan.slots i b :=
    fun i b _ hb => h'.suits i b hb
  constructor
  · rw [Search.candidatesAt, hat]
    exact Graph.mem_candidates hg ht declared agrees suits hholds
      (stored a (List.mem_of_getElem? ha))
  · obtain ⟨f₁, hu, hagrees⟩ := Graph.unify_complete goal agrees suits hholds
    -- a check that is due sees what it will see at the end, where it passes
    have placed := h.toPlaced.unify ready hclause (List.getElem?_eq_some_iff.mp hgoal).1 hat
      (List.mem_of_getElem? hgoal) hu
    have hpass : plan.checksPass g (f₁.ground clause a) hs.length = true := by
      rw [checksPass, List.all_eq_true]
      intro check hdue
      obtain ⟨hcheck, hr⟩ := (ready.mem_checksDue hdepth).mp hdue
      have hr' : readyAt plan.goals plan.order check < (hs ++ [a]).length := by
        rw [hr, List.length_append]
        exact Nat.lt_succ_self _
      rw [placed.passes_eq ready h'.toPlaced ahead hagrees hcheck hr']
      exact h'.checks check hcheck (by omega)
    refine ⟨f₁.ground clause a, ?_, hagrees⟩
    rw [Search.attempt_eq hclause hat, hu]
    dsimp only
    rw [hpass]

end Reached

end Plan

end TypedHypergraph
