/-
# Candidates

The atoms that are tried for a goal come in ascending order (`Graph.ascending_candidates`), and
every atom of which the goal can hold is among them (`Graph.mem_candidates`), whichever index they
are taken from.  As long as there are handles left, all of them are stored
(`Graph.Coherent.contains_of_mem_candidates`).
-/
import TypedHypergraph.Proofs.TypeReads
import TypedHypergraph.Proofs.Unifying
import TypedHypergraph.Search.Candidates

namespace TypedHypergraph

namespace Graph

variable {digest : Content → UInt64} {g : Graph digest} {slots : List Slot} {f : Frame}

/-! ## Order -/

/-- The shortest of some lists is one of them. -/
theorem fewest_mem {lists : List (List Handle)} {least : List Handle}
    (h : fewest lists = some least) : least ∈ lists := by
  cases lists with
  | nil => cases h
  | cons first rest =>
    rw [fewest, Option.some.injEq] at h
    rw [← h]
    apply List.foldlRecOn (motive := (· ∈ first :: rest)) rest _ List.mem_cons_self
    intro least hleast l hl
    split
    · exact List.mem_cons_of_mem _ hl
    · exact hleast

/-- What the index by member hands out for known members are ascending lists. -/
theorem ascending_of_mapM_get? {known : List Handle} {lists : List (List Handle)}
    (h : known.mapM g.incidence.get? = some lists) {links : List Handle} (hl : links ∈ lists) :
    links.Pairwise (· < ·) := by
  obtain ⟨m, -, hm⟩ := Guards.exists_of_forall₂ (Guards.mapM_eq_some.mp h) hl
  exact Incidence.ascending_get? hm

/-- **Candidates** are tried in ascending order. -/
theorem ascending_candidates (goal : Goal) :
    (g.candidates slots f goal).Pairwise (· < ·) := by
  cases goal with
  | ground m =>
    rw [candidates]
    split
    · exact List.pairwise_singleton _ _
    · exact List.Pairwise.nil
  | slot i =>
    rw [candidates]
    cases f.binding? i with
    | some bound => exact List.pairwise_singleton _ _
    | none =>
      cases slots[i]?.bind (·.type) with
      | some type => exact ascending_handlesOfType type true
      | none => exact ascending_handles
  | link type goals =>
    rw [candidates]
    cases hk : (goals.filterMap (Goal.known? f)).mapM g.incidence.get? with
    | none => exact List.Pairwise.nil
    | some known =>
      apply List.Pairwise.filter
      cases hleast : fewest known with
      | none => exact ascending_handlesOfType type false
      | some least => exact ascending_of_mapM_get? hk (fewest_mem hleast)

/-! ## Completeness -/

/-- A member of a goal that is known is the member of the atom at its place. -/
theorem mem_of_known {values : Nat → Option Handle} (hf : f.Agrees values) {goals : List Goal}
    {hs : List Handle} (hall : Goal.HoldAll g values goals hs) {m : Handle}
    (hm : m ∈ goals.filterMap (Goal.known? f)) : m ∈ hs := by
  induction goals generalizing hs with
  | nil => cases hm
  | cons goal goals ih =>
    rw [Goal.HoldAll] at hall
    obtain ⟨h, more, hgoal, hrest, rfl⟩ := hall
    obtain ⟨x, hx, hknown⟩ := List.mem_filterMap.mp hm
    rcases List.mem_cons.mp hx with rfl | hx
    · have heq : m = h := by
        cases x with
        | ground a =>
          rw [Goal.Holds] at hgoal
          cases hknown
          exact hgoal
        | slot i =>
          rw [Goal.Holds] at hgoal
          have hv := hf i m hknown
          rw [hgoal, Option.some.injEq] at hv
          exact hv.symm
        | link type goals => cases hknown
      rw [heq]
      exact List.mem_cons_self
    · exact List.mem_cons_of_mem _ (ih hrest (List.mem_filterMap.mpr ⟨x, hx, hknown⟩))

/-- The links of members of a stored link are known, and it is among them. -/
theorem mapM_get?_of_link (hg : g.Covered) {h : Handle} {type : TypeId} {hs : List Handle}
    (hc : g.content? h = some (.link type hs)) {known : List Handle}
    (sub : ∀ m ∈ known, m ∈ hs) :
    ∃ lists, known.mapM g.incidence.get? = some lists ∧ ∀ links ∈ lists, h ∈ links := by
  induction known with
  | nil => exact ⟨[], by rw [List.mapM_nil]; rfl, by simp⟩
  | cons m known ih =>
    rw [List.forall_mem_cons] at sub
    obtain ⟨lists, hlists, hall⟩ := ih sub.2
    have stored : g.contains m := hg.member h _ hc m sub.1
    obtain ⟨links, hl⟩ := (Incidence.contains_iff_get? _ _).mp (hg.entry m stored)
    have hin : h ∈ links := hg.mem_incident hc sub.1 hl
    refine ⟨links :: lists, ?_, ?_⟩
    · rw [List.mapM_cons, hl, hlists]
      rfl
    · rw [List.forall_mem_cons]
      exact ⟨hin, hall⟩

/-- **Candidates are complete**: a stored atom of which a goal holds, for atoms of the slots that
suit them and agree with what is bound, is tried. -/
theorem mem_candidates (hg : g.Covered) (ht : g.types.WellFormed)
    (declared : ∀ s ∈ slots, ∀ type, s.type = some type → g.types.contains type)
    {values : Nat → Option Handle} (hf : f.Agrees values) {goal : Goal} {h : Handle}
    (suits : ∀ i a, goal.Mentions i → values i = some a → g.Suits slots i a)
    (hh : goal.Holds g values h) (stored : g.contains h) : h ∈ g.candidates slots f goal := by
  cases goal with
  | ground m =>
    rw [Goal.Holds] at hh
    rw [candidates, hh, if_pos stored]
    exact List.mem_singleton_self h
  | slot i =>
    rw [Goal.Holds] at hh
    rw [candidates]
    cases hb : f.binding? i with
    | some bound =>
      have heq := hf i bound hb
      rw [hh, Option.some.injEq] at heq
      rw [heq]
      exact List.mem_singleton_self bound
    | none =>
      -- the slot is free: all atoms of its type are tried, or all atoms if it has none
      obtain ⟨c, hc, hallows⟩ := suits i h (by rw [Goal.Mentions]) hh
      unfold allows at hallows
      cases htype : slots[i]?.bind (·.type) with
      | none => exact mem_handles.mpr stored
      | some type =>
        rw [htype] at hallows
        obtain ⟨s, hs, hst⟩ := Option.bind_eq_some_iff.mp htype
        have hdeclared := declared s (List.mem_of_getElem? hs) type hst
        exact mem_handlesOfType hg ht hdeclared hc hallows
  | link type goals =>
    rw [Goal.Holds] at hh
    obtain ⟨hs, hall, hc⟩ := hh
    obtain ⟨lists, hlists, hin⟩ := mapM_get?_of_link hg hc fun m hm => mem_of_known hf hall hm
    have shape : g.hasShape type goals.length h = true := by
      rw [hasShape, hc, ← Goal.length_of_holdAll hall]
      simp [Content.type, Content.members]
    rw [candidates, hlists]
    dsimp only
    rw [List.mem_filter]
    refine ⟨?_, shape⟩
    -- whichever list is the shortest, the link is in each of them
    cases hleast : fewest lists with
    | none => exact mem_handlesOfType_exact hg hc
    | some least => exact hin least (fewest_mem hleast)

/-! ## Soundness -/

/-- What has a shape is stored. -/
theorem contains_of_hasShape {type : TypeId} {arity : Nat} {h : Handle}
    (shape : g.hasShape type arity h = true) : g.contains h := by
  unfold hasShape at shape
  cases hc : g.content? h with
  | none =>
    rw [hc] at shape
    cases shape
  | some c => exact contains_of_content? hc

/-- A candidate is stored, if the atoms of the slots are, except perhaps where a free slot takes it
from the index by type. -/
theorem contains_of_mem_candidates (suits : ∀ i h, f.binding? i = some h → g.Suits slots i h)
    {goal : Goal} {h : Handle} (hh : h ∈ g.candidates slots f goal)
    (free : ∀ i type, goal = .slot i → f.binding? i = none → h ∈ g.handlesOfType type true →
      g.contains h) : g.contains h := by
  cases goal with
  | ground a =>
    rw [candidates] at hh
    split at hh
    · rename_i stored
      rw [List.mem_singleton.mp hh]
      exact stored
    · cases hh
  | slot i =>
    rw [candidates] at hh
    cases hb : f.binding? i with
    | some bound =>
      rw [hb] at hh
      obtain ⟨c, hc, -⟩ := suits i bound hb
      rw [List.mem_singleton.mp hh]
      exact contains_of_content? hc
    | none =>
      rw [hb] at hh
      cases ht : slots[i]?.bind (·.type) with
      | some type =>
        rw [ht] at hh
        exact free i type rfl hb hh
      | none =>
        rw [ht] at hh
        exact mem_handles.mp hh
  | link type members =>
    rw [candidates] at hh
    split at hh
    · cases hh
    · exact contains_of_hasShape (List.mem_filter.mp hh).2

/-- **Candidates are stored**, if the atoms of the slots are. -/
theorem Coherent.contains_of_mem_candidates (hg : g.Coherent)
    (suits : ∀ i h, f.binding? i = some h → g.Suits slots i h) {goal : Goal} {h : Handle}
    (hh : h ∈ g.candidates slots f goal) : g.contains h :=
  Graph.contains_of_mem_candidates suits hh fun _ _ _ _ => hg.contains_of_mem_handlesOfType

end Graph

end TypedHypergraph
