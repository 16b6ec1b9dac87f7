/-
# Coherence

The invariant of graphs: handles lie below the next one, a link is younger than its members and
these are stored, no content is stored twice, and the three indices relate exactly what the atoms
relate (`Graph.Coherent`).

Each kind of elementary change keeps it (`Coherent.change`), appending an atom as long as the
supply of handles is not used up.  Since the supply only shrinks, every graph that is reached
before its end is coherent (`Reachable.coherent`).
-/
import TypedHypergraph.Proofs.Covering

namespace TypedHypergraph

namespace Graph

variable {digest : Content → UInt64} {g : Graph digest}

/-- The atoms of a graph fit together, and its indices tell what its atoms tell. -/
structure Coherent (g : Graph digest) : Prop where
  handle_lt : ∀ h : Handle, g.contains h → h.value < g.nextHandle
  member : ∀ (h : Handle) (c : Content), g.content? h = some c →
    ∀ m ∈ c.members, g.contains m ∧ m < h
  unique : ∀ (h h' : Handle) (c : Content), g.content? h = some c → g.content? h' = some c → h = h'
  byType : ∀ (type : TypeId) (h : Handle),
    g.byType.contains type h ↔ ∃ c, g.content? h = some c ∧ c.type = type
  byType_tight : g.byType.Tight
  byDigest : ∀ (d : UInt64) (h : Handle),
    h ∈ g.byDigest.candidates d ↔ ∃ c, g.content? h = some c ∧ digest c = d
  byDigest_ascending : ∀ d : UInt64, (g.byDigest.candidates d).Pairwise (· < ·)
  byDigest_tight : g.byDigest.Tight
  entry : ∀ h : Handle, g.incidence.contains h ↔ g.contains h
  lists : ∀ link m : Handle,
    g.incidence.Lists link m ↔ ∃ c, g.content? link = some c ∧ m ∈ c.members

/-- The graph without atoms is coherent. -/
theorem coherent_empty : (empty : Graph digest).Coherent where
  handle_lt h hc := by simp [contains, empty] at hc
  member h c hc := by simp [content?_empty] at hc
  unique h h' c hc := by simp [content?_empty] at hc
  byType type h := by
    simp only [content?_empty, reduceCtorEq, false_and, exists_false, iff_false]
    exact TypeBuckets.not_contains_empty type h
  byType_tight := TypeBuckets.tight_empty
  byDigest d h := by
    simp only [content?_empty, reduceCtorEq, false_and, exists_false, iff_false]
    simp [empty, DigestBuckets.candidates_empty]
  byDigest_ascending d := by simp [empty, DigestBuckets.candidates_empty]
  byDigest_tight := DigestBuckets.tight_empty
  entry h := by simp [empty, contains, Incidence.not_contains_empty]
  lists link m := by
    simp only [content?_empty, reduceCtorEq, false_and, exists_false, iff_false]
    exact Incidence.not_lists_empty link m

namespace Coherent

/-! ## Reading a coherent graph -/

/-- Nothing is stored under the next handle. -/
theorem content?_next (hg : g.Coherent) : g.content? ⟨g.nextHandle⟩ = none := by
  cases hc : g.content? ⟨g.nextHandle⟩ with
  | none => rfl
  | some c => exact absurd (hg.handle_lt _ (contains_of_content? hc)) (lt_irrefl _)

/-- What a coherent graph stores is found in its indices. -/
theorem covered (hg : g.Coherent) : g.Covered where
  member h c hc m hm := (hg.member h c hc m hm).1
  unique := hg.unique
  byType h c hc := (hg.byType _ h).mpr ⟨c, hc, rfl⟩
  byDigest h c hc := (hg.byDigest _ h).mpr ⟨c, hc, rfl⟩
  entry h hh := (hg.entry h).mpr hh
  lists link m c hc hm := (hg.lists link m).mpr ⟨c, hc, hm⟩

/-- In a coherent graph looking a content up finds the one atom with it. -/
theorem lookup_iff (hg : g.Coherent) {c : Content} {h : Handle} :
    g.lookup c = some h ↔ g.content? h = some c := hg.covered.lookup_iff

/-- In a coherent graph looking a content up finds nothing exactly if no atom has it. -/
theorem lookup_eq_none_iff (hg : g.Coherent) {c : Content} :
    g.lookup c = none ↔ ∀ h, g.content? h ≠ some c := hg.covered.lookup_eq_none_iff

/-- The entry of a stored atom lists the links that contain it. -/
theorem mem_incident (hg : g.Coherent) {h link : Handle} {links : List Handle}
    (hl : g.incidence.get? h = some links) :
    link ∈ links ↔ ∃ c, g.content? link = some c ∧ h ∈ c.members := by
  rw [← hg.lists, Incidence.Lists, hl]
  rfl

/-! ## Keeping a graph coherent -/

/-- Declaring a type does not touch atoms and indices. -/
theorem declare (hg : g.Coherent) (types : TypeTree) :
    Coherent ({ g with types } : Graph digest) where
  handle_lt := hg.handle_lt
  member := hg.member
  unique := hg.unique
  byType := hg.byType
  byType_tight := hg.byType_tight
  byDigest := hg.byDigest
  byDigest_ascending := hg.byDigest_ascending
  byDigest_tight := hg.byDigest_tight
  entry := hg.entry
  lists := hg.lists

/-- Truth values are not indexed. -/
theorem setTruth (hg : g.Coherent) (h : Handle) (value : Option Truth) :
    (g.setTruth h value).Coherent := by
  have same := contains_setTruth (g := g) h value
  exact {
    handle_lt := fun x hx => hg.handle_lt x ((same x).mp hx)
    member := by
      intro x c hc m hm
      rw [content?_setTruth] at hc
      rw [same]
      exact hg.member x c hc m hm
    unique := by
      intro x x' c hc hc'
      rw [content?_setTruth] at hc hc'
      exact hg.unique x x' c hc hc'
    byType := by
      intro type x
      rw [content?_setTruth]
      exact hg.byType type x
    byType_tight := hg.byType_tight
    byDigest := by
      intro d x
      rw [content?_setTruth]
      exact hg.byDigest d x
    byDigest_ascending := hg.byDigest_ascending
    byDigest_tight := hg.byDigest_tight
    entry := by
      intro x
      rw [same]
      exact hg.entry x
    lists := by
      intro link m
      rw [content?_setTruth]
      exact hg.lists link m }

/-- What holds of the contents after an append is what holds of the new one and of those before. -/
theorem exists_append (hg : g.Coherent) (c : Content) (P : Content → Prop) (x : Handle) :
    (∃ c', (g.append c).content? x = some c' ∧ P c') ↔
      ⟨g.nextHandle⟩ = x ∧ P c ∨ ∃ c', g.content? x = some c' ∧ P c' := by
  rw [content?_append]
  by_cases hx : (⟨g.nextHandle⟩ : Handle) = x
  · subst hx
    simp [hg.content?_next]
  · simp [hx]

/-- **Appending** a content that is not stored yet, and whose members are stored, keeps a graph
coherent as long as the supply of handles is not used up. -/
theorem append (hg : g.Coherent) {c : Content} (fresh : ∀ h, g.content? h ≠ some c)
    (stored : ∀ m ∈ c.members, g.contains m) (room : (g.append c).HandlesLeft) :
    (g.append c).Coherent := by
  have hnext := nextHandle_append room
  exact {
    handle_lt := by
      intro x hx
      rw [hnext]
      rcases (contains_append c x).mp hx with rfl | hx
      · exact Nat.lt_succ_self _
      · exact (hg.handle_lt x hx).trans (Nat.lt_succ_self _)
    member := by
      intro x c' hc m hm
      rw [content?_append] at hc
      split at hc
      · rename_i hx
        cases hc
        rw [← hx, contains_append, Handle.lt_iff]
        exact ⟨.inr (stored m hm), hg.handle_lt m (stored m hm)⟩
      · obtain ⟨hcm, hlt⟩ := hg.member x c' hc m hm
        exact ⟨(contains_append c m).mpr (.inr hcm), hlt⟩
    unique := by
      intro x x' c' hc hc'
      rw [content?_append] at hc hc'
      -- two atoms with one content are both new or both old
      split at hc <;> split at hc'
      · rename_i hx hx'
        rw [← hx, ← hx']
      · cases hc
        exact absurd hc' (fresh x')
      · cases hc'
        exact absurd hc (fresh x)
      · exact hg.unique x x' c' hc hc'
    byType := by
      intro type x
      rw [hg.exists_append c (·.type = type), ← hg.byType, Graph.append,
        TypeBuckets.contains_insert]
      tauto
    byType_tight := hg.byType_tight.insert _ _
    byDigest := by
      intro d x
      rw [hg.exists_append c (digest · = d), ← hg.byDigest, Graph.append,
        DigestBuckets.mem_candidates_insert]
      tauto
    byDigest_ascending := by
      intro d
      apply DigestBuckets.ascending_insert (hg.byDigest_ascending d)
      intro x hx
      obtain ⟨c', hc', -⟩ := (hg.byDigest _ x).mp hx
      rw [Handle.lt_iff]
      exact hg.handle_lt x (contains_of_content? hc')
    byDigest_tight := hg.byDigest_tight.insert _ _
    entry := by
      intro x
      rw [contains_append, Graph.append, Incidence.contains_addLink, Incidence.contains_register,
        hg.entry]
      constructor
      · rintro (hx | hx | hx)
        · exact .inr (stored x hx)
        · exact .inl hx
        · exact .inr hx
      · rintro (hx | hx)
        · exact .inr (.inl hx)
        · exact .inr (.inr hx)
    lists := by
      intro link m
      rw [hg.exists_append c (m ∈ ·.members), ← hg.lists, Graph.append, Incidence.lists_addLink,
        Incidence.lists_register] }

/-- An accepted content is looked up, or appended as the content of a new atom. -/
theorem intern (hg : g.Coherent) {c : Content} (accepted : g.checkContent c = .ok ())
    (room : (g.intern c).2.HandlesLeft) : (g.intern c).2.Coherent := by
  cases hl : g.lookup c with
  | some h =>
    rw [intern_of_found hl]
    exact hg
  | none =>
    rw [intern_of_new hl] at room ⊢
    exact hg.append (hg.lookup_eq_none_iff.mp hl) (contains_of_checkContent accepted) room

/-- **Dropping** an atom that no link contains keeps a graph coherent. -/
theorem drop (hg : g.Coherent) {h : Handle} {c : Content} (stored : g.content? h = some c)
    (free : g.incidence.get? h = some []) : (g.drop h c).Coherent := by
  -- no link is listed over the atom, so no atom has it as a member
  have unused : ∀ {x c'}, g.content? x = some c' → h ∉ c'.members := by
    intro x c' hx hm
    have hnil := (hg.mem_incident free).mpr ⟨c', hx, hm⟩
    simp at hnil
  exact {
    handle_lt := fun x hx => hg.handle_lt x ((contains_drop h c x).mp hx).1
    member := by
      intro x c' hc m hm
      obtain ⟨hx, -⟩ := content?_drop_eq_some.mp hc
      obtain ⟨hcm, hlt⟩ := hg.member x c' hx m hm
      rw [contains_drop]
      refine ⟨⟨hcm, ?_⟩, hlt⟩
      rintro rfl
      exact unused hx hm
    unique := by
      intro x x' c' hc hc'
      rw [content?_drop_eq_some] at hc hc'
      exact hg.unique x x' c' hc.1 hc'.1
    byType := by
      intro type x
      rw [exists_drop h c (·.type = type), ← hg.byType, Graph.drop, TypeBuckets.contains_erase]
      constructor
      · rintro ⟨hx, hne⟩
        refine ⟨hx, ?_⟩
        rintro rfl
        obtain ⟨c', hc', ht⟩ := (hg.byType type h).mp hx
        rw [stored, Option.some.injEq] at hc'
        exact hne ⟨by rw [hc', ht], rfl⟩
      · rintro ⟨hx, hne⟩
        exact ⟨hx, fun hboth => hne hboth.2⟩
    byType_tight := hg.byType_tight.erase _ _
    byDigest := by
      intro d x
      rw [exists_drop h c (digest · = d), ← hg.byDigest, Graph.drop,
        DigestBuckets.mem_candidates_erase]
      constructor
      · rintro ⟨hx, hne⟩
        refine ⟨hx, ?_⟩
        rintro rfl
        obtain ⟨c', hc', hd⟩ := (hg.byDigest d h).mp hx
        rw [stored, Option.some.injEq] at hc'
        exact hne ⟨by rw [hc', hd], rfl⟩
      · rintro ⟨hx, hne⟩
        exact ⟨hx, fun hboth => hne hboth.2⟩
    byDigest_ascending := by
      intro d
      exact DigestBuckets.ascending_erase (hg.byDigest_ascending d) h
    byDigest_tight := hg.byDigest_tight.erase _ _
    entry := by
      intro x
      rw [contains_drop, Graph.drop, Incidence.contains_unregister, Incidence.contains_removeLink,
        hg.entry]
    lists := by
      intro link m
      rw [exists_drop h c (m ∈ ·.members), ← hg.lists, Graph.drop, Incidence.lists_unregister,
        Incidence.lists_removeLink]
      constructor
      · rintro ⟨⟨hlists, hnot⟩, -⟩
        refine ⟨hlists, ?_⟩
        rintro rfl
        obtain ⟨c', hc', hm⟩ := (hg.lists h m).mp hlists
        rw [stored, Option.some.injEq] at hc'
        exact hnot ⟨rfl, by rw [hc']; exact hm⟩
      · rintro ⟨hlists, hne⟩
        refine ⟨⟨hlists, fun hboth => hne hboth.1⟩, ?_⟩
        rintro rfl
        obtain ⟨c', hc', hm⟩ := (hg.lists link h).mp hlists
        exact unused hc' hm }

/-- **An elementary change** keeps a graph coherent while there are handles left. -/
theorem change (hg : g.Coherent) {g' : Graph digest} (h : Change g g')
    (room : g'.HandlesLeft) : g'.Coherent := by
  cases h with
  | declare _ => exact hg.declare _
  | intern accepted => exact hg.intern accepted room
  | drop stored free => exact hg.drop stored free
  | setTruth _ value => exact hg.setTruth _ value

end Coherent

/-! ## Every reachable graph -/

/-- Handles are given out in ascending order. -/
theorem nextHandle_le_of_change {g' : Graph digest} (h : Change g g')
    (room : g'.HandlesLeft) : g.nextHandle ≤ g'.nextHandle := by
  cases h with
  | declare _ => exact le_rfl
  | @intern c _ =>
    cases hl : g.lookup c with
    | some found => rw [intern_of_found hl]
    | none =>
      rw [intern_of_new hl] at room ⊢
      rw [nextHandle_append room]
      exact Nat.le_succ _
  | drop _ _ => exact le_rfl
  | setTruth _ _ => exact le_rfl

/-- Handles are given out in ascending order as long as there are any left. -/
theorem nextHandle_le_of_changes {g' : Graph digest} (h : Changes g g')
    (room : g'.HandlesLeft) : g.nextHandle ≤ g'.nextHandle := by
  induction h with
  | refl => exact le_rfl
  | tail _ hstep ih =>
    have hle := nextHandle_le_of_change hstep room
    exact (ih (hle.trans_lt room)).trans hle

/-- If there are handles left after some changes, there were before. -/
theorem room_of_changes {g' : Graph digest} (h : Changes g g')
    (room : g'.HandlesLeft) : g.HandlesLeft :=
  (nextHandle_le_of_changes h room).trans_lt room

/-- Any number of elementary changes keeps a graph coherent while there are handles left. -/
theorem Coherent.changes (hg : g.Coherent) {g' : Graph digest} (h : Changes g g')
    (room : g'.HandlesLeft) : g'.Coherent := by
  induction h with
  | refl => exact hg
  | tail _ hstep ih =>
    exact (ih (room_of_changes (.single hstep) room)).change hstep room

/-- **Every reachable graph** is coherent until the handles are used up. -/
theorem Reachable.coherent (hg : g.Reachable) (room : g.HandlesLeft) :
    g.Coherent :=
  coherent_empty.changes hg.changes room

end Graph

end TypedHypergraph
