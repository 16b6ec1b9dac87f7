/-
# Nothing is missing from the indices

The half of coherence that does not depend on the supply of handles: the members of what is stored
are stored, no content is stored twice, and the indices find whatever is stored
(`Graph.Covered`).

When the supply is used up, the last handle is given out again and again.  The indices may then
tell of atoms that are no more, but nothing that is stored is ever missing from them, so that every
reachable graph is covered (`Reachable.covered`).
-/
import TypedHypergraph.Proofs.Indices
import TypedHypergraph.Proofs.Run

namespace TypedHypergraph

namespace Graph

variable {digest : Content → UInt64} {g : Graph digest}

/-- The indices find whatever is stored, and links are over stored atoms. -/
structure Covered (g : Graph digest) : Prop where
  member : ∀ (h : Handle) (c : Content), g.content? h = some c → ∀ m ∈ c.members, g.contains m
  unique : ∀ (h h' : Handle) (c : Content), g.content? h = some c → g.content? h' = some c → h = h'
  byType : ∀ (h : Handle) (c : Content), g.content? h = some c → g.byType.contains c.type h
  byDigest : ∀ (h : Handle) (c : Content),
    g.content? h = some c → h ∈ g.byDigest.candidates (digest c)
  entry : ∀ h : Handle, g.contains h → g.incidence.contains h
  lists : ∀ (link m : Handle) (c : Content),
    g.content? link = some c → m ∈ c.members → g.incidence.Lists link m

/-- In the empty graph no handle has a content. -/
theorem content?_empty (h : Handle) : (empty : Graph digest).content? h = none := by
  simp [content?, empty]

/-- In the graph without atoms there is nothing to find. -/
theorem covered_empty : (empty : Graph digest).Covered where
  member h c hc := by simp [content?_empty] at hc
  unique h h' c hc := by simp [content?_empty] at hc
  byType h c hc := by simp [content?_empty] at hc
  byDigest h c hc := by simp [content?_empty] at hc
  entry h hc := by simp [contains, empty] at hc
  lists link m c hc := by simp [content?_empty] at hc

/-! ## Atoms after a drop and after an append -/

/-- The contents after a drop are those before, except for one. -/
theorem content?_drop_eq_some {h x : Handle} {c c' : Content} :
    (g.drop h c).content? x = some c' ↔ g.content? x = some c' ∧ ¬ h = x := by
  rw [content?_drop]
  split <;> simp [*]

/-- After an atom was dropped, contents stand where they stood, except for that of the atom. -/
theorem exists_drop (h : Handle) (c : Content) (P : Content → Prop) (x : Handle) :
    (∃ c', (g.drop h c).content? x = some c' ∧ P c') ↔
      (∃ c', g.content? x = some c' ∧ P c') ∧ ¬ h = x := by
  simp only [content?_drop_eq_some]
  tauto

/-- Dropping an atom takes its handle away and no other. -/
theorem contains_drop (h : Handle) (c : Content) (x : Handle) :
    (g.drop h c).contains x ↔ g.contains x ∧ ¬ h = x := by
  have anything := exists_drop (g := g) h c (fun _ => True) x
  simpa [contains_iff] using anything

/-- Appending an atom adds its handle and no other. -/
theorem contains_append (c : Content) (x : Handle) :
    (g.append c).contains x ↔ ⟨g.nextHandle⟩ = x ∨ g.contains x := by
  rw [contains_iff, contains_iff, content?_append]
  split <;> simp [*]

/-- Truth values do not matter for what is stored. -/
theorem contains_setTruth (h : Handle) (value : Option Truth) (x : Handle) :
    (g.setTruth h value).contains x ↔ g.contains x := by
  rw [contains_iff, contains_iff, content?_setTruth]

namespace Covered

/-! ## Reading a covered graph -/

/-- **A look-up by content** finds the atom that has it, whatever the digests are. -/
theorem lookup_iff (hg : g.Covered) {c : Content} {h : Handle} :
    g.lookup c = some h ↔ g.content? h = some c := by
  constructor
  · exact content?_of_lookup
  · intro hc
    have found : (g.lookup c).isSome := by
      rw [lookup, List.find?_isSome]
      exact ⟨h, hg.byDigest h c hc, by simpa using hc⟩
    obtain ⟨h', hl⟩ := Option.isSome_iff_exists.mp found
    rw [hl, hg.unique h' h c (content?_of_lookup hl) hc]

/-- Looking a content up finds nothing exactly if no atom has it. -/
theorem lookup_eq_none_iff (hg : g.Covered) {c : Content} :
    g.lookup c = none ↔ ∀ h, g.content? h ≠ some c := by
  rw [Option.eq_none_iff_forall_ne_some]
  exact forall_congr' fun h => not_congr hg.lookup_iff

/-- The entry of a member lists the links that contain it. -/
theorem mem_incident (hg : g.Covered) {h link : Handle} {c : Content} {links : List Handle}
    (hc : g.content? link = some c) (hm : h ∈ c.members) (hl : g.incidence.get? h = some links) :
    link ∈ links := by
  have listed := hg.lists link h c hc hm
  rwa [Incidence.Lists, hl] at listed

/-! ## Keeping a graph covered -/

/-- The declaration of types keeps a graph covered by its indices. -/
theorem declare (hg : g.Covered) (types : TypeTree) :
    Covered ({ g with types } : Graph digest) where
  member := hg.member
  unique := hg.unique
  byType := hg.byType
  byDigest := hg.byDigest
  entry := hg.entry
  lists := hg.lists

/-- A change of a truth value keeps a graph covered by its indices. -/
theorem setTruth (hg : g.Covered) (h : Handle) (value : Option Truth) :
    (g.setTruth h value).Covered where
  member x c hc m hm := by
    rw [content?_setTruth] at hc
    exact (contains_setTruth h value m).mpr (hg.member x c hc m hm)
  unique x x' c hc hc' := by
    rw [content?_setTruth] at hc hc'
    exact hg.unique x x' c hc hc'
  byType x c hc := by
    rw [content?_setTruth] at hc
    exact hg.byType x c hc
  byDigest x c hc := by
    rw [content?_setTruth] at hc
    exact hg.byDigest x c hc
  entry x hx := hg.entry x ((contains_setTruth h value x).mp hx)
  lists link m c hc hm := by
    rw [content?_setTruth] at hc
    exact hg.lists link m c hc hm

/-- **Appending** a content that is not stored yet, and whose members are stored, keeps a graph
covered, also if the next handle has been given out before. -/
theorem append (hg : g.Covered) {c : Content} (fresh : ∀ h, g.content? h ≠ some c)
    (stored : ∀ m ∈ c.members, g.contains m) : (g.append c).Covered where
  member x c' hc m hm := by
    rw [contains_append]
    rw [content?_append] at hc
    split at hc
    · cases hc
      exact .inr (stored m hm)
    · exact .inr (hg.member x c' hc m hm)
  unique x x' c' hc hc' := by
    rw [content?_append] at hc hc'
    -- two atoms with one content are both new or both old
    split at hc <;> split at hc'
    · rename_i hx hx'
      rw [← hx, ← hx']
    · cases hc
      exact absurd hc' (fresh x')
    · cases hc'
      exact absurd hc (fresh x)
    · exact hg.unique x x' c' hc hc'
  byType x c' hc := by
    rw [content?_append] at hc
    rw [Graph.append, TypeBuckets.contains_insert]
    split at hc
    · rename_i hx
      cases hc
      exact .inl ⟨rfl, hx⟩
    · exact .inr (hg.byType x c' hc)
  byDigest x c' hc := by
    rw [content?_append] at hc
    rw [Graph.append, DigestBuckets.mem_candidates_insert]
    split at hc
    · rename_i hx
      cases hc
      exact .inl ⟨rfl, hx⟩
    · exact .inr (hg.byDigest x c' hc)
  entry x hx := by
    rw [Graph.append, Incidence.contains_addLink, Incidence.contains_register]
    exact .inr (((contains_append c x).mp hx).imp_right (hg.entry x))
  lists link m c' hc hm := by
    rw [content?_append] at hc
    rw [Graph.append, Incidence.lists_addLink, Incidence.lists_register]
    split at hc
    · rename_i hx
      cases hc
      exact .inl ⟨hx, hm⟩
    · exact .inr (hg.lists link m c' hc hm)

/-- Interning an accepted content keeps a graph covered by its indices. -/
theorem intern (hg : g.Covered) {c : Content} (accepted : g.checkContent c = .ok ()) :
    (g.intern c).2.Covered := by
  cases hl : g.lookup c with
  | some h =>
    rw [intern_of_found hl]
    exact hg
  | none =>
    rw [intern_of_new hl]
    exact hg.append (hg.lookup_eq_none_iff.mp hl) (contains_of_checkContent accepted)

/-- **Dropping** an atom whose entry is empty keeps a graph covered: a link over the atom would be
in the entry. -/
theorem drop (hg : g.Covered) {h : Handle} (c : Content) (free : g.incidence.get? h = some []) :
    (g.drop h c).Covered := by
  have unused : ∀ {x c' m}, g.content? x = some c' → m ∈ c'.members → ¬ h = m := by
    rintro x c' m hx hm rfl
    have listed := hg.mem_incident hx hm free
    simp at listed
  exact {
    member := by
      intro x c' hc m hm
      have hx := (content?_drop_eq_some.mp hc).1
      rw [contains_drop]
      exact ⟨hg.member x c' hx m hm, unused hx hm⟩
    unique := by
      intro x x' c' hc hc'
      rw [content?_drop_eq_some] at hc hc'
      exact hg.unique x x' c' hc.1 hc'.1
    byType := by
      intro x c' hc
      obtain ⟨hx, hne⟩ := content?_drop_eq_some.mp hc
      rw [Graph.drop, TypeBuckets.contains_erase]
      exact ⟨hg.byType x c' hx, fun hboth => hne hboth.2⟩
    byDigest := by
      intro x c' hc
      obtain ⟨hx, hne⟩ := content?_drop_eq_some.mp hc
      rw [Graph.drop, DigestBuckets.mem_candidates_erase]
      exact ⟨hg.byDigest x c' hx, fun hboth => hne hboth.2⟩
    entry := by
      intro x hx
      rw [contains_drop] at hx
      rw [Graph.drop, Incidence.contains_unregister, Incidence.contains_removeLink]
      exact ⟨hg.entry x hx.1, hx.2⟩
    lists := by
      intro link m c' hc hm
      obtain ⟨hx, hne⟩ := content?_drop_eq_some.mp hc
      rw [Graph.drop, Incidence.lists_unregister, Incidence.lists_removeLink]
      exact ⟨⟨hg.lists link m c' hx hm, fun hboth => hne hboth.1⟩, unused hx hm⟩ }

/-- **An elementary change** keeps a graph covered. -/
theorem change {g' : Graph digest} (h : Change g g') (hg : g.Covered) : g'.Covered := by
  cases h with
  | declare _ => exact hg.declare _
  | intern accepted => exact hg.intern accepted
  | drop _ free => exact hg.drop _ free
  | setTruth _ value => exact hg.setTruth _ value

end Covered

/-- **Every reachable graph** is covered, whether there are handles left or not. -/
theorem Reachable.covered (hg : g.Reachable) : g.Covered :=
  hg.changes.invariant (fun _ _ hstep => Covered.change hstep) covered_empty

end Graph

end TypedHypergraph
