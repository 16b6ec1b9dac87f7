/-
# Removing single atoms

A link *refers* to its members (`Graph.Refers`).  Members are stored and older than the link, so
that no chain of links leads back to where it began.  An atom can be removed exactly if no link
refers to it; otherwise the refusal names the links that do, oldest first.

What a removal leaves is described by `Graph.Loses`: some atoms are gone, from the graph and from
the entries of the incidence, and nothing else is different.  The description can be put together
from removals one after the other (`Loses.trans`).
-/
import TypedHypergraph.Proofs.IndexCoherence

namespace TypedHypergraph

namespace Graph

variable {digest : Content → UInt64} {g g' : Graph digest}

/-! ## Referring -/

/-- A stored link has an atom among its members. -/
def Refers (g : Graph digest) (link m : Handle) : Prop :=
  ∃ c, g.content? link = some c ∧ m ∈ c.members

/-- What refers to a member is stored. -/
theorem contains_of_refers {link m : Handle} (h : g.Refers link m) : g.contains link := by
  obtain ⟨c, hc, -⟩ := h
  exact contains_of_content? hc

/-- The links that refer to an atom, oldest first. -/
def referrers (g : Graph digest) (h : Handle) : List Handle := g.scan fun c => h ∈ c.members

/-- The referrers of an atom are the links that refer to it. -/
theorem mem_referrers {link h : Handle} : link ∈ g.referrers h ↔ g.Refers link h := by
  rw [referrers, mem_scan, Refers]
  simp only [decide_eq_true_eq]

/-- Referrers are listed in ascending order. -/
theorem ascending_referrers (h : Handle) : (g.referrers h).Pairwise (· < ·) := ascending_scan _

/-- An atom has no referrers exactly if no link refers to it. -/
theorem referrers_eq_nil {h : Handle} : g.referrers h = [] ↔ ∀ link, ¬ g.Refers link h := by
  simp only [List.eq_nil_iff_forall_not_mem, mem_referrers]

namespace Coherent

/-- A link is younger than the atoms that it refers to, and these are stored. -/
theorem of_refers (hg : g.Coherent) {link m : Handle} (h : g.Refers link m) :
    g.contains m ∧ m < link := by
  obtain ⟨c, hc, hm⟩ := h
  exact hg.member link c hc m hm

/-- A chain of links leads from younger atoms to older ones. -/
theorem lt_of_chain (hg : g.Coherent) {link m : Handle} (h : Relation.TransGen g.Refers link m) :
    m < link := by
  induction h with
  | single hlast => exact (hg.of_refers hlast).2
  | tail _ hlast ih => exact Nat.lt_trans (hg.of_refers hlast).2 ih

/-- In a coherent graph the links over a stored atom are its referrers. -/
theorem get?_stored (hg : g.Coherent) {h : Handle} (stored : g.contains h) :
    g.incidence.get? h = some (g.referrers h) := by
  rw [hg.incidence_eq, if_pos stored]
  rfl

/-- The entry of an atom to which no link refers is empty. -/
theorem get?_free (hg : g.Coherent) {h : Handle} (stored : g.contains h)
    (free : ∀ link, ¬ g.Refers link h) : g.incidence.get? h = some [] := by
  rw [hg.get?_stored stored, referrers_eq_nil.mpr free]

/-- In a coherent graph the incoming links of an atom are its referrers, if it is stored. -/
theorem incoming_eq (hg : g.Coherent) (h : Handle) :
    g.incoming h = if g.contains h then .ok (g.referrers h) else .error (.notFound h) := by
  rw [incoming, hg.incidence_eq]
  by_cases stored : g.contains h
  · rw [if_pos stored, if_pos stored]
    rfl
  · rw [if_neg stored, if_neg stored]

end Coherent

/-! ## What is lost -/

/-- Some atoms are gone.  Every other atom has the content and the truth value that it had, its
entry of the incidence has lost the links that are gone, and the types and the supply of handles
are the same. -/
structure Loses (g : Graph digest) (gone : List Handle) (g' : Graph digest) : Prop where
  atoms : ∀ h : Handle, g'.atoms[h]? = if h ∈ gone then none else g.atoms[h]?
  incoming : ∀ h : Handle, h ∉ gone →
    g'.incoming h = (g.incoming h).map fun links => links.filter (· ∉ gone)
  types : g'.types = g.types
  nextHandle : g'.nextHandle = g.nextHandle

namespace Loses

variable {gone gone' : List Handle} {g'' : Graph digest}

theorem refl (g : Graph digest) : g.Loses [] g where
  atoms h := by simp
  incoming h _ := by cases g.incoming h <;> simp [Except.map]
  types := rfl
  nextHandle := rfl

theorem trans (first : g.Loses gone g') (second : g'.Loses gone' g'') :
    g.Loses (gone ++ gone') g'' where
  atoms h := by
    rw [second.atoms, first.atoms]
    by_cases hg : h ∈ gone <;> by_cases hg' : h ∈ gone' <;> simp [hg, hg']
  incoming h hh := by
    rw [List.mem_append, not_or] at hh
    rw [second.incoming h hh.2, first.incoming h hh.1]
    cases g.incoming h with
    | error refusal => rfl
    | ok links =>
      simp only [Except.map, List.filter_filter, List.mem_append, not_or, Bool.decide_and]
      simp only [Bool.and_comm]
  types := second.types.trans first.types
  nextHandle := second.nextHandle.trans first.nextHandle

/-- The lost atoms have no content, and the others keep theirs. -/
theorem content? (lost : g.Loses gone g') (h : Handle) :
    g'.content? h = if h ∈ gone then none else g.content? h := by
  rw [Graph.content?, lost.atoms, Graph.content?]
  split <;> rfl

/-- What is left is what was stored and not lost. -/
theorem contains (lost : g.Loses gone g') (h : Handle) :
    g'.contains h ↔ g.contains h ∧ h ∉ gone := by
  rw [contains_iff, contains_iff, lost.content?]
  split <;> simp [*]

/-- Of the links only those that are left refer to anything. -/
theorem refers (lost : g.Loses gone g') (link m : Handle) :
    g'.Refers link m ↔ g.Refers link m ∧ link ∉ gone := by
  rw [Refers, Refers, lost.content?]
  split <;> simp [*]

end Loses

/-! ## Dropping and removing -/

/-- **Dropping** an atom that no link refers to takes nothing else away. -/
theorem Coherent.loses_drop (hg : g.Coherent) {h : Handle} {c : Content}
    (stored : g.content? h = some c) (free : g.incidence.get? h = some []) :
    g.Loses [h] (g.drop h c) where
  atoms x := by
    rw [Graph.drop, Std.TreeMap.getElem?_erase]
    simp only [Std.compare_eq_iff_eq, List.mem_singleton, eq_comm (a := h)]
  incoming x hx := by
    rw [List.mem_singleton] at hx
    have kept : (g.drop h c).contains x ↔ g.contains x := by
      rw [contains_drop]
      exact and_iff_left (Ne.symm hx)
    rw [(hg.drop stored free).incoming_eq, hg.incoming_eq]
    by_cases hc : g.contains x
    · rw [if_pos hc, if_pos (kept.mpr hc), Except.map, Except.ok.injEq]
      apply ascending_ext (ascending_referrers x) ((ascending_referrers x).filter _)
      intro link
      rw [List.mem_filter, mem_referrers, mem_referrers, Refers, exists_drop, decide_eq_true_eq,
        List.mem_singleton, eq_comm (a := h)]
      rfl
    · rw [if_neg hc, if_neg (kept.not.mpr hc)]
      rfl
  types := rfl
  nextHandle := rfl

/-- An atom to which no link refers is removed. -/
theorem Coherent.remove_free (hg : g.Coherent) {h : Handle} {c : Content}
    (stored : g.content? h = some c) (free : ∀ link, ¬ g.Refers link h) :
    remove h g = .ok ⟨h, c⟩ (g.drop h c) ∧ g.Loses [h] (g.drop h c) := by
  have entry := hg.get?_free (contains_of_content? stored) free
  refine ⟨?_, hg.loses_drop stored entry⟩
  simp only [remove, entry, stored]

/-- An atom to which a link refers is not removed. -/
theorem Coherent.remove_referred (hg : g.Coherent) {link h : Handle} (referred : g.Refers link h) :
    remove h g = .error (.stillReferenced h (g.referrers h)) g := by
  have entry := hg.get?_stored (hg.of_refers referred).1
  have listed : link ∈ g.referrers h := mem_referrers.mpr referred
  cases hr : g.referrers h with
  | nil => simp [hr] at listed
  | cons first more =>
    rw [hr] at entry
    simp only [remove, entry]

/-! ## Referential integrity -/

/-- Links refer to older stored atoms only, and an atom is removed exactly if no link refers
to it. -/
structure ReferentiallyIntact (g : Graph digest) : Prop where
  member : ∀ link m : Handle, g.Refers link m → g.contains m ∧ m < link
  acyclic : ∀ h : Handle, ¬ Relation.TransGen g.Refers h h
  removable : ∀ h : Handle, g.contains h →
    ((∃ atom g', remove h g = .ok atom g') ↔ ∀ link, ¬ g.Refers link h)
  refused : ∀ (h : Handle) (refusal : Refusal) (g' : Graph digest), g.contains h →
    remove h g = .error refusal g' →
      g' = g ∧ ∃ links : List Handle, refusal = .stillReferenced h links ∧
        links.Pairwise (· < ·) ∧ ∀ link, link ∈ links ↔ g.Refers link h
  removed : ∀ (h : Handle) (atom : Atom) (g' : Graph digest), g.contains h →
    remove h g = .ok atom g' → g.atom h = .ok atom ∧ g.Loses [h] g'

/-- **Referential integrity** holds in every coherent graph. -/
theorem Coherent.referentiallyIntact (hg : g.Coherent) : g.ReferentiallyIntact where
  member link m h := hg.of_refers h
  acyclic h chain := absurd (hg.lt_of_chain chain) (Nat.lt_irrefl _)
  removable h stored := by
    obtain ⟨c, hc⟩ := (g.contains_iff h).mp stored
    constructor
    · rintro ⟨atom, g', removed⟩ link referred
      rw [hg.remove_referred referred] at removed
      cases removed
    · intro free
      exact ⟨_, _, (hg.remove_free hc free).1⟩
  refused h refusal g' stored refused := by
    obtain ⟨c, hc⟩ := (g.contains_iff h).mp stored
    by_cases free : ∀ link, ¬ g.Refers link h
    · rw [(hg.remove_free hc free).1] at refused
      cases refused
    · push Not at free
      obtain ⟨link, referred⟩ := free
      rw [hg.remove_referred referred] at refused
      cases refused
      exact ⟨rfl, _, rfl, ascending_referrers h, fun _ => mem_referrers⟩
  removed h atom g' stored removed := by
    obtain ⟨c, hc⟩ := (g.contains_iff h).mp stored
    by_cases free : ∀ link, ¬ g.Refers link h
    · obtain ⟨accepted, lost⟩ := hg.remove_free hc free
      rw [accepted] at removed
      cases removed
      exact ⟨by rw [Graph.atom, hc], lost⟩
    · push Not at free
      obtain ⟨link, referred⟩ := free
      rw [hg.remove_referred referred] at removed
      cases removed

/-- **Every reachable graph is referentially intact** as long as there are handles left, whatever
was inserted, removed or refused before. -/
theorem Reachable.referentialIntegrity (hg : g.Reachable)
    (room : g.HandlesLeft) : g.ReferentiallyIntact :=
  (hg.coherent room).referentiallyIntact

/-- A graph in which links share members and one is a member itself, after a removal that was
refused and one that was not. -/
theorem referentialIntegrity_of_shared_members :
    let g := (empty : Graph fun _ => 0).run
      [.addNode "Node" "a", .addNode "Node" "b", .addLink "Link" [⟨0⟩, ⟨1⟩, ⟨0⟩],
        .addLink "Link" [⟨2⟩, ⟨0⟩], .addLink "Link" [⟨3⟩], .remove ⟨2⟩, .remove ⟨4⟩]
    g.HandlesLeft ∧ g.handles = [⟨0⟩, ⟨1⟩, ⟨2⟩, ⟨3⟩] ∧
      g.referrers ⟨0⟩ = [⟨2⟩, ⟨3⟩] ∧ g.referrers ⟨3⟩ = [] ∧ g.ReferentiallyIntact :=
  ⟨by decide +kernel, by decide +kernel, by decide +kernel, by decide +kernel,
    Reachable.referentialIntegrity ⟨_, rfl⟩ (by decide +kernel)⟩

end Graph

end TypedHypergraph
