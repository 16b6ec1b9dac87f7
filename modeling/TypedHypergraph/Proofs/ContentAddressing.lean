/-
# Atoms are named by their contents

A description of which every part is stored *denotes* an atom (`Resolved.Denotes`): a node the one
with its content, a link the one over the atoms that its members denote.  What is stored from a
description is what the description denotes from then on (`denotes_store`), and to store a
description that denotes an atom finds this atom and changes nothing (`store_of_denotes`).

An atom keeps its content as long as it is stored, and a handle is never given out again, so that
a description goes on to denote the same atom until this atom is removed.
-/
import TypedHypergraph.Proofs.Coherence
import TypedHypergraph.Proofs.Lineage

namespace TypedHypergraph

namespace Graph

variable {digest : Content → UInt64} {g g' : Graph digest}

/-! ## Contents over time -/

/-- **Handles are not used again.**  Whatever changes, under a handle that has been given out there
is nothing but what was there before. -/
theorem content?_of_later (changes : Changes g g') (room : g'.HandlesLeft)
    {h : Handle} (old : h.value < g.nextHandle) {c : Content} (hc : g'.content? h = some c) :
    g.content? h = some c := by
  induction changes with
  | refl => exact hc
  | @tail g₁ g₂ before step ih =>
    have room₁ := room_of_changes (.single step) room
    apply ih room₁
    cases step with
    | declare _ => exact hc
    | @intern c₁ _ =>
      cases hl : g₁.lookup c₁ with
      | some found =>
        rw [intern_of_found hl] at hc
        exact hc
      | none =>
        have hne : (⟨g₁.nextHandle⟩ : Handle) ≠ h := by
          have := nextHandle_le_of_changes before room₁
          rw [Ne, Handle.eq_iff]
          dsimp only
          omega
        rw [intern_of_new hl, content?_append, if_neg hne] at hc
        exact hc
    | drop _ _ => exact (content?_drop_eq_some.mp hc).1
    | setTruth _ value =>
      rw [content?_setTruth] at hc
      exact hc

/-- **Contents are kept.**  While a graph changes, an atom keeps its content until it is removed,
and its handle does not come back after that. -/
theorem content?_of_changes (hg : g.Coherent) (changes : Changes g g')
    (room : g'.HandlesLeft) {h : Handle} {c : Content}
    (hc : g.content? h = some c) (stored : g'.contains h) : g'.content? h = some c := by
  have old : h.value < g.nextHandle := hg.handle_lt h (contains_of_content? hc)
  obtain ⟨c', hc'⟩ := (g'.contains_iff h).mp stored
  rw [content?_of_later changes room old hc', Option.some.injEq] at hc
  rw [hc', hc]

/-- What has been given out and is stored later was stored all along. -/
theorem contains_of_later (changes : Changes g g') (room : g'.HandlesLeft)
    {h : Handle} (old : h.value < g.nextHandle) (stored : g'.contains h) : g.contains h := by
  obtain ⟨c, hc⟩ := (g'.contains_iff h).mp stored
  exact contains_of_content? (content?_of_later changes room old hc)

end Graph

/-! ## What a description denotes -/

section Denotes

variable {digest : Content → UInt64}

mutual

/-- An atom is what a resolved description says. -/
def Resolved.Denotes (g : Graph digest) : Resolved → Handle → Prop
  | .node type name, h => g.content? h = some (.node type name)
  | .link type members, h =>
    ∃ ms, Resolved.DenoteAll g members ms ∧ g.content? h = some (.link type ms)
  | .stored m, h => m = h ∧ g.contains h

/-- Atoms are, one by one, what some resolved descriptions say. -/
def Resolved.DenoteAll (g : Graph digest) : List Resolved → List Handle → Prop
  | [], hs => hs = []
  | r :: rest, hs => ∃ h more, Resolved.Denotes g r h ∧ Resolved.DenoteAll g rest more ∧
      hs = h :: more

end

mutual

/-- **A description goes on to denote** the same atom while this atom is stored: a link keeps its
members from being removed. -/
theorem Resolved.Denotes.changes {g g' : Graph digest} (hg : g.Coherent) (changes : Changes g g')
    (room : g'.HandlesLeft) :
    ∀ (r : Resolved) {h : Handle}, r.Denotes g h → g'.contains h → r.Denotes g' h
  | .node type name, h, hd, kept => by
    rw [Resolved.Denotes] at hd ⊢
    exact Graph.content?_of_changes hg changes room hd kept
  | .link type members, h, hd, kept => by
    rw [Resolved.Denotes] at hd ⊢
    obtain ⟨ms, hms, hc⟩ := hd
    have hc' := Graph.content?_of_changes hg changes room hc kept
    have members_stored : ∀ m ∈ ms, g'.contains m := fun m hm =>
      ((hg.changes changes room).member h _ hc' m hm).1
    exact ⟨ms, Resolved.DenoteAll.changes hg changes room members hms members_stored, hc'⟩
  | .stored m, h, hd, kept => by
    rw [Resolved.Denotes] at hd ⊢
    exact ⟨hd.1, kept⟩

/-- Several denotations go on holding as long as their atoms are stored and no handle is given out
twice. -/
theorem Resolved.DenoteAll.changes {g g' : Graph digest} (hg : g.Coherent)
    (changes : Changes g g') (room : g'.HandlesLeft) :
    ∀ (rs : List Resolved) {hs : List Handle}, Resolved.DenoteAll g rs hs →
      (∀ h ∈ hs, g'.contains h) → Resolved.DenoteAll g' rs hs
  | [], hs, hd, _ => hd
  | r :: rest, hs, hd, kept => by
    rw [Resolved.DenoteAll] at hd ⊢
    obtain ⟨h, more, hr, hrest, rfl⟩ := hd
    rw [List.forall_mem_cons] at kept
    exact ⟨h, more, Resolved.Denotes.changes hg changes room r hr kept.1,
      Resolved.DenoteAll.changes hg changes room rest hrest kept.2, rfl⟩

end

end Denotes

namespace Graph

variable {digest : Content → UInt64} {g g' : Graph digest}

/-! ## Storing and denoting -/

/-- After a content was looked up or appended it is the content of the atom that is handed out. -/
theorem content?_intern_self (c : Content) :
    (g.intern c).2.content? (g.intern c).1.handle = some c := by
  cases hl : g.lookup c with
  | some found =>
    rw [intern_of_found hl]
    exact content?_of_lookup hl
  | none => rw [intern_of_new hl, content?_append, if_pos rfl]

mutual

/-- **What is stored is denoted.**  A description that fits denotes the atom that was stored. -/
theorem denotes_store : ∀ (r : Resolved) {g : Graph digest}, g.Coherent → r.Fits g →
    (g.store r).2.HandlesLeft → r.Denotes (g.store r).2 (g.store r).1.handle
  | .node type name, g, hg, fits, room => by
    rw [store, Resolved.Denotes]
    exact content?_intern_self _
  | .link type members, g, hg, fits, room => by
    have stored := (stores_store (.link type members) g fits).1
    obtain ⟨hmembers, hkept⟩ := stores_storeAll members g fits.2.2.2
    rw [store] at room stored ⊢
    rw [Resolved.Denotes]
    -- the atom of the link comes last, when its members are stored already
    have accepted := checkContent_of_stores fits hmembers (length_storeAll members) hkept
    have last := stores_intern accepted
    have room' := room_of_changes last.changes room
    refine ⟨(g.storeAll members).1, ?_, content?_intern_self _⟩
    apply Resolved.DenoteAll.changes (hg.changes hmembers.changes room') last.changes room members
    · exact denoteAll_storeAll members hg fits.2.2.2 room'
    · intro m hm
      exact last.kept m (hkept m hm)
  | .stored m, g, hg, fits, room => by
    rw [store, Resolved.Denotes]
    exact ⟨rfl, fits⟩

/-- Storing several descriptions gives handles that denote them. -/
theorem denoteAll_storeAll : ∀ (rs : List Resolved) {g : Graph digest}, g.Coherent →
    Resolved.FitAll g rs → (g.storeAll rs).2.HandlesLeft →
      Resolved.DenoteAll (g.storeAll rs).2 rs (g.storeAll rs).1
  | [], g, hg, fits, room => by
    rw [storeAll, Resolved.DenoteAll]
  | r :: rest, g, hg, fits, room => by
    rw [storeAll] at room ⊢
    rw [Resolved.DenoteAll]
    -- what the first description denotes, it denotes still after the others are stored
    obtain ⟨hr, hstored⟩ := stores_store r g fits.1
    have fits' := Resolved.FitAll.mono hr.types hr.kept rest fits.2
    have hrest := (stores_storeAll rest (g.store r).2 fits').1
    have room' := room_of_changes hrest.changes room
    have hg' := hg.changes hr.changes room'
    refine ⟨_, _, ?_, denoteAll_storeAll rest hg' fits' room, rfl⟩
    apply Resolved.Denotes.changes hg' hrest.changes room r
    · exact denotes_store r hg fits.1 room'
    · exact hrest.kept _ hstored

end

mutual

/-- **What is denoted is found.**  To store a description that denotes an atom gives this atom and
changes nothing. -/
theorem store_of_denotes (hg : g.Coherent) : ∀ (r : Resolved) {h : Handle}, r.Denotes g h →
    g.store r = (⟨h, false⟩, g)
  | .node type name, h, hd => by
    rw [Resolved.Denotes] at hd
    rw [store, intern_of_found (hg.lookup_iff.mpr hd)]
  | .link type members, h, hd => by
    rw [Resolved.Denotes] at hd
    obtain ⟨ms, hms, hc⟩ := hd
    -- the members are there, and so the link is looked up with its own members
    rw [store, storeAll_of_denoteAll hg members hms]
    exact intern_of_found (hg.lookup_iff.mpr hc)
  | .stored m, h, hd => by
    rw [Resolved.Denotes] at hd
    rw [store, hd.1]

/-- Storing several descriptions that are denoted already changes nothing. -/
theorem storeAll_of_denoteAll (hg : g.Coherent) : ∀ (rs : List Resolved) {hs : List Handle},
    Resolved.DenoteAll g rs hs → g.storeAll rs = (hs, g)
  | [], hs, hd => by
    rw [Resolved.DenoteAll] at hd
    rw [storeAll, hd]
  | r :: rest, hs, hd => by
    rw [Resolved.DenoteAll] at hd
    obtain ⟨h, more, hr, hrest, rfl⟩ := hd
    rw [storeAll, store_of_denotes hg r hr]
    dsimp only
    rw [storeAll_of_denoteAll hg rest hrest]

end

/-! ## Resolving again -/

/-- A type that suits nodes goes on to suit them. -/
theorem checkNodeType_of_extends (types : g.types.Extends g'.types) (hg : g.types.WellFormed)
    (hg' : g'.types.WellFormed) {type : TypeId} (ht : g.types.contains type)
    (h : g.checkNodeType type = .ok ()) : g'.checkNodeType type = .ok () := by
  rw [checkNodeType_eq_ok] at h ⊢
  unfold TypeTree.allowsNodes at h ⊢
  rw [types.isA hg hg' ht, types.isA hg hg' ht]
  exact h

/-- A type that suits links goes on to suit them. -/
theorem checkLinkType_of_extends (types : g.types.Extends g'.types) (hg : g.types.WellFormed)
    (hg' : g'.types.WellFormed) {type : TypeId} (ht : g.types.contains type)
    (h : g.checkLinkType type = .ok ()) : g'.checkLinkType type = .ok () := by
  rw [checkLinkType_eq_ok] at h ⊢
  unfold TypeTree.allowsLinks at h ⊢
  rw [types.isA hg hg' ht]
  exact h

mutual

/-- **Resolving again** gives the same as before, as long as the description denotes an atom. -/
theorem resolve_again (types : g.types.Extends g'.types) (hg : g.types.WellFormed)
    (hg' : g'.types.WellFormed) : ∀ (d : Description) {depth : Nat} {r : Resolved} {h : Handle},
      g.resolve depth d = .ok r → r.Denotes g' h → g'.resolve depth d = .ok r
  | .node typeName name, depth, r, h, hr, hd => by
    obtain ⟨hdepth, type, hn, htype, hname, rfl⟩ := resolve_node_eq_ok.mp hr
    have htype' := checkNodeType_of_extends types hg hg' (hg.contains_of_get? hn) htype
    exact resolve_node_eq_ok.mpr ⟨hdepth, type, types.get? hg hg' hn, htype', hname, rfl⟩
  | .link typeName members, depth, r, h, hr, hd => by
    obtain ⟨hdepth, type, rs, hn, htype, harity, hrs, rfl⟩ := resolve_link_eq_ok.mp hr
    rw [Resolved.Denotes] at hd
    obtain ⟨ms, hms, -⟩ := hd
    have htype' := checkLinkType_of_extends types hg hg' (hg.contains_of_get? hn) htype
    exact resolve_link_eq_ok.mpr ⟨hdepth, type, rs, types.get? hg hg' hn, htype', harity,
      resolveAll_again types hg hg' members hrs hms, rfl⟩
  | .stored m, depth, r, h, hr, hd => by
    obtain ⟨hdepth, -, rfl⟩ := resolve_stored_eq_ok.mp hr
    rw [Resolved.Denotes] at hd
    -- a description by handle denotes only what is stored
    obtain ⟨rfl, stored⟩ := hd
    exact resolve_stored_eq_ok.mpr ⟨hdepth, stored, rfl⟩

/-- Several descriptions resolve again to what denotes them, when types have been declared since. -/
theorem resolveAll_again (types : g.types.Extends g'.types) (hg : g.types.WellFormed)
    (hg' : g'.types.WellFormed) : ∀ (ds : List Description) {depth : Nat} {rs : List Resolved}
      {hs : List Handle}, g.resolveAll depth ds = .ok rs → Resolved.DenoteAll g' rs hs →
        g'.resolveAll depth ds = .ok rs
  | [], depth, rs, hs, hrs, _ => by
    rw [resolveAll_nil_eq_ok] at hrs ⊢
    exact hrs
  | d :: ds, depth, rs, hs, hrs, hd => by
    obtain ⟨r, rest, hr, hrest, rfl⟩ := resolveAll_cons_eq_ok.mp hrs
    rw [Resolved.DenoteAll] at hd
    obtain ⟨h, more, hh, hmore, -⟩ := hd
    exact resolveAll_cons_eq_ok.mpr ⟨r, rest, resolve_again types hg hg' d hr hh,
      resolveAll_again types hg hg' ds hrest hmore, rfl⟩

end

/-! ## Inserting again -/

/-- Inserting what is denoted already gives the same handle and changes nothing. -/
theorem insert_none_of_denotes (hg : g.Coherent) {d : Description} {r : Resolved} {h : Handle}
    (hr : g.resolve 0 d = .ok r) (hd : r.Denotes g h) :
    insert d none g = .ok ⟨h, false⟩ g := by
  unfold insert
  rw [hr]
  dsimp only
  rw [store_of_denotes hg r hd]

/-- **To insert again** what was accepted once, whatever happened in between, finds the atom of
the first insertion as long as it is stored. -/
theorem insert_again (hg : g.Reachable) {d : Description} {truth : Option Truth}
    {outcome : Stored} {g₁ : Graph digest} (first : insert d truth g = .ok outcome g₁)
    (actions : List Action) (room : (g₁.run actions).HandlesLeft)
    (stored : (g₁.run actions).contains outcome.handle) :
    insert d none (g₁.run actions) = .ok ⟨outcome.handle, false⟩ (g₁.run actions) := by
  obtain ⟨r, hr, rfl, rfl⟩ := insert_eq_ok hg.typesMakeSense.wellFormed first
  have fits := resolve_fits hg.typesMakeSense.wellFormed d hr
  obtain ⟨storing, there⟩ := stores_store r g fits
  have revised := changes_observe there truth
  have types₁ := (hg.typesMakeSense.changes storing.changes).changes revised
  -- everything that happens after the description is stored
  have later := revised.trans (changes_run types₁ actions)
  have whole := storing.changes.trans later
  have room' := room_of_changes later room
  have coherent := hg.coherent (room_of_changes whole room)
  have denoted := denotes_store r coherent fits room'
  have still := Resolved.Denotes.changes (coherent.changes storing.changes room') later room r
    denoted stored
  have again := resolve_again (extends_of_changes whole) hg.typesMakeSense.wellFormed
    (hg.typesMakeSense.changes whole).wellFormed d hr still
  exact insert_none_of_denotes (coherent.changes whole room) again still

/-! ## Content addressing -/

/-- A content names at most one atom of a graph, and this atom is found by its content. -/
structure ContentAddressed (g : Graph digest) : Prop where
  unique : ∀ (h h' : Handle) (c : Content), g.content? h = some c → g.content? h' = some c → h = h'
  lookup : ∀ (c : Content) (h : Handle), g.lookup c = some h ↔ g.content? h = some c
  findNode : ∀ (typeName name : String) (h : Handle), g.findNode typeName name = .ok (some h) ↔
    ∃ type, g.types.get? typeName = some type ∧ g.content? h = some (.node type name)
  findLink : ∀ (typeName : String) (members : List Handle) (h : Handle),
    g.findLink typeName members = .ok (some h) ↔
      ∃ type, g.types.get? typeName = some type ∧ g.content? h = some (.link type members)
  /-- What was inserted before, with or without a truth value, is found by inserting it again
  while its atom is stored, whatever was done in between. -/
  insert : ∀ (before : Graph digest) (d : Description) (truth : Option Truth) (outcome : Stored)
    (between : Graph digest) (actions : List Action), before.Reachable →
      Graph.insert d truth before = .ok outcome between → between.run actions = g →
        g.contains outcome.handle → Graph.insert d none g = .ok ⟨outcome.handle, false⟩ g

/-- In a coherent graph a node is found exactly if its type is declared and it is stored. -/
theorem Coherent.findNode_eq_ok (hg : g.Coherent) {typeName name : String} {h : Handle} :
    g.findNode typeName name = .ok (some h) ↔
      ∃ type, g.types.get? typeName = some type ∧ g.content? h = some (.node type name) := by
  unfold findNode
  simp only [Guards.bind_eq_ok, TypeTree.resolve_eq_ok, Guards.pure_eq_ok, hg.lookup_iff]

/-- In a coherent graph a link is found exactly if its type is declared and it is stored. -/
theorem Coherent.findLink_eq_ok (hg : g.Coherent) {typeName : String} {members : List Handle}
    {h : Handle} : g.findLink typeName members = .ok (some h) ↔
      ∃ type, g.types.get? typeName = some type ∧ g.content? h = some (.link type members) := by
  unfold findLink
  simp only [Guards.bind_eq_ok, TypeTree.resolve_eq_ok, Guards.pure_eq_ok, hg.lookup_iff]

/-- **Every reachable graph is addressed by contents**, whatever the digests are and however often
they collide, as long as there are handles left. -/
theorem Reachable.contentAddressed (hg : g.Reachable)
    (room : g.HandlesLeft) : g.ContentAddressed where
  unique := (hg.coherent room).unique
  lookup c h := (hg.coherent room).lookup_iff
  findNode typeName name h := (hg.coherent room).findNode_eq_ok
  findLink typeName members h := (hg.coherent room).findLink_eq_ok
  insert before d truth outcome between actions hbefore first hrun stored := by
    subst hrun
    exact insert_again hbefore first actions room stored

/-- Where all digests collide, a link over nodes is found again after one of its members has got a
truth value, a type and further atoms have come, and a removal was refused. -/
theorem contentAddressed_of_collisions :
    let d := Description.link "Link" [.node "Node" "a", .node "Node" "b", .node "Node" "a"]
    let g := (empty : Graph fun _ => 0).run
      [.insert d none, .revise ⟨0⟩ ⟨1, 1⟩, .declareType "Word" (some "Node"),
        .addNode "Word" "a", .remove ⟨0⟩, .addLink "Link" [⟨2⟩, ⟨2⟩]]
    g.HandlesLeft ∧ g.handles = [⟨0⟩, ⟨1⟩, ⟨2⟩, ⟨3⟩, ⟨4⟩] ∧
      g.ContentAddressed ∧ insert d none g = .ok ⟨⟨2⟩, false⟩ g := by
  intro d g
  have room : g.HandlesLeft := by decide +kernel
  have addressed : g.ContentAddressed := Reachable.contentAddressed ⟨_, rfl⟩ room
  have found : insert d none g = .ok ⟨⟨2⟩, false⟩ g := by
    apply addressed.insert empty d none ⟨⟨2⟩, true⟩ _ _ ⟨[], rfl⟩
    · rfl
    · rfl
    · decide +kernel
  exact ⟨room, by decide +kernel, addressed, found⟩

end Graph

end TypedHypergraph
