/-
# What an insertion stores

A description *denotes* an atom of a graph (`Description.Denotes`): a node the one with its type
and name, a link the one with its type over the atoms that its members denote, and a handle the
atom under it.  Every description that is accepted denotes, from then on, the atom that is handed
out.

Storing only ever adds atoms (`Graph.Gains`): old ones stay as they are, and the new ones take the
next handles and have no truth value yet.  An atom is stored after its members,
so that the atom of the whole description is the youngest of all if it is new.  If it is old, so
are its members, and theirs, and nothing is new (`Graph.Tells`).
-/
import TypedHypergraph.Proofs.ContentAddressing

namespace TypedHypergraph

namespace Graph

variable {digest : Content → UInt64} {g g' : Graph digest}

/-! ## Gaining atoms -/

/-- The types are the same, old atoms keep their contents, and no truth value is touched.  The new
atoms are those under the handles that were given out. -/
structure Gains (g g' : Graph digest) : Prop where
  types : g'.types = g.types
  content? : ∀ (h : Handle) (c : Content), g.content? h = some c → g'.content? h = some c
  truth? : ∀ h : Handle, g'.truth? h = g.truth? h
  supply : g.nextHandle ≤ g'.nextHandle
  contains : ∀ h : Handle,
    g'.contains h ↔ g.contains h ∨ g.nextHandle ≤ h.value ∧ h.value < g'.nextHandle

namespace Gains

theorem refl (g : Graph digest) : Gains g g where
  types := rfl
  content? _ _ hc := hc
  truth? _ := rfl
  supply := le_rfl
  contains h := (or_iff_left (by omega)).symm

theorem trans {g'' : Graph digest} (first : Gains g g') (second : Gains g' g'') :
    Gains g g'' where
  types := second.types.trans first.types
  content? h c hc := second.content? h c (first.content? h c hc)
  truth? h := (second.truth? h).trans (first.truth? h)
  supply := first.supply.trans second.supply
  contains h := by
    have hle := first.supply
    have hle' := second.supply
    rw [second.contains, first.contains, or_assoc]
    exact or_congr_right (by omega)

end Gains

/-- An appended atom does not touch the truth values of others, and has none itself. -/
theorem truth?_append (hg : g.Coherent) (c : Content) (h : Handle) :
    (g.append c).truth? h = g.truth? h := by
  rw [truth?, append, Std.TreeMap.getElem?_insert]
  simp only [Std.compare_eq_iff_eq]
  split
  · rename_i heq
    subst heq
    exact (truth?_of_not_contains fun hh => lt_irrefl _ (hg.handle_lt _ hh)).symm
  · rfl

/-- The atoms that a graph gains are those under the handles that were given out. -/
theorem Gains.fresh (gain : Gains g g') (hg : g.Coherent) (h : Handle) :
    g'.contains h ∧ ¬ g.contains h ↔ g.nextHandle ≤ h.value ∧ h.value < g'.nextHandle := by
  rw [gain.contains]
  by_cases hh : g.contains h
  · have old := hg.handle_lt h hh
    exact ⟨fun hboth => absurd hh hboth.2, by omega⟩
  · rw [or_iff_right hh, and_iff_left hh]

/-- Appending a content gains the atom under the next handle. -/
theorem Coherent.gains_append (hg : g.Coherent) {c : Content}
    (room : (g.append c).HandlesLeft) : Gains g (g.append c) where
  types := rfl
  content? h c' hc := by
    have hne : (⟨g.nextHandle⟩ : Handle) ≠ h := by
      rintro rfl
      simp [hg.content?_next] at hc
    rw [content?_append, if_neg hne, hc]
  truth? := truth?_append hg c
  supply := by
    rw [nextHandle_append room]
    exact Nat.le_succ _
  contains h := by
    rw [Graph.contains_append, or_comm, nextHandle_append room, Handle.eq_iff]
    dsimp only
    exact or_congr_right (by omega)

/-- Looking up or appending a content gains at most one atom. -/
theorem Coherent.gains_intern (hg : g.Coherent) {c : Content}
    (room : (g.intern c).2.HandlesLeft) : Gains g (g.intern c).2 := by
  cases hl : g.lookup c with
  | some h =>
    rw [intern_of_found hl]
    exact .refl g
  | none =>
    rw [intern_of_new hl] at room ⊢
    exact hg.gains_append room

/-! ## Storing -/

/-- What an outcome tells: a new atom is the youngest of all, and without one nothing is new. -/
def Tells (g : Graph digest) (outcome : Stored) (g' : Graph digest) : Prop :=
  if outcome.created then
    g.nextHandle ≤ outcome.handle.value ∧ g'.nextHandle = outcome.handle.value + 1
  else g' = g

/-- What the handles of several outcomes tell: the youngest atom of all is among them, unless
nothing is new. -/
def TellAll (g : Graph digest) (hs : List Handle) (g' : Graph digest) : Prop :=
  g' = g ∨ ∃ h ∈ hs, g'.nextHandle = h.value + 1

/-- What interning says of an atom is told right. -/
theorem Tells.of_intern {c : Content} (room : (g.intern c).2.HandlesLeft) :
    Tells g (g.intern c).1 (g.intern c).2 := by
  cases hl : g.lookup c with
  | some h => simp [intern_of_found hl, Tells]
  | none =>
    rw [intern_of_new hl] at room ⊢
    exact ⟨le_rfl, nextHandle_append room⟩

/-- An atom that is found tells that all atoms are old, and a new one is not old itself. -/
theorem Tells.suppressed_iff (hg : g.Coherent) {outcome : Stored} (told : Tells g outcome g')
    (stored : g'.contains outcome.handle) :
    outcome.created = false ↔ ∀ h : Handle, g'.contains h → g.contains h := by
  unfold Tells at told
  split at told
  · rename_i created
    constructor
    · intro hnot
      rw [created] at hnot
      cases hnot
    · intro all
      have old := hg.handle_lt _ (all _ stored)
      omega
  · rename_i hnot
    rw [told]
    exact ⟨fun _ _ hh => hh, fun _ => Bool.eq_false_iff.mpr hnot⟩

/-- A new atom tells that no atom is younger. -/
theorem Tells.youngest (hg' : g'.Coherent) {outcome : Stored} (told : Tells g outcome g')
    (created : outcome.created = true) (h : Handle) (hh : g'.contains h) : h ≤ outcome.handle := by
  rw [Tells, if_pos created] at told
  have hlt := hg'.handle_lt h hh
  rw [Handle.le_iff]
  omega

/-- A link that is found over members tells that its members, which are older, are old. -/
theorem Tells.link {mid : Graph digest} {type : TypeId} {hs : List Handle}
    (hmid : mid.Coherent) (gain : Gains g mid) (members : TellAll g hs mid)
    (room : (mid.intern (.link type hs)).2.HandlesLeft) :
    Tells g (mid.intern (.link type hs)).1 (mid.intern (.link type hs)).2 := by
  have last : Tells mid _ _ := Tells.of_intern room
  cases hl : mid.lookup (.link type hs) with
  | some h =>
    rw [intern_of_found hl]
    rcases members with rfl | ⟨m, hm, youngest⟩
    · simp [Tells]
    · -- the youngest atom would be a member of the link, which is younger
      have hc := content?_of_lookup hl
      have hlt : m.value < h.value := (hmid.member h _ hc m hm).2
      have hh := hmid.handle_lt h (contains_of_content? hc)
      omega
  | none =>
    rw [intern_of_new hl] at last ⊢
    simp only [Tells, if_true] at last ⊢
    exact ⟨gain.supply.trans last.1, last.2⟩

mutual

/-- **Storing** a description that fits only ever adds atoms, and its outcome tells whether there
are any. -/
theorem Coherent.gains_store : ∀ (r : Resolved) {g : Graph digest}, g.Coherent → r.Fits g →
    (g.store r).2.HandlesLeft →
      Gains g (g.store r).2 ∧ Tells g (g.store r).1 (g.store r).2
  | .node type name, g, hg, fits, room => by
    rw [store] at room ⊢
    exact ⟨hg.gains_intern room, Tells.of_intern room⟩
  | .link type members, g, hg, fits, room => by
    obtain ⟨hmembers, hkept⟩ := stores_storeAll members g fits.2.2.2
    rw [store] at room ⊢
    have accepted := checkContent_of_stores fits hmembers (length_storeAll members) hkept
    have room' := room_of_changes (stores_intern accepted).changes room
    have hmid := hg.changes hmembers.changes room'
    obtain ⟨gain, told⟩ := Coherent.gainAll_storeAll members hg fits.2.2.2 room'
    exact ⟨gain.trans (hmid.gains_intern room), Tells.link hmid gain told room⟩
  | .stored m, g, hg, fits, room => by
    rw [store]
    exact ⟨.refl g, by simp [Tells]⟩

/-- **Storing** several descriptions that fit gains atoms, and tells right of each of them. -/
theorem Coherent.gainAll_storeAll : ∀ (rs : List Resolved) {g : Graph digest}, g.Coherent →
    Resolved.FitAll g rs → (g.storeAll rs).2.HandlesLeft →
      Gains g (g.storeAll rs).2 ∧ TellAll g (g.storeAll rs).1 (g.storeAll rs).2
  | [], g, hg, fits, room => by
    rw [storeAll]
    exact ⟨.refl g, .inl rfl⟩
  | r :: rest, g, hg, fits, room => by
    rw [storeAll] at room ⊢
    obtain ⟨hr, hstored⟩ := stores_store r g fits.1
    have fits' := Resolved.FitAll.mono hr.types hr.kept rest fits.2
    have hrest := (stores_storeAll rest (g.store r).2 fits').1
    have room' := room_of_changes hrest.changes room
    obtain ⟨gain, told⟩ := Coherent.gains_store r hg fits.1 room'
    obtain ⟨gain', told'⟩ :=
      Coherent.gainAll_storeAll rest (hg.changes hr.changes room') fits' room
    refine ⟨gain.trans gain', ?_⟩
    rcases told' with same | ⟨h, hh, youngest⟩
    · unfold Tells at told
      split at told
      · exact .inr ⟨_, List.mem_cons_self, by rw [same, told.2]⟩
      · exact .inl (same.trans told)
    · exact .inr ⟨h, List.mem_cons_of_mem _ hh, youngest⟩

end

end Graph

/-! ## Denoting -/

section Denotes

variable {digest : Content → UInt64}

mutual

/-- An atom is what a description says. -/
def Description.Denotes (g : Graph digest) : Description → Handle → Prop
  | .node typeName name, h => ∃ type, g.types.get? typeName = some type ∧
      g.content? h = some (.node type name)
  | .link typeName members, h => ∃ type ms, g.types.get? typeName = some type ∧
      Description.DenoteAll g members ms ∧ g.content? h = some (.link type ms)
  | .stored m, h => m = h ∧ g.contains h

/-- Atoms are, one by one, what some descriptions say. -/
def Description.DenoteAll (g : Graph digest) : List Description → List Handle → Prop
  | [], hs => hs = []
  | d :: rest, hs => ∃ h more, Description.Denotes g d h ∧ Description.DenoteAll g rest more ∧
      hs = h :: more

end

mutual

/-- A description denotes what it denotes after resolving. -/
theorem Resolved.Denotes.of_resolve {g g' : Graph digest} (types : g'.types = g.types) :
    ∀ (d : Description) {depth : Nat} {r : Resolved} {h : Handle}, g.resolve depth d = .ok r →
      r.Denotes g' h → d.Denotes g' h
  | .node typeName name, depth, r, h, hr, hd => by
    obtain ⟨-, type, hn, -, -, rfl⟩ := Graph.resolve_node_eq_ok.mp hr
    rw [Resolved.Denotes] at hd
    rw [Description.Denotes, types]
    exact ⟨type, hn, hd⟩
  | .link typeName members, depth, r, h, hr, hd => by
    obtain ⟨-, type, rs, hn, -, -, hrs, rfl⟩ := Graph.resolve_link_eq_ok.mp hr
    rw [Resolved.Denotes] at hd
    obtain ⟨ms, hms, hc⟩ := hd
    rw [Description.Denotes, types]
    exact ⟨type, ms, hn, Resolved.DenoteAll.of_resolve types members hrs hms, hc⟩
  | .stored m, depth, r, h, hr, hd => by
    obtain ⟨-, -, rfl⟩ := Graph.resolve_stored_eq_ok.mp hr
    rw [Resolved.Denotes] at hd
    rw [Description.Denotes]
    exact hd

/-- What denotes resolved descriptions denotes the descriptions themselves. -/
theorem Resolved.DenoteAll.of_resolve {g g' : Graph digest} (types : g'.types = g.types) :
    ∀ (ds : List Description) {depth : Nat} {rs : List Resolved} {hs : List Handle},
      g.resolveAll depth ds = .ok rs → Resolved.DenoteAll g' rs hs →
        Description.DenoteAll g' ds hs
  | [], depth, rs, hs, hrs, hd => by
    rw [Graph.resolveAll_nil_eq_ok] at hrs
    subst hrs
    exact hd
  | d :: ds, depth, rs, hs, hrs, hd => by
    obtain ⟨r, rest, hr, hrest, rfl⟩ := Graph.resolveAll_cons_eq_ok.mp hrs
    rw [Resolved.DenoteAll] at hd
    obtain ⟨h, more, hh, hmore, rfl⟩ := hd
    rw [Description.DenoteAll]
    exact ⟨h, more, Resolved.Denotes.of_resolve types d hr hh,
      Resolved.DenoteAll.of_resolve types ds hrest hmore, rfl⟩

end

end Denotes

namespace Graph

variable {digest : Content → UInt64} {g g' : Graph digest}

/-! ## Inserting -/

/-- What an accepted insertion leaves behind: the description denotes the atom that is handed
out, old atoms are as they were, the new ones take the handles that were given out, and an
observation concerns the atom handed out only.  The outcome tells whether anything is new. -/
structure Inserted (g : Graph digest) (d : Description) (truth : Option Truth) (outcome : Stored)
    (g' : Graph digest) : Prop where
  denotes : d.Denotes g' outcome.handle
  types : g'.types = g.types
  kept : ∀ (h : Handle) (c : Content), g.content? h = some c → g'.content? h = some c
  supply : g.nextHandle ≤ g'.nextHandle
  fresh : ∀ h : Handle,
    g'.contains h ∧ ¬ g.contains h ↔ g.nextHandle ≤ h.value ∧ h.value < g'.nextHandle
  unknown : ∀ h : Handle, g'.contains h → ¬ g.contains h → h ≠ outcome.handle ∨ truth = none →
    g'.truth? h = none
  untouched : ∀ h : Handle, g.contains h → h ≠ outcome.handle ∨ truth = none →
    g'.truth? h = g.truth? h
  revised : ∀ observation : Truth, truth = some observation →
    g'.truth? outcome.handle = some (TruthValue.absorb (g.truth? outcome.handle) observation)
  suppressed : outcome.created = false ↔ ∀ h : Handle, g'.contains h → g.contains h
  youngest : outcome.created = true → ∀ h : Handle, g'.contains h → h ≤ outcome.handle

/-- **Every accepted insertion** into a reachable graph stores what was described and nothing
else, as long as there are handles left. -/
theorem Reachable.inserted (hg : g.Reachable) {d : Description} {truth : Option Truth}
    {outcome : Stored} (accepted : insert d truth g = .ok outcome g')
    (room : g'.HandlesLeft) : g.Inserted d truth outcome g' := by
  have ht := hg.typesMakeSense.wellFormed
  obtain ⟨r, hr, rfl, rfl⟩ := insert_eq_ok ht accepted
  rw [handlesLeft_observe] at room
  have fits := resolve_fits ht d hr
  obtain ⟨storing, stored⟩ := stores_store r g fits
  have coherent := hg.coherent (room_of_changes storing.changes room)
  have coherent' := coherent.changes storing.changes room
  obtain ⟨gain, told⟩ := coherent.gains_store r fits room
  -- what was stored denotes, and observing it changes no content
  have observed := changes_observe stored truth
  have room' : ((g.store r).2.observe (g.store r).1.handle truth).HandlesLeft := by
    rwa [handlesLeft_observe]
  have denoted := Resolved.Denotes.changes coherent' observed room'
    r (denotes_store r coherent fits room) ((contains_observe _ _ _).mpr stored)
  exact {
    denotes := Resolved.Denotes.of_resolve ((types_observe _ _).trans gain.types) d hr denoted
    types := (types_observe _ _).trans gain.types
    kept := by
      intro h c hc
      rw [content?_observe]
      exact gain.content? h c hc
    supply := gain.supply.trans (nextHandle_observe _ _).ge
    fresh := by
      intro h
      rw [contains_observe, nextHandle_observe]
      exact gain.fresh coherent h
    unknown := by
      intro h _ hh hne
      rw [truth?_observe_of_ne truth hne, gain.truth?, truth?_of_not_contains hh]
    untouched := by
      intro h _ hne
      rw [truth?_observe_of_ne truth hne, gain.truth?]
    revised := by
      rintro observation rfl
      rw [truth?_observe_self stored, gain.truth?]
    suppressed := by
      simp only [contains_observe]
      exact told.suppressed_iff coherent stored
    youngest := by
      intro created h hh
      rw [contains_observe] at hh
      exact told.youngest coherent' created h hh }

/-- Where all digests collide, a link is stored whose members are partly there, partly new, partly
told by handle and partly the same, with an observation. -/
theorem inserted_of_mixed_members :
    let d := Description.link "Link" [.node "Node" "b",
      .link "Link" [.node "Node" "a", .stored ⟨0⟩], .node "Node" "b", .stored ⟨1⟩]
    let g := (empty : Graph fun _ => 0).run
      [.addNode "Node" "a", .addLink "Link" [⟨0⟩], .revise ⟨0⟩ ⟨1, 1⟩]
    ∃ g', insert d (some ⟨1, 1⟩) g = .ok ⟨⟨4⟩, true⟩ g' ∧ g'.HandlesLeft ∧
      g'.handles = [⟨0⟩, ⟨1⟩, ⟨2⟩, ⟨3⟩, ⟨4⟩] ∧ g.Inserted d (some ⟨1, 1⟩) ⟨⟨4⟩, true⟩ g' := by
  intro d g
  refine ⟨_, rfl, ?_, ?_, ?_⟩
  · decide +kernel
  · decide +kernel
  · exact Reachable.inserted ⟨_, rfl⟩ rfl (by decide +kernel)

end Graph

end TypedHypergraph
