/-
# Parts of descriptions

A description is one of its parts, and so are the parts of its members (`Description.parts`).  A
description that denotes an atom has parts that denote atoms, every description denotes at most one
atom, and as long as no handles are told, every atom is denoted by at most one description
(`Description.Denotes.unique`, `Description.Denotes.injective`): descriptions that differ say
different things.

What is new after a description was stored is denoted by its parts (`Coherent.denoted_store`).
Without handles, whether a description is accepted depends on the types only (`resolve_congr`).
-/
import TypedHypergraph.Proofs.Insertion

namespace TypedHypergraph

namespace Description

/-! ## Parts -/

mutual

/-- A description with the parts of its members. -/
def parts : Description → List Description
  | .node typeName name => [.node typeName name]
  | .link typeName members => .link typeName members :: allParts members
  | .stored h => [.stored h]

/-- The parts of several descriptions. -/
def allParts : List Description → List Description
  | [] => []
  | d :: rest => parts d ++ allParts rest

end

/-- What holds of a link as soon as it holds of its members, and of everything that has no
members, holds of every description. -/
theorem induction {P : Description → Prop} (node : ∀ typeName name, P (.node typeName name))
    (link : ∀ typeName members, (∀ m ∈ members, P m) → P (.link typeName members))
    (stored : ∀ h, P (.stored h)) (d : Description) : P d := by
  refine @Description.rec P (fun members => ∀ m ∈ members, P m) node link stored ?nil ?cons d
  case nil => simp
  case cons =>
    intro m rest hm hrest
    rw [List.forall_mem_cons]
    exact ⟨hm, hrest⟩

/-- A part of several descriptions is a part of one of them. -/
theorem mem_allParts {p : Description} {ds : List Description} :
    p ∈ allParts ds ↔ ∃ d ∈ ds, p ∈ d.parts := by
  induction ds with
  | nil => simp [allParts]
  | cons d ds ih => rw [allParts, List.mem_append, ih, List.exists_mem_cons_iff]

/-- A description is a part of itself. -/
theorem mem_parts_self (d : Description) : d ∈ d.parts := by
  cases d <;> simp [parts]

/-- A part of a link is the link or a part of one of its members. -/
theorem mem_parts_link {p : Description} {typeName : String} {members : List Description} :
    p ∈ (link typeName members).parts ↔
      p = .link typeName members ∨ ∃ m ∈ members, p ∈ m.parts := by
  rw [parts, List.mem_cons, mem_allParts]

/-- Parts of parts are parts. -/
theorem mem_parts_trans {p q d : Description} (hp : p ∈ d.parts) (hq : q ∈ p.parts) :
    q ∈ d.parts := by
  induction d using induction with
  | node typeName name =>
    rw [parts, List.mem_singleton] at hp
    rwa [hp] at hq
  | link typeName members ih =>
    rcases mem_parts_link.mp hp with rfl | ⟨m, hm, hp⟩
    · exact hq
    · exact mem_parts_link.mpr (.inr ⟨m, hm, ih m hm hp⟩)
  | stored h =>
    rw [parts, List.mem_singleton] at hp
    rwa [hp] at hq

/-- No part of a description is an atom told by its handle. -/
def HandleFree (d : Description) : Prop := ∀ h, .stored h ∉ d.parts

/-- Parts of what refers to no handle refer to none. -/
theorem HandleFree.of_mem_parts {p d : Description} (free : d.HandleFree) (hp : p ∈ d.parts) :
    p.HandleFree := fun h hh => free h (mem_parts_trans hp hh)

/-- Members of what refers to no handle refer to none. -/
theorem HandleFree.member {typeName : String} {members : List Description}
    (free : (link typeName members).HandleFree) {m : Description} (hm : m ∈ members) :
    m.HandleFree :=
  free.of_mem_parts (mem_parts_link.mpr (.inr ⟨m, hm, mem_parts_self m⟩))

/-! ## Denoting -/

section Denotes

variable {digest : Content → UInt64} {g g' : Graph digest}

/-- Several descriptions denote atoms one by one. -/
theorem denoteAll_iff {ds : List Description} {hs : List Handle} :
    DenoteAll g ds hs ↔ List.Forall₂ (Denotes g) ds hs := by
  induction ds generalizing hs with
  | nil => rw [DenoteAll, List.forall₂_nil_left_iff]
  | cons d ds ih =>
    simp only [DenoteAll, ih, List.forall₂_cons_left_iff, exists_and_left]

/-- The same, read from the side of the atoms. -/
theorem denoteAll_flip {ds : List Description} {hs : List Handle} (h : DenoteAll g ds hs) :
    List.Forall₂ (fun h d => Denotes g d h) hs ds :=
  List.Forall₂.flip (denoteAll_iff.mp h)

/-- What is denoted is denoted still when there are more atoms. -/
theorem Denotes.mono (types : g'.types = g.types)
    (kept : ∀ (h : Handle) (c : Content), g.content? h = some c → g'.content? h = some c)
    {d : Description} {h : Handle} (hd : d.Denotes g h) : d.Denotes g' h := by
  induction d using induction generalizing h with
  | node typeName name =>
    rw [Denotes] at hd ⊢
    obtain ⟨type, ht, hc⟩ := hd
    exact ⟨type, by rw [types, ht], kept h _ hc⟩
  | link typeName members ih =>
    rw [Denotes] at hd ⊢
    obtain ⟨type, ms, ht, hms, hc⟩ := hd
    refine ⟨type, ms, by rw [types, ht], ?_, kept h _ hc⟩
    rw [denoteAll_iff] at hms ⊢
    have both := (List.forall₂_and_left members ms).mpr ⟨@ih, hms⟩
    exact both.imp fun _ _ hx => hx.1 hx.2
  | stored m =>
    rw [Denotes] at hd ⊢
    obtain ⟨c, hc⟩ := (g.contains_iff h).mp hd.2
    exact ⟨hd.1, Graph.contains_of_content? (kept h c hc)⟩

/-- **A description denotes** at most one atom. -/
theorem Denotes.unique (hg : g.Covered) {d : Description} {h h' : Handle} (hd : d.Denotes g h)
    (hd' : d.Denotes g h') : h = h' := by
  induction d using induction generalizing h h' with
  | node typeName name =>
    rw [Denotes] at hd hd'
    obtain ⟨type, ht, hc⟩ := hd
    obtain ⟨type', ht', hc'⟩ := hd'
    rw [ht, Option.some.injEq] at ht'
    rw [← ht'] at hc'
    exact hg.unique h h' _ hc hc'
  | link typeName members ih =>
    rw [Denotes] at hd hd'
    obtain ⟨type, ms, ht, hms, hc⟩ := hd
    obtain ⟨type', ms', ht', hms', hc'⟩ := hd'
    -- the members are the same, one by one
    have same : ms = ms' := Guards.eq_of_forall₂ (denoteAll_flip hms) (denoteAll_flip hms')
      fun _ _ _ _ m hm hx hx' => ih m hm hx hx'
    rw [ht, Option.some.injEq] at ht'
    rw [← ht', ← same] at hc'
    exact hg.unique h h' _ hc hc'
  | stored m =>
    rw [Denotes] at hd hd'
    rw [← hd.1, hd'.1]

/-- The atoms that some descriptions denote, one by one, are what one of them denotes at each. -/
theorem DenoteAll.eq_map (hg : g.Covered) {ds : List Description} {hs : List Handle}
    (hd : DenoteAll g ds hs) {f : Description → Handle} (hf : ∀ d ∈ ds, d.Denotes g (f d)) :
    hs = ds.map f := by
  have others : DenoteAll g ds (ds.map f) := by
    rw [denoteAll_iff, List.forall₂_map_right_iff, List.forall₂_same]
    exact hf
  exact Guards.eq_of_forall₂ (denoteAll_flip hd) (denoteAll_flip others)
    fun _ _ _ _ _ _ hx hx' => hx.unique hg hx'

/-- What a description denotes is stored. -/
theorem Denotes.contains {d : Description} {h : Handle} (hd : d.Denotes g h) : g.contains h := by
  cases d with
  | node typeName name =>
    rw [Denotes] at hd
    obtain ⟨type, -, hc⟩ := hd
    exact Graph.contains_of_content? hc
  | link typeName members =>
    rw [Denotes] at hd
    obtain ⟨type, ms, -, -, hc⟩ := hd
    exact Graph.contains_of_content? hc
  | stored m =>
    rw [Denotes] at hd
    exact hd.2

/-- Two names of one type are the same. -/
theorem typeName_unique (ht : g.types.WellFormed) {n n' : String} {type : TypeId}
    (hn : g.types.get? n = some type) (hn' : g.types.get? n' = some type) : n = n' := by
  rw [ht.get?_iff] at hn hn'
  exact Option.some.inj (hn.symm.trans hn')

/-- **An atom is denoted** by at most one description without handles. -/
theorem Denotes.injective (ht : g.types.WellFormed) {d d' : Description} (free : d.HandleFree)
    (free' : d'.HandleFree) {h : Handle} (hd : d.Denotes g h) (hd' : d'.Denotes g h) :
    d = d' := by
  induction d using induction generalizing d' h with
  | node typeName name =>
    rw [Denotes] at hd
    obtain ⟨type, hn, hc⟩ := hd
    cases d' with
    | node typeName' name' =>
      rw [Denotes] at hd'
      obtain ⟨type', hn', hc'⟩ := hd'
      rw [hc] at hc'
      cases hc'
      rw [typeName_unique ht hn hn']
    | link typeName' members' =>
      rw [Denotes] at hd'
      obtain ⟨type', ms', hn', hms', hc'⟩ := hd'
      rw [hc] at hc'
      cases hc'
    | stored m => exact absurd (mem_parts_self _) (free' m)
  | link typeName members ih =>
    rw [Denotes] at hd
    obtain ⟨type, ms, hn, hms, hc⟩ := hd
    cases d' with
    | node typeName' name' =>
      rw [Denotes] at hd'
      obtain ⟨type', hn', hc'⟩ := hd'
      rw [hc] at hc'
      cases hc'
    | link typeName' members' =>
      rw [Denotes] at hd'
      obtain ⟨type', ms', hn', hms', hc'⟩ := hd'
      rw [hc] at hc'
      cases hc'
      -- both links have the same members, and these are denoted by one description each
      have same : members = members' :=
        Guards.eq_of_forall₂ (denoteAll_iff.mp hms) (denoteAll_iff.mp hms')
          fun m hm m' hm' x _ hx hx' => ih m hm (free.member hm) (free'.member hm') hx hx'
      rw [typeName_unique ht hn hn', same]
    | stored m => exact absurd (mem_parts_self _) (free' m)
  | stored m => exact absurd (mem_parts_self _) (free m)

/-- The parts of a description that denotes denote as well. -/
theorem Denotes.exists_of_mem_parts {d p : Description} {h : Handle} (hd : d.Denotes g h)
    (hp : p ∈ d.parts) : ∃ x, p.Denotes g x := by
  induction d using induction generalizing h with
  | node typeName name =>
    rw [parts, List.mem_singleton] at hp
    rw [hp]
    exact ⟨h, hd⟩
  | link typeName members ih =>
    rcases mem_parts_link.mp hp with rfl | ⟨m, hm, hp⟩
    · exact ⟨h, hd⟩
    · rw [Denotes] at hd
      obtain ⟨type, ms, -, hms, -⟩ := hd
      obtain ⟨x, -, hx⟩ := Guards.exists_of_forall₂ (denoteAll_flip hms) hm
      exact ih m hm hx hp
  | stored m =>
    rw [parts, List.mem_singleton] at hp
    rw [hp]
    exact ⟨h, hd⟩

end Denotes

end Description

namespace Graph

open Description

variable {digest : Content → UInt64} {g g' : Graph digest}

/-! ## Resolving -/

/-- **Without handles** it depends on the types only whether a description is accepted. -/
theorem resolve_congr (types : g'.types = g.types) {d : Description} (free : d.HandleFree)
    (depth : Nat) : g'.resolve depth d = g.resolve depth d := by
  induction d using induction generalizing depth with
  | node typeName name =>
    simp only [resolve, checkNodeType, nameOfType, types]
  | link typeName members ih =>
    have all : ∀ ds, (∀ m ∈ ds, m ∈ members) →
        g'.resolveAll (depth + 1) ds = g.resolveAll (depth + 1) ds := by
      intro ds sub
      induction ds with
      | nil => rfl
      | cons m ds more =>
        rw [List.forall_mem_cons] at sub
        rw [resolveAll, resolveAll, ih m sub.1 (free.member sub.1), more sub.2]
    simp only [resolve, checkLinkType, nameOfType, types, all members fun _ hm => hm]
  | stored h => exact absurd (mem_parts_self _) (free h)

/-! ## What is new -/

/-- After a content was looked up or appended, what is stored was there before or is handed out. -/
theorem contains_intern_iff (c : Content) (h : Handle) :
    (g.intern c).2.contains h ↔ g.contains h ∨ h = (g.intern c).1.handle := by
  cases hl : g.lookup c with
  | some found =>
    rw [intern_of_found hl]
    refine (or_iff_left_of_imp ?_).symm
    rintro rfl
    exact contains_of_content? (content?_of_lookup hl)
  | none =>
    rw [intern_of_new hl, contains_append, or_comm, eq_comm (a := h)]

/-- Looking up or appending keeps what descriptions denote. -/
theorem Coherent.denotes_intern (hg : g.Coherent) {c : Content}
    (room : (g.intern c).2.HandlesLeft) {d : Description} {h : Handle}
    (hd : d.Denotes g h) : d.Denotes (g.intern c).2 h :=
  hd.mono (hg.gains_intern room).types (hg.gains_intern room).content?

section Storing

variable {g₀ : Graph digest}

mutual

/-- **What is new** after a description was stored is denoted by its parts. -/
theorem Coherent.denoted_store : ∀ (d : Description) {depth : Nat} {r : Resolved}
    {g : Graph digest}, g.Coherent → g.types = g₀.types → g₀.resolve depth d = .ok r → r.Fits g →
      (g.store r).2.HandlesLeft → ∀ h, (g.store r).2.contains h →
        g.contains h ∨ ∃ p ∈ d.parts, p.Denotes (g.store r).2 h
  | .node typeName name, depth, r, g, hg, types, hr, fits, room, h, hh => by
    have whole := Resolved.Denotes.of_resolve ((stores_store r g fits).1.types.trans types) _ hr
      (denotes_store r hg fits room)
    obtain ⟨-, type, -, -, -, rfl⟩ := resolve_node_eq_ok.mp hr
    rw [store] at whole hh ⊢
    rcases (contains_intern_iff _ h).mp hh with old | rfl
    · exact .inl old
    · exact .inr ⟨_, mem_parts_self _, whole⟩
  | .link typeName members, depth, r, g, hg, types, hr, fits, room, h, hh => by
    have whole := Resolved.Denotes.of_resolve ((stores_store r g fits).1.types.trans types) _ hr
      (denotes_store r hg fits room)
    obtain ⟨-, type, rs, -, -, -, hrs, rfl⟩ := resolve_link_eq_ok.mp hr
    obtain ⟨hmembers, hkept⟩ := stores_storeAll rs g fits.2.2.2
    rw [store] at whole room hh ⊢
    have accepted := checkContent_of_stores fits hmembers (length_storeAll rs) hkept
    have room' := room_of_changes (stores_intern accepted).changes room
    rcases (contains_intern_iff _ h).mp hh with old | rfl
    · -- it was new already when the members had been stored
      rcases Coherent.denotedAll_storeAll members hg types hrs fits.2.2.2 room' h old with
        old | ⟨p, hp, hd⟩
      · exact .inl old
      · obtain ⟨m, hm, hp⟩ := mem_allParts.mp hp
        refine .inr ⟨p, mem_parts_link.mpr (.inr ⟨m, hm, hp⟩), ?_⟩
        exact (hg.changes hmembers.changes room').denotes_intern room hd
    · exact .inr ⟨_, mem_parts_self _, whole⟩
  | .stored m, depth, r, g, hg, types, hr, fits, room, h, hh => by
    obtain ⟨-, -, rfl⟩ := resolve_stored_eq_ok.mp hr
    rw [store] at hh
    exact .inl hh

/-- **Storing** several descriptions adds only atoms that their parts denote. -/
theorem Coherent.denotedAll_storeAll : ∀ (ds : List Description) {depth : Nat}
    {rs : List Resolved} {g : Graph digest}, g.Coherent → g.types = g₀.types →
      g₀.resolveAll depth ds = .ok rs → Resolved.FitAll g rs →
        (g.storeAll rs).2.HandlesLeft → ∀ h, (g.storeAll rs).2.contains h →
          g.contains h ∨ ∃ p ∈ allParts ds, p.Denotes (g.storeAll rs).2 h
  | [], depth, rs, g, hg, types, hrs, fits, room, h, hh => by
    rw [resolveAll_nil_eq_ok.mp hrs, storeAll] at hh
    exact .inl hh
  | d :: ds, depth, rs, g, hg, types, hrs, fits, room, h, hh => by
    obtain ⟨r, rest, hr, hrest, rfl⟩ := resolveAll_cons_eq_ok.mp hrs
    rw [storeAll] at room hh ⊢
    obtain ⟨first, -⟩ := stores_store r g fits.1
    have fits' := Resolved.FitAll.mono first.types first.kept rest fits.2
    obtain ⟨others, -⟩ := stores_storeAll rest (g.store r).2 fits'
    have room' := room_of_changes others.changes room
    have hg' := hg.changes first.changes room'
    rw [allParts]
    rcases Coherent.denotedAll_storeAll ds hg' (first.types.trans types) hrest fits' room h hh with
      old | ⟨p, hp, hd⟩
    · rcases Coherent.denoted_store d hg types hr fits.1 room' h old with old | ⟨p, hp, hd⟩
      · exact .inl old
      · have gain := (Coherent.gainAll_storeAll rest hg' fits' room).1
        exact .inr ⟨p, List.mem_append_left _ hp, hd.mono gain.types gain.content?⟩
    · exact .inr ⟨p, List.mem_append_right _ hp, hd⟩

end

end Storing

end Graph

end TypedHypergraph
