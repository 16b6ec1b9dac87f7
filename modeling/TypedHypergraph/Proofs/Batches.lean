/-
# Batches

A *batch* inserts descriptions one after the other, without truth values (`Graph.batch`).  In a
graph that held no atoms before, and with descriptions that tell no handles, the atoms are then the
different parts of the descriptions, one for each: the batch *spells* them (`Graph.Spells`).

The order of the descriptions and how often one of them comes make a difference for the handles
only.  Two graphs that spell the same parts are equal up to a renaming (`Graph.Renames`), which
leads from the atom of a part in the one to the atom of this part in the other.
-/
import TypedHypergraph.Proofs.Parts
import TypedHypergraph.Proofs.Refusals

namespace TypedHypergraph

/-- The content that a description stands for, if its type is known and its members are the atoms
that a table gives for them. -/
def Description.contentUnder (types : TypeTree) (f : Description → Handle) :
    Description → Option Content
  | .node typeName name => (types.get? typeName).map (.node · name)
  | .link typeName members => (types.get? typeName).map (.link · (members.map f))
  | .stored _ => none

/-- A content over other handles. -/
def Content.rename (ρ : Handle → Handle) : Content → Content
  | .node type name => .node type name
  | .link type members => .link type (members.map ρ)

/-- Renaming the members of an atom leaves its type. -/
theorem Content.type_rename (ρ : Handle → Handle) (c : Content) : (c.rename ρ).type = c.type := by
  cases c <;> rfl

/-- The members of a renamed atom are the renamed members. -/
theorem Content.members_rename (ρ : Handle → Handle) (c : Content) :
    (c.rename ρ).members = c.members.map ρ := by
  cases c <;> rfl

/-- A renaming that is one-to-one on the members of two contents does not confuse them. -/
theorem Content.rename_injective {ρ : Handle → Handle} {S : Set Handle} (inj : S.InjOn ρ)
    {c c' : Content} (hc : ∀ m ∈ c.members, m ∈ S) (hc' : ∀ m ∈ c'.members, m ∈ S)
    (same : c.rename ρ = c'.rename ρ) : c = c' := by
  cases c with
  | node type name => cases c' <;> cases same; rfl
  | link type ms =>
    cases c' with
    | node type' name' => cases same
    | link type' ms' =>
      rw [rename, rename, Content.link.injEq] at same
      have renamed : ∀ xs : List Handle, List.Forall₂ (ρ · = ·) xs (xs.map ρ) := by
        intro xs
        rw [List.forall₂_map_right_iff, List.forall₂_same]
        exact fun _ _ => rfl
      have members : ms = ms' := by
        apply Guards.eq_of_forall₂ (renamed ms) (same.2 ▸ renamed ms')
        intro m hm m' hm' x _ hx hx'
        exact inj (hc m hm) (hc' m' hm') (hx.trans hx'.symm)
      rw [same.1, members]

namespace Graph

variable {digest : Content → UInt64} {g g' : Graph digest}

/-- Insert descriptions one after the other, without truth values. -/
def batch (g : Graph digest) (ds : List Description) : Graph digest :=
  g.run (ds.map (.insert · none))

/-! ## What a batch stores -/

/-- A batch only ever adds atoms; each of its descriptions denotes one, and what is new is denoted
by a part. -/
structure Batched (g : Graph digest) (ds : List Description) (g' : Graph digest) : Prop where
  gains : Gains g g'
  denoted : ∀ d ∈ ds, ∃ h, d.Denotes g' h
  new : ∀ h, g'.contains h → g.contains h ∨ ∃ p ∈ Description.allParts ds, p.Denotes g' h

/-- **A batch** of descriptions that are accepted stores their parts. -/
theorem Reachable.batched (hg : g.Reachable) {ds : List Description}
    (free : ∀ d ∈ ds, d.HandleFree) (accepted : ∀ d ∈ ds, (g.resolve 0 d).isOk)
    (room : (g.batch ds).HandlesLeft) : g.Batched ds (g.batch ds) := by
  induction ds generalizing g with
  | nil => exact ⟨.refl g, by simp, fun _ hh => .inl hh⟩
  | cons d ds ih =>
    rw [List.forall_mem_cons] at free accepted
    obtain ⟨r, hr⟩ : ∃ r, g.resolve 0 d = .ok r := by
      cases hr : g.resolve 0 d with
      | error refusal => simp [hr, Except.isOk, Except.toBool] at accepted
      | ok r => exact ⟨r, rfl⟩
    have ht := hg.typesMakeSense.wellFormed
    -- the first description is stored, and the rest is a batch for the graph that this gives
    have step : g.apply (.insert d none) = (g.store r).2 := by
      show after (insert d none) g = _
      rw [after, insert_eq ht, hr]
      rfl
    have whole : g.batch (d :: ds) = (g.store r).2.batch ds := by
      rw [← step]
      rfl
    have hg₁ : (g.store r).2.Reachable := by
      rw [← step]
      exact hg.run [.insert d none]
    rw [whole] at room ⊢
    have room₁ := room_of_changes (changes_run hg₁.typesMakeSense _) room
    have fits := resolve_fits ht d hr
    have coherent :=
      hg.coherent (room_of_changes (stores_store r g fits).1.changes room₁)
    have gain := (coherent.gains_store r fits room₁).1
    have rest : (g.store r).2.Batched ds ((g.store r).2.batch ds) := by
      refine ih hg₁ free.2 ?_ room
      intro d' hd'
      rw [resolve_congr gain.types (free.2 d' hd')]
      exact accepted.2 d' hd'
    have first := Resolved.Denotes.of_resolve gain.types d hr (denotes_store r coherent fits room₁)
    refine ⟨gain.trans rest.gains, ?denoted, ?new⟩
    case denoted =>
      rw [List.forall_mem_cons]
      exact ⟨⟨_, first.mono rest.gains.types rest.gains.content?⟩, rest.denoted⟩
    case new =>
      intro h hh
      rw [Description.allParts]
      rcases rest.new h hh with old | ⟨p, hp, hd⟩
      · rcases coherent.denoted_store d rfl hr fits room₁ h old with old | ⟨p, hp, hd⟩
        · exact .inl old
        · have later := hd.mono rest.gains.types rest.gains.content?
          exact .inr ⟨p, List.mem_append_left _ hp, later⟩
      · exact .inr ⟨p, List.mem_append_right _ hp, hd⟩

/-! ## Spelling -/

/-- The atoms are the different parts of some descriptions, one for each: the atom of a node has
its type and its name, and the atom of a link has its type and the atoms of its members. -/
structure Spells (g : Graph digest) (ds : List Description) (f : Description → Handle) :
    Prop where
  bijective : Set.BijOn f {p | p ∈ Description.allParts ds} {h | g.contains h}
  content? : ∀ p ∈ Description.allParts ds, g.content? (f p) = p.contentUnder g.types f

/-- An atom that a description denotes has the content that the description stands for. -/
theorem content?_of_denotes (hg : g.Covered) {p : Description} {f : Description → Handle}
    (free : p.HandleFree) (hf : ∀ q ∈ p.parts, q.Denotes g (f q)) :
    g.content? (f p) = p.contentUnder g.types f := by
  have itself := hf p p.mem_parts_self
  cases p with
  | node typeName name =>
    rw [Description.Denotes] at itself
    obtain ⟨type, hn, hc⟩ := itself
    rw [hc, Description.contentUnder, hn, Option.map_some]
  | link typeName members =>
    rw [Description.Denotes] at itself
    obtain ⟨type, ms, hn, hms, hc⟩ := itself
    have eachOne : ∀ m ∈ members, m.Denotes g (f m) := fun m hm =>
      hf m (Description.mem_parts_link.mpr (.inr ⟨m, hm, m.mem_parts_self⟩))
    rw [hc, Description.contentUnder, hn, Option.map_some, hms.eq_map hg eachOne]
  | stored m => exact absurd (Description.mem_parts_self _) (free m)

/-- **In a graph without atoms** a batch spells its descriptions. -/
theorem Batched.exists_spells {ds : List Description} (batched : g.Batched ds g')
    (hollow : ∀ h, ¬ g.contains h) (free : ∀ d ∈ ds, d.HandleFree) (hg' : g'.Covered)
    (ht' : g'.types.WellFormed) : ∃ f, g'.Spells ds f := by
  have denoted : ∀ p ∈ Description.allParts ds, ∃ h, p.Denotes g' h := by
    intro p hp
    obtain ⟨d, hd, hp⟩ := Description.mem_allParts.mp hp
    obtain ⟨h, hh⟩ := batched.denoted d hd
    exact hh.exists_of_mem_parts hp
  have free' : ∀ p ∈ Description.allParts ds, p.HandleFree := by
    intro p hp
    obtain ⟨d, hd, hp⟩ := Description.mem_allParts.mp hp
    exact (free d hd).of_mem_parts hp
  choose! f hf using denoted
  refine ⟨f, ⟨?mapsTo, ?injOn, ?surjOn⟩, ?content⟩
  case mapsTo =>
    intro p hp
    exact (hf p hp).contains
  case injOn =>
    intro p hp q hq same
    have hd := hf q hq
    rw [← same] at hd
    exact (hf p hp).injective ht' (free' p hp) (free' q hq) hd
  case surjOn =>
    intro h hh
    obtain ⟨p, hp, hd⟩ := (batched.new h hh).resolve_left (hollow h)
    exact ⟨p, hp, (hf p hp).unique hg' hd⟩
  case content =>
    intro p hp
    obtain ⟨d, hd, hpart⟩ := Description.mem_allParts.mp hp
    refine content?_of_denotes hg' (free' p hp) fun q hq => hf q ?_
    exact Description.mem_allParts.mpr ⟨d, hd, Description.mem_parts_trans hpart hq⟩

/-! ## Renaming -/

/-- Two graphs are equal up to the names of their atoms: types, contents, truth values and what the
three indices tell of the atoms. -/
structure Renames (ρ : Handle → Handle) (g g' : Graph digest) : Prop where
  types : g'.types = g.types
  bijective : Set.BijOn ρ {h | g.contains h} {h | g'.contains h}
  content? : ∀ h, g.contains h → g'.content? (ρ h) = (g.content? h).map (Content.rename ρ)
  truth? : ∀ h, g.contains h → g'.truth? (ρ h) = g.truth? h
  byType : ∀ type h, g.contains h →
    (g'.byType.contains type (ρ h) ↔ g.byType.contains type h)
  lookup : ∀ c : Content, (∀ m ∈ c.members, g.contains m) →
    g'.lookup (c.rename ρ) = (g.lookup c).map ρ
  lists : ∀ link m, g.contains link → g.contains m →
    (g'.incidence.Lists (ρ link) (ρ m) ↔ g.incidence.Lists link m)

/-- **Where the atoms are equal up to their names**, so are the indices. -/
theorem Renames.of_atoms {ρ : Handle → Handle} (hg : g.Coherent) (hg' : g'.Coherent)
    (types : g'.types = g.types)
    (bijective : Set.BijOn ρ {h | g.contains h} {h | g'.contains h})
    (contents : ∀ h, g.contains h → g'.content? (ρ h) = (g.content? h).map (Content.rename ρ))
    (truths : ∀ h, g.contains h → g'.truth? (ρ h) = g.truth? h) : Renames ρ g g' where
  types := types
  bijective := bijective
  content? := contents
  truth? := truths
  byType type h stored := by
    obtain ⟨c, hc⟩ := (g.contains_iff h).mp stored
    rw [hg'.byType, hg.byType, contents h stored, hc]
    simp [Content.type_rename]
  lookup c stored := by
    rw [Option.ext_iff]
    intro x
    rw [hg'.lookup_iff, Option.map_eq_some_iff]
    simp only [hg.lookup_iff]
    constructor
    · intro hx
      obtain ⟨h, hh, rfl⟩ := bijective.surjOn (contains_of_content? hx)
      obtain ⟨c', hc'⟩ := (g.contains_iff h).mp hh
      rw [contents h hh, hc', Option.map_some, Option.some.injEq] at hx
      -- on stored members the renaming is injective, so the atom found is the one renamed
      have members : ∀ m ∈ c'.members, g.contains m := fun m hm => (hg.member h c' hc' m hm).1
      rw [Content.rename_injective bijective.injOn members stored hx] at hc'
      exact ⟨h, hc', rfl⟩
    · rintro ⟨h, hc, rfl⟩
      rw [contents h (contains_of_content? hc), hc, Option.map_some]
  lists link m hlink hm := by
    obtain ⟨c, hc⟩ := (g.contains_iff link).mp hlink
    rw [hg'.lists, hg.lists, contents link hlink, hc]
    simp only [Option.map_some, Option.some.injEq, exists_eq_left', Content.members_rename,
      List.mem_map]
    constructor
    · rintro ⟨x, hx, same⟩
      have stored := (hg.member link c hc x hx).1
      rwa [bijective.injOn stored hm same] at hx
    · intro hmem
      exact ⟨m, hmem, rfl⟩

/-- **Graphs that spell the same parts** are equal up to a renaming. -/
theorem Spells.exists_renames {ds ds' : List Description} {f f' : Description → Handle}
    (spells : g.Spells ds f) (spells' : g'.Spells ds' f')
    (same : ∀ p, p ∈ Description.allParts ds' ↔ p ∈ Description.allParts ds)
    (hg : g.Coherent) (hg' : g'.Coherent) (types : g'.types = g.types)
    (unknown : ∀ h, g.truth? h = none) (unknown' : ∀ h, g'.truth? h = none) :
    ∃ ρ, Renames ρ g g' := by
  obtain ⟨bijective', content'⟩ := spells'
  simp only [same] at bijective' content'
  have inverse := spells.bijective.invOn_invFunOn
  let back := Function.invFunOn f {p | p ∈ Description.allParts ds}
  -- an atom is renamed by way of the part that it is the atom of
  let ρ := f' ∘ back
  have hρ : ∀ p ∈ Description.allParts ds, ρ (f p) = f' p := fun p hp =>
    congrArg f' (inverse.1 hp)
  refine ⟨ρ, .of_atoms hg hg' types ?bijective ?contents ?truths⟩
  case bijective =>
    exact bijective'.comp (spells.bijective.symm inverse.symm)
  case contents =>
    intro h hh
    obtain ⟨p, hp, rfl⟩ := spells.bijective.surjOn hh
    rw [hρ p hp, content' p hp, spells.content? p hp, types]
    cases p with
    | node typeName name =>
      simp only [Description.contentUnder, Option.map_map]
      rfl
    | link typeName members =>
      have renamed : members.map f' = (members.map f).map ρ := by
        rw [List.map_map]
        apply List.map_congr_left
        intro m hm
        obtain ⟨d, hd, hpart⟩ := Description.mem_allParts.mp hp
        refine (hρ m (Description.mem_allParts.mpr ⟨d, hd, ?_⟩)).symm
        refine Description.mem_parts_trans hpart ?_
        exact Description.mem_parts_link.mpr (.inr ⟨m, hm, m.mem_parts_self⟩)
      simp only [Description.contentUnder, Option.map_map, renamed]
      rfl
    | stored m => rfl
  case truths =>
    intro h _
    rw [unknown, unknown']

/-! ## Counting -/

/-- Between two numbers there are as many handles as their difference. -/
theorem ncard_handles (a b : Nat) : {h : Handle | a ≤ h.value ∧ h.value < b}.ncard = b - a := by
  have image : {h : Handle | a ≤ h.value ∧ h.value < b}
      = Handle.mk '' (Finset.Ico a b : Set ℕ) := by
    ext h
    rw [Finset.coe_Ico]
    constructor
    · intro hh
      exact ⟨h.value, hh, rfl⟩
    · rintro ⟨n, hn, rfl⟩
      exact hn
  rw [image, Set.ncard_image_of_injective _ fun _ _ heq => by cases heq; rfl,
    Set.ncard_coe_finset, Nat.card_Ico]

/-- A graph that held no atoms has as many of them as handles were given out. -/
theorem Gains.ncard_contains (gain : Gains g g') (hollow : ∀ h, ¬ g.contains h) :
    {h | g'.contains h}.ncard = g'.nextHandle - g.nextHandle := by
  rw [← ncard_handles]
  congr 1
  ext h
  exact (gain.contains h).trans (or_iff_right (hollow h))

/-! ## Order and repetition -/

/-- What comes of a batch: its descriptions are spelled, and any batch of the same descriptions
leads to the same graph, up to the names of the atoms, in every graph without atoms that has the
same types. -/
structure BatchSpells (g : Graph digest) (ds : List Description) : Prop where
  types : (g.batch ds).types = g.types
  spelled : ∃ f, (g.batch ds).Spells ds f
  alike : ∀ (g₂ : Graph digest) (ds₂ : List Description), g₂.Reachable → (∀ h, ¬ g₂.contains h) →
    g₂.types = g.types → (∀ d, d ∈ ds₂ ↔ d ∈ ds) →
      (g₂.batch ds₂).HandlesLeft →
        (∃ ρ, Renames ρ (g.batch ds) (g₂.batch ds₂)) ∧
          (g₂.batch ds₂).nextHandle - g₂.nextHandle = (g.batch ds).nextHandle - g.nextHandle

/-- **A batch of accepted descriptions** in a graph without atoms stores each of their parts once,
in whatever order the descriptions come and however often, as long as there are handles left. -/
theorem Reachable.batch_spells (hg : g.Reachable) (hollow : ∀ h, ¬ g.contains h)
    {ds : List Description} (free : ∀ d ∈ ds, d.HandleFree)
    (accepted : ∀ d ∈ ds, ∃ outcome g', insert d none g = .ok outcome g')
    (room : (g.batch ds).HandlesLeft) : g.BatchSpells ds := by
  have resolved : ∀ d ∈ ds, (g.resolve 0 d).isOk := fun d hd =>
    (exists_insert_iff hg.typesMakeSense.wellFormed).mp (accepted d hd)
  have reached : (g.batch ds).Reachable := hg.run _
  have batched := hg.batched free resolved room
  obtain ⟨f, spells⟩ := batched.exists_spells hollow free reached.covered
    reached.typesMakeSense.wellFormed
  refine ⟨batched.gains.types, ⟨f, spells⟩, ?_⟩
  intro g₂ ds₂ hg₂ hollow₂ types₂ same room₂
  have free₂ : ∀ d ∈ ds₂, d.HandleFree := fun d hd => free d ((same d).mp hd)
  have reached₂ : (g₂.batch ds₂).Reachable := hg₂.run _
  have batched₂ : g₂.Batched ds₂ (g₂.batch ds₂) := by
    refine hg₂.batched free₂ ?_ room₂
    intro d hd
    rw [resolve_congr types₂ (free₂ d hd)]
    exact resolved d ((same d).mp hd)
  obtain ⟨f₂, spells₂⟩ := batched₂.exists_spells hollow₂ free₂ reached₂.covered
    reached₂.typesMakeSense.wellFormed
  have parts : ∀ p, p ∈ Description.allParts ds₂ ↔ p ∈ Description.allParts ds := by
    intro p
    simp only [Description.mem_allParts, same]
  obtain ⟨ρ, renames⟩ : ∃ ρ, Renames ρ (g.batch ds) (g₂.batch ds₂) := by
    apply spells.exists_renames spells₂ parts (reached.coherent room) (reached₂.coherent room₂)
    · rw [batched₂.gains.types, batched.gains.types, types₂]
    · intro h
      rw [batched.gains.truth?, truth?_of_not_contains (hollow h)]
    · intro h
      rw [batched₂.gains.truth?, truth?_of_not_contains (hollow₂ h)]
  refine ⟨⟨ρ, renames⟩, ?_⟩
  rw [← batched₂.gains.ncard_contains hollow₂, ← batched.gains.ncard_contains hollow,
    renames.bijective.ncard_eq]

/-- Descriptions that share parts with each other and within themselves, in another order and
partly twice, after an atom was removed. -/
theorem batch_spells_of_shared_parts :
    let g := (empty : Graph fun _ => 0).run
      [.declareType "Word" (some "Node"), .addNode "Word" "a", .remove ⟨0⟩]
    let inner := Description.link "Link" [.node "Word" "a", .node "Node" "a", .node "Word" "a"]
    let ds := [.link "Link" [inner, .node "Node" "b", inner], .node "Node" "b"]
    let ds₂ := [.node "Node" "b", .link "Link" [inner, .node "Node" "b", inner], .node "Node" "b"]
    g.BatchSpells ds ∧ (g.batch ds).handles = [⟨1⟩, ⟨2⟩, ⟨3⟩, ⟨4⟩, ⟨5⟩] ∧
      (g.batch ds).content? ⟨5⟩ = some (.link .link [⟨3⟩, ⟨4⟩, ⟨3⟩]) ∧
      (∃ ρ, Renames ρ (g.batch ds) (g.batch ds₂)) ∧
      (g.batch ds₂).content? ⟨5⟩ = some (.link .link [⟨4⟩, ⟨1⟩, ⟨4⟩]) := by
  intro g inner ds ds₂
  have hg : g.Reachable := ⟨_, rfl⟩
  have none : g.handles = [] := by decide +kernel
  have hollow : ∀ h, ¬ g.contains h := by
    intro h hh
    rw [← mem_handles, none] at hh
    cases hh
  have spells : g.BatchSpells ds := by
    apply hg.batch_spells hollow
    · simp [ds, inner, Description.HandleFree, Description.parts, Description.allParts]
    · simp only [exists_insert_iff hg.typesMakeSense.wellFormed]
      decide +kernel
    · decide +kernel
  have alike := spells.alike g ds₂ hg hollow rfl (by simp [ds, ds₂, or_comm]) (by decide +kernel)
  exact ⟨spells, by decide +kernel, by decide +kernel, alike.1, by decide +kernel⟩

end Graph

end TypedHypergraph
