/-
# Slots and the variables they number

The slots of a plan *describe* the occurrences of variables that have been met
(`Describes`): each name has one slot, and the type of the slot is the type that is written at any
of the occurrences of its name.  Later occurrences bring new slots and types but leave every name
its number (`Grows`).
-/
import TypedHypergraph.Proofs.Guards
import TypedHypergraph.Proofs.Solutions
import TypedHypergraph.Proofs.TypeGrowth
import TypedHypergraph.Plan.Compile

namespace TypedHypergraph

variable {digest : Content → UInt64} {g : Graph digest}

/-! ## Numbers of names -/

/-- Every name keeps its number. -/
def Grows (slots slots' : List Slot) : Prop := slots.map (·.name) <+: slots'.map (·.name)

theorem Grows.refl (slots : List Slot) : Grows slots slots := List.prefix_refl _

theorem Grows.trans {a b c : List Slot} (h : Grows a b) (h' : Grows b c) : Grows a c :=
  List.IsPrefix.trans h h'

/-- Slots with the same names count as grown. -/
theorem Grows.of_eq {a b : List Slot} (h : b.map (·.name) = a.map (·.name)) : Grows a b := by
  unfold Grows
  rw [h]

/-- To give a slot a type does not change names. -/
theorem names_modify (slots : List Slot) (i : Nat) (type : Option TypeId) :
    (slots.modify i fun s => { s with type }).map (·.name) = slots.map (·.name) := by
  apply List.ext_getElem?
  intro j
  rw [List.getElem?_map, List.getElem?_map, List.getElem?_modify]
  cases slots[j]? with
  | none => rfl
  | some s =>
    by_cases hij : i = j
    · simp [hij]
    · simp [hij]

/-- The slot of a name is the first one with this name. -/
theorem slotOf?_eq (slots : List Slot) (name : String) :
    slotOf? slots name = (slots.map (·.name)).findIdx? (· = name) := by
  rw [slotOf?, List.findIdx?_map]
  rfl

/-- A name has no slot exactly if no slot is named so. -/
theorem slotOf?_eq_none {slots : List Slot} {name : String} :
    slotOf? slots name = none ↔ name ∉ slots.map (·.name) := by
  rw [slotOf?_eq, List.findIdx?_eq_none_iff]
  constructor
  · intro h hmem
    simpa using h name hmem
  · intro h x hx
    rw [decide_eq_false_iff_not]
    rintro rfl
    exact h hx

/-- The slot of a name stays the same when slots grow. -/
theorem slotOf?_of_grows {slots slots' : List Slot} (h : Grows slots slots') {name : String}
    {i : Nat} (hi : slotOf? slots name = some i) : slotOf? slots' name = some i := by
  obtain ⟨more, hmore⟩ := h
  rw [slotOf?_eq] at hi ⊢
  rw [← hmore, List.findIdx?_append, hi]
  rfl

/-- Where names are different, the slot of a name is the one that bears it. -/
theorem slotOf?_eq_some {slots : List Slot} (nodup : (slots.map (·.name)).Nodup) {name : String}
    {i : Nat} : slotOf? slots name = some i ↔ ∃ s, slots[i]? = some s ∧ s.name = name := by
  rw [slotOf?, List.findIdx?_eq_some_iff_getElem]
  constructor
  · rintro ⟨hi, hname, -⟩
    exact ⟨slots[i], List.getElem?_eq_getElem hi, by simpa using hname⟩
  · rintro ⟨s, hs, rfl⟩
    obtain ⟨hi, rfl⟩ := List.getElem?_eq_some_iff.mp hs
    refine ⟨hi, by simp, ?_⟩
    intro j hj hname
    have hne := (List.nodup_iff_getElem?_ne_getElem?.mp nodup) j i hj (by simpa using hi)
    apply hne
    rw [List.getElem?_map, List.getElem?_map, List.getElem?_eq_getElem hi,
      List.getElem?_eq_getElem (hj.trans hi), Option.map_some, Option.map_some]
    rw [decide_eq_true_eq] at hname
    rw [hname]

/-! ## Types of slots -/

/-- The type that is written at an occurrence of a variable. -/
def Variable.Restricts (g : Graph digest) (v : Variable) (type : TypeId) : Prop :=
  ∃ typeName, v.typeName = some typeName ∧ g.types.get? typeName = some type

/-- A restriction that resolves is the one type that the variable is restricted to. -/
theorem resolveRestriction_eq_ok {v : Variable} {type : Option TypeId}
    (h : g.resolveRestriction v.typeName = .ok type) :
    (∀ t, v.Restricts g t ↔ type = some t) ∧
      ∀ typeName, v.typeName = some typeName → ∃ t, g.types.get? typeName = some t := by
  unfold Variable.Restricts
  cases hv : v.typeName with
  | none =>
    rw [hv] at h
    cases h
    simp
  | some typeName =>
    rw [hv, Graph.resolveRestriction, Guards.map_eq_ok] at h
    obtain ⟨t, ht, rfl⟩ := h
    rw [TypeTree.resolve_eq_ok] at ht
    constructor
    · intro t'
      simp [ht]
    · rintro _ ⟨⟩
      exact ⟨t, ht⟩

/-- Slots tell what the occurrences of variables say. -/
structure Describes (g : Graph digest) (vars : List Variable) (slots : List Slot) : Prop where
  nodup : (slots.map (·.name)).Nodup
  names : ∀ name, name ∈ slots.map (·.name) ↔ ∃ v ∈ vars, v.name = name
  types : ∀ s ∈ slots, ∀ type, s.type = some type ↔
    ∃ v ∈ vars, v.name = s.name ∧ v.Restricts g type
  declared : ∀ v ∈ vars, ∀ typeName, v.typeName = some typeName →
    ∃ type, g.types.get? typeName = some type

/-- No slots describe no variables. -/
theorem describes_nil : Describes g [] [] where
  nodup := List.nodup_nil
  names := by simp
  types := by simp
  declared := by simp

/-! ## Numbering one more occurrence -/

namespace Describes

variable {vars : List Variable} {slots : List Slot}

/-- With a variable whose type is declared, the types of all variables are declared still. -/
theorem declared_append (h : Describes g vars slots) {v : Variable}
    (hv : ∀ typeName, v.typeName = some typeName → ∃ type, g.types.get? typeName = some type) :
    ∀ w ∈ vars ++ [v], ∀ typeName, w.typeName = some typeName →
      ∃ type, g.types.get? typeName = some type := by
  intro w hw
  rcases List.mem_append.mp hw with hw | hw
  · exact h.declared w hw
  · rw [List.mem_singleton.mp hw]
    exact hv

/-- A new name gets a new slot. -/
theorem push (h : Describes g vars slots) {v : Variable} {type : Option TypeId}
    (htype : ∀ t, v.Restricts g t ↔ type = some t)
    (hdeclared : ∀ typeName, v.typeName = some typeName →
      ∃ t, g.types.get? typeName = some t) (hnew : v.name ∉ slots.map (·.name)) :
    Describes g (vars ++ [v]) (slots ++ [⟨v.name, type⟩]) where
  nodup := by
    rw [List.map_append, List.nodup_append]
    refine ⟨h.nodup, List.nodup_singleton _, ?_⟩
    intro name hname other hother heq
    rw [List.map_singleton, List.mem_singleton] at hother
    rw [heq, hother] at hname
    exact hnew hname
  names := by
    intro name
    rw [List.map_append, List.mem_append, h.names]
    simp [or_and_right, exists_or, eq_comm]
  types := by
    intro s hs t
    rcases List.mem_append.mp hs with hs | hs
    · have hne : v.name ≠ s.name := by
        intro heq
        exact hnew (heq ▸ List.mem_map_of_mem hs)
      rw [h.types s hs t]
      simp [or_and_right, exists_or, hne]
    · rw [List.mem_singleton.mp hs, ← htype]
      constructor
      · intro hr
        exact ⟨v, by simp, rfl, hr⟩
      · rintro ⟨w, hw, hname, hr⟩
        rcases List.mem_append.mp hw with hw | hw
        · exact absurd ((h.names v.name).mpr ⟨w, hw, hname⟩) hnew
        · rw [← List.mem_singleton.mp hw]
          exact hr
  declared := h.declared_append hdeclared

/-- An old name keeps its slot, which may get the type that it did not have. -/
theorem old (h : Describes g vars slots) {v : Variable} {slots' : List Slot}
    (hdeclared : ∀ typeName, v.typeName = some typeName →
      ∃ t, g.types.get? typeName = some t)
    (hnames : slots'.map (·.name) = slots.map (·.name)) (hold : v.name ∈ slots.map (·.name))
    (htypes : ∀ s' ∈ slots', ∃ s ∈ slots, s.name = s'.name ∧
      ∀ t, s'.type = some t ↔ s.type = some t ∨ v.name = s.name ∧ v.Restricts g t) :
    Describes g (vars ++ [v]) slots' where
  nodup := by
    rw [hnames]
    exact h.nodup
  names := by
    intro name
    rw [hnames, h.names]
    constructor
    · rintro ⟨w, hw, hname⟩
      exact ⟨w, by simp [hw], hname⟩
    · rintro ⟨w, hw, rfl⟩
      rcases List.mem_append.mp hw with hw | hw
      · exact ⟨w, hw, rfl⟩
      · rw [List.mem_singleton.mp hw]
        exact (h.names v.name).mp hold
  types := by
    intro s' hs' t
    obtain ⟨s, hs, hname, htype⟩ := htypes s' hs'
    rw [htype, h.types s hs t, ← hname]
    simp [or_and_right, exists_or]
  declared := h.declared_append hdeclared

section Old

variable {v : Variable} {s : Slot} {i : Nat}

/-- The slots stay as they are if the slot of an old name says what its new occurrence says. -/
theorem keep (h : Describes g vars slots)
    (hdeclared : ∀ typeName, v.typeName = some typeName →
      ∃ t, g.types.get? typeName = some t)
    (hs : slots[i]? = some s) (hname : s.name = v.name)
    (said : ∀ t, v.Restricts g t → s.type = some t) : Describes g (vars ++ [v]) slots := by
  have hmem : s ∈ slots := List.mem_of_getElem? hs
  apply h.old hdeclared rfl
  · rw [← hname]
    exact List.mem_map_of_mem hmem
  · intro s' hs'
    refine ⟨s', hs', rfl, ?_⟩
    intro t
    constructor
    · exact .inl
    · rintro (ht | ⟨hname', ht⟩)
      · exact ht
      · -- another slot has another name
        have only : s' = s :=
          List.inj_on_of_nodup_map h.nodup hs' hmem (by rw [← hname', hname])
        rw [only]
        exact said t ht

/-- The slot of an old name without a type gets the type of its new occurrence. -/
theorem annotate (h : Describes g vars slots)
    (hdeclared : ∀ typeName, v.typeName = some typeName →
      ∃ t, g.types.get? typeName = some t)
    (hs : slots[i]? = some s) (hname : s.name = v.name) (untyped : s.type = none)
    {type : Option TypeId} (htype : ∀ t, v.Restricts g t ↔ type = some t) :
    Describes g (vars ++ [v]) (slots.modify i fun s => { s with type }) := by
  apply h.old hdeclared (names_modify _ _ _)
  · rw [← hname]
    exact List.mem_map_of_mem (List.mem_of_getElem? hs)
  · intro s' hs'
    obtain ⟨k, hk⟩ := List.mem_iff_getElem?.mp hs'
    rw [List.getElem?_modify, Option.map_eq_map, Option.map_eq_some_iff] at hk
    obtain ⟨s₁, hs₁, rfl⟩ := hk
    by_cases hik : i = k
    · subst hik
      rw [hs, Option.some.injEq] at hs₁
      subst hs₁
      refine ⟨s, List.mem_of_getElem? hs, by simp, ?_⟩
      intro t
      simp [untyped, htype, hname]
    · refine ⟨s₁, List.mem_of_getElem? hs₁, by simp [hik], ?_⟩
      intro t
      have hne : v.name ≠ s₁.name := by
        intro heq
        have hi := (slotOf?_eq_some h.nodup).mpr ⟨s, hs, hname⟩
        have hk := (slotOf?_eq_some h.nodup).mpr ⟨s₁, hs₁, heq.symm⟩
        rw [hi, Option.some.injEq] at hk
        exact hik hk
      simp [hne, hik]

end Old

/-- **Numbering an occurrence** of a variable keeps the numbers of all names, gives the number of
its name, and takes note of its type. -/
theorem bindSlot (h : Describes g vars slots) {v : Variable} {type : Option TypeId}
    (htype : g.resolveRestriction v.typeName = .ok type) {i : Nat} {slots' : List Slot}
    (hbind : TypedHypergraph.bindSlot slots v.name type = .ok (i, slots')) :
    Grows slots slots' ∧ Describes g (vars ++ [v]) slots' ∧ slotOf? slots' v.name = some i := by
  obtain ⟨hrestricts, hdeclared⟩ := resolveRestriction_eq_ok htype
  unfold TypedHypergraph.bindSlot at hbind
  cases hslot : slotOf? slots v.name with
  | none =>
    rw [hslot] at hbind
    cases hbind
    -- the name is new
    have described := h.push hrestricts hdeclared (slotOf?_eq_none.mp hslot)
    refine ⟨⟨[v.name], by simp⟩, described, ?_⟩
    rw [slotOf?_eq_some described.nodup]
    exact ⟨⟨v.name, type⟩, by simp, rfl⟩
  | some j =>
    obtain ⟨s, hs, hname⟩ := (slotOf?_eq_some h.nodup).mp hslot
    rw [hslot] at hbind
    simp only [hs, Option.bind_some] at hbind
    -- what the slot says and what the occurrence says must not differ
    cases type with
    | none =>
      have said : ∀ t, v.Restricts g t → s.type = some t := by
        intro t ht
        cases (hrestricts t).mp ht
      have unchanged : i = j ∧ slots' = slots := by
        cases hst : s.type <;> rw [hst] at hbind <;> cases hbind <;> exact ⟨rfl, rfl⟩
      obtain ⟨rfl, rfl⟩ := unchanged
      exact ⟨.refl _, h.keep hdeclared hs hname said, hslot⟩
    | some b =>
      cases hst : s.type with
      | none =>
        rw [hst] at hbind
        cases hbind
        refine ⟨Grows.of_eq (names_modify _ _ _), h.annotate hdeclared hs hname hst hrestricts, ?_⟩
        rw [slotOf?_eq, names_modify, ← slotOf?_eq]
        exact hslot
      | some a =>
        rw [hst] at hbind
        simp only at hbind
        split at hbind
        · rename_i hab
          subst hab
          cases hbind
          have said : ∀ t, v.Restricts g t → s.type = some t := by
            intro t ht
            rw [hst]
            exact (hrestricts t).mp ht
          exact ⟨.refl _, h.keep hdeclared hs hname said, hslot⟩
        · cases hbind

end Describes

end TypedHypergraph
