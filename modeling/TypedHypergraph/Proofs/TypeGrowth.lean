/-
# How trees of types grow

A tree of types is *well formed* if its three tables tell the same story: identifiers are the
places of the entries, names and identifiers determine each other, a parent is declared before
its children, and the children of a type are those that name it as their parent.

* `WellFormed.declare` : declaring a type, again or for the first time, keeps a tree well formed;
* `Extends.declare` : it only ever appends to the list of entries;
* `Extends.name?`, `Extends.parent?`, `Extends.get?` : what a tree says of its types stays true.
-/
import Mathlib.Tactic
import TypedHypergraph.TypeTree

namespace TypedHypergraph

namespace TypeTree

/-- The three tables of a tree of types agree. -/
structure WellFormed (t : TypeTree) : Prop where
  offspring_size : t.offspring.size = t.entries.size
  entry_id : ∀ (i : Nat) (e : TypeEntry), t.entries[i]? = some e → e.id = ⟨i⟩
  get?_iff : ∀ (name : String) (id : TypeId), t.get? name = some id ↔ t.name? id = some name
  parent_lt : ∀ id p : TypeId, t.parent? id = some p → p < id
  mem_children : ∀ id child : TypeId, child ∈ t.children id ↔ t.parent? child = some id
  children_ascending : ∀ id : TypeId, (t.children id).Pairwise (· < ·)
  orphan : ∀ id : TypeId, t.contains id → t.parent? id = none → id = .atom

/-! ## Registered types -/

/-- A type is declared exactly if its number is below the number of types. -/
theorem contains_iff (t : TypeTree) (id : TypeId) : t.contains id ↔ id.index < t.entries.size := by
  simp [contains]

/-- A type is registered exactly if it has a name. -/
theorem contains_iff_name? (t : TypeTree) (id : TypeId) :
    t.contains id ↔ ∃ name, t.name? id = some name := by
  rw [contains_iff, name?]
  constructor
  · intro h
    rw [Array.getElem?_eq_getElem h]
    exact ⟨_, rfl⟩
  · rintro ⟨name, h⟩
    obtain ⟨e, he, -⟩ := Option.map_eq_some_iff.mp h
    exact (Array.getElem?_eq_some_iff.mp he).1

/-- Only registered types have a parent. -/
theorem contains_of_parent? {t : TypeTree} {id p : TypeId} (h : t.parent? id = some p) :
    t.contains id := by
  obtain ⟨e, he, -⟩ := Option.bind_eq_some_iff.mp h
  exact (t.contains_iff id).mpr (Array.getElem?_eq_some_iff.mp he).1

/-- What is not declared has no parent. -/
theorem parent?_of_not_contains {t : TypeTree} {id : TypeId} (h : ¬ t.contains id) :
    t.parent? id = none := by
  cases hp : t.parent? id with
  | none => rfl
  | some p => exact absurd (contains_of_parent? hp) h

/-- What is known of a type stands in its entry. -/
theorem WellFormed.getElem?_of_mem {t : TypeTree} (h : t.WellFormed) {e : TypeEntry}
    (he : e ∈ t.entries.toList) : t.entries[e.id.index]? = some e := by
  obtain ⟨i, hi⟩ := Array.mem_iff_getElem?.mp (Array.mem_toList_iff.mp he)
  rw [h.entry_id i e hi]
  exact hi

/-- A listed type has the name of its entry. -/
theorem WellFormed.name?_of_mem {t : TypeTree} (h : t.WellFormed) {e : TypeEntry}
    (he : e ∈ t.entries.toList) : t.name? e.id = some e.name := by
  rw [name?, h.getElem?_of_mem he, Option.map_some]

/-- A listed type has the parent of its entry. -/
theorem WellFormed.parent?_of_mem {t : TypeTree} (h : t.WellFormed) {e : TypeEntry}
    (he : e ∈ t.entries.toList) : t.parent? e.id = e.parent := by
  rw [parent?, h.getElem?_of_mem he, Option.bind_some]

/-- A parent is registered itself. -/
theorem WellFormed.contains_parent {t : TypeTree} (h : t.WellFormed) {id p : TypeId}
    (hp : t.parent? id = some p) : t.contains p := by
  have hid := (t.contains_iff id).mp (contains_of_parent? hp)
  have hlt : p.index < id.index := h.parent_lt id p hp
  exact (t.contains_iff p).mpr (hlt.trans hid)

/-- A name that resolves names a registered type. -/
theorem WellFormed.contains_of_get? {t : TypeTree} (h : t.WellFormed) {name : String}
    {id : TypeId} (hn : t.get? name = some id) : t.contains id :=
  (t.contains_iff_name? id).mpr ⟨name, (h.get?_iff name id).mp hn⟩

/-- A name resolves to the type that is declared under it. -/
theorem resolve_eq_ok {t : TypeTree} {name : String} {id : TypeId} :
    t.resolve name = .ok id ↔ t.get? name = some id := by
  unfold resolve
  cases t.get? name <;> simp

/-- A name is refused exactly if no type is declared under it. -/
theorem resolve_eq_error {t : TypeTree} {name : String} {r : Refusal} :
    t.resolve name = .error r ↔ t.get? name = none ∧ r = .typeUndeclared name := by
  unfold resolve
  cases t.get? name <;> simp [eq_comm]

/-! ## Appending a type -/

/-- A type that is pushed is the last entry. -/
theorem entries_push (t : TypeTree) (name : String) (parent : Option TypeId) :
    (t.push name parent).entries = t.entries.push ⟨t.nextId, name, parent⟩ := rfl

/-- A type that is pushed is found by its name. -/
theorem byName_push (t : TypeTree) (name : String) (parent : Option TypeId) :
    (t.push name parent).byName = t.byName.insert name t.nextId := rfl

/-- Pushing a type names the next identifier and no other. -/
theorem name?_push (t : TypeTree) (name : String) (parent : Option TypeId) (id : TypeId) :
    (t.push name parent).name? id = if id = t.nextId then some name else t.name? id := by
  rw [name?, name?, entries_push, Array.getElem?_push]
  by_cases h : id = t.nextId
  · subst h
    simp [nextId]
  · have hne : id.index ≠ t.entries.size := fun hi => h (by cases id; cases hi; rfl)
    rw [if_neg h, if_neg hne]

/-- Pushing a type gives a parent to the next identifier and no other. -/
theorem parent?_push (t : TypeTree) (name : String) (parent : Option TypeId) (id : TypeId) :
    (t.push name parent).parent? id = if id = t.nextId then parent else t.parent? id := by
  rw [parent?, parent?, entries_push, Array.getElem?_push]
  by_cases h : id = t.nextId
  · subst h
    simp [nextId]
  · have hne : id.index ≠ t.entries.size := fun hi => h (by cases id; cases hi; rfl)
    rw [if_neg h, if_neg hne]

/-- Pushing a type makes its name stand for it and changes no other name. -/
theorem get?_push (t : TypeTree) (name : String) (parent : Option TypeId) (other : String) :
    (t.push name parent).get? other = if name = other then some t.nextId else t.get? other := by
  rw [get?, get?, byName_push, Std.TreeMap.getElem?_insert]
  simp only [Std.compare_eq_iff_eq]

/-- Pushing a type makes one entry more. -/
theorem size_push (t : TypeTree) (name : String) (parent : Option TypeId) :
    (t.push name parent).entries.size = t.entries.size + 1 := by
  rw [entries_push, Array.size_push]

/-- Nothing is known yet of the identifier that comes next. -/
theorem name?_nextId (t : TypeTree) : t.name? t.nextId = none := by
  rw [name?, nextId, Array.getElem?_eq_none le_rfl]
  rfl

/-- The parent of an appended type gets it as its last child. -/
theorem children_push {t : TypeTree} (h : t.offspring.size = t.entries.size) (name : String)
    (parent : Option TypeId) (known : ∀ p, parent = some p → t.contains p) (id : TypeId) :
    (t.push name parent).children id
      = if parent = some id then t.children id ++ [t.nextId] else t.children id := by
  have old : ∀ i : Nat, ((t.offspring.push [])[i]?).getD [] = (t.offspring[i]?).getD [] := by
    intro i
    rw [Array.getElem?_push]
    split
    · rename_i hi
      rw [hi, Array.getElem?_eq_none le_rfl]
      rfl
    · rfl
  cases parent with
  | none => simp [children, push, old]
  | some p =>
    have hp : p.index < t.offspring.size := by rw [h]; exact (t.contains_iff p).mp (known p rfl)
    unfold children push
    simp only [Array.getElem?_modify, Option.some.injEq]
    by_cases hid : p = id
    · subst hid
      rw [if_pos rfl, if_pos rfl, Array.getElem?_push, if_neg hp.ne, Array.getElem?_eq_getElem hp]
      rfl
    · have hne : p.index ≠ id.index := fun hi => hid (by cases p; cases id; cases hi; rfl)
      rw [if_neg hid, if_neg hne, old]

/-- Children are registered, like everything that has a parent. -/
theorem WellFormed.lt_nextId_of_mem_children {t : TypeTree} (h : t.WellFormed) {id child : TypeId}
    (hc : child ∈ t.children id) : child < t.nextId := by
  have hp := (h.mem_children id child).mp hc
  exact (t.contains_iff child).mp (contains_of_parent? hp)

/-- **Appending** a type with a new name under a registered parent keeps a tree well formed; only
the first type of all may be without a parent. -/
theorem WellFormed.push {t : TypeTree} (h : t.WellFormed) {name : String} {parent : Option TypeId}
    (fresh : t.get? name = none) (known : ∀ p, parent = some p → t.contains p)
    (first : parent = none → t.nextId = .atom) : (t.push name parent).WellFormed where
  offspring_size := by
    rw [size_push]
    cases parent <;> simp [TypeTree.push, h.offspring_size]
  entry_id i e he := by
    rw [entries_push, Array.getElem?_push] at he
    split at he
    · rename_i hi
      cases he
      rw [hi]
      rfl
    · exact h.entry_id i e he
  get?_iff other id := by
    rw [get?_push, name?_push]
    by_cases hn : name = other
    · subst hn
      rw [if_pos rfl]
      by_cases hid : id = t.nextId
      · simp [hid]
      · have hnone : t.name? id ≠ some name := by
          rw [Ne, ← h.get?_iff, fresh]
          simp
        simp [hid, hnone, Ne.symm hid]
    · rw [if_neg hn, h.get?_iff]
      by_cases hid : id = t.nextId
      · simp [hid, hn, name?_nextId]
      · rw [if_neg hid]
  parent_lt id p hp := by
    rw [parent?_push] at hp
    split at hp
    · rename_i hid
      rw [hid]
      exact (t.contains_iff p).mp (known p hp)
    · exact h.parent_lt id p hp
  mem_children id child := by
    rw [children_push h.offspring_size name parent known, parent?_push]
    -- the new type has not been anybody's child
    have hnew : t.nextId ∉ t.children id := fun hc =>
      lt_irrefl t.nextId.index (h.lt_nextId_of_mem_children hc)
    by_cases hc : child = t.nextId
    · subst hc
      rw [if_pos rfl]
      split <;> simp_all
    · rw [if_neg hc, ← h.mem_children id child]
      split <;> simp [hc]
  children_ascending id := by
    rw [children_push h.offspring_size name parent known]
    split
    · rw [List.pairwise_append]
      refine ⟨h.children_ascending id, List.pairwise_singleton _ _, ?_⟩
      intro child hc last hl
      rw [List.mem_singleton] at hl
      rw [hl]
      exact h.lt_nextId_of_mem_children hc
    · exact h.children_ascending id
  orphan id hid hp := by
    rw [parent?_push] at hp
    split at hp
    · rename_i heq
      rw [heq]
      exact first hp
    · rename_i hne
      refine h.orphan id ((t.contains_iff id).mpr ?_) hp
      have hlt := (contains_iff _ id).mp hid
      rw [size_push] at hlt
      have hsize : id.index ≠ t.entries.size := fun hi => hne (by cases id; cases hi; rfl)
      omega

/-- The tree without types knows no name. -/
theorem get?_bare (name : String) : bare.get? name = none := by
  simp [bare, get?]

/-- The tree without any type is well formed. -/
theorem bare_wellFormed : bare.WellFormed where
  offspring_size := rfl
  entry_id i e he := by simp [bare] at he
  get?_iff name id := by simp [bare, get?, name?]
  parent_lt id p hp := by simp [bare, parent?] at hp
  mem_children id child := by simp [bare, children, parent?]
  children_ascending id := by simp [bare, children]
  orphan id hid _ := by simp [bare, contains] at hid

/-- The tree of the beginning is well formed. -/
theorem builtin_wellFormed : builtin.WellFormed := by
  have h₁ : (bare.push "Atom" none).WellFormed :=
    bare_wellFormed.push rfl (by simp) (fun _ => rfl)
  have h₂ : ((bare.push "Atom" none).push "Node" (some .atom)).WellFormed := by
    refine h₁.push ?_ ?_ (by simp)
    · rw [get?_push, get?_bare]
      rfl
    · rintro p ⟨⟩
      rfl
  have h₃ : (((bare.push "Atom" none).push "Node" (some .atom)).push "Link"
      (some .atom)).WellFormed := by
    refine h₂.push ?_ ?_ (by simp)
    · rw [get?_push, get?_push, get?_bare]
      rfl
    · rintro p ⟨⟩
      rfl
  refine h₃.push ?_ ?_ (by simp)
  · rw [get?_push, get?_push, get?_push, get?_bare]
    rfl
  · rintro p ⟨⟩
    rfl

/-! ## Growth -/

/-- One tree has grown out of another: its entries begin with those of the other one. -/
def Extends (t t' : TypeTree) : Prop := t.entries.toList <+: t'.entries.toList

theorem Extends.refl (t : TypeTree) : t.Extends t := List.prefix_refl _

theorem Extends.trans {t₁ t₂ t₃ : TypeTree} (h : t₁.Extends t₂) (h' : t₂.Extends t₃) :
    t₁.Extends t₃ := List.IsPrefix.trans h h'

/-- Pushing a type extends a tree. -/
theorem extends_push (t : TypeTree) (name : String) (parent : Option TypeId) :
    t.Extends (t.push name parent) := by
  rw [Extends, entries_push]
  simp

/-- Entries keep their places. -/
theorem Extends.getElem? {t t' : TypeTree} (h : t.Extends t') {i : Nat}
    (hi : i < t.entries.size) : t'.entries[i]? = t.entries[i]? := by
  obtain ⟨more, hmore⟩ := h
  rw [← Array.getElem?_toList, ← Array.getElem?_toList, ← hmore]
  exact List.getElem?_append_left (by simpa using hi)

/-- A tree that is extended has no fewer types. -/
theorem Extends.size_le {t t' : TypeTree} (h : t.Extends t') :
    t.entries.size ≤ t'.entries.size := by
  simpa using List.IsPrefix.length_le h

/-- A tree that is extended still declares its types. -/
theorem Extends.contains {t t' : TypeTree} (h : t.Extends t') {id : TypeId}
    (hid : t.contains id) : t'.contains id := by
  rw [contains_iff] at hid ⊢
  exact hid.trans_le h.size_le

/-- Names are kept. -/
theorem Extends.name? {t t' : TypeTree} (h : t.Extends t') {id : TypeId} (hid : t.contains id) :
    t'.name? id = t.name? id := by
  rw [TypeTree.name?, TypeTree.name?, h.getElem? ((t.contains_iff id).mp hid)]

/-- Parents are kept. -/
theorem Extends.parent? {t t' : TypeTree} (h : t.Extends t') {id : TypeId}
    (hid : t.contains id) : t'.parent? id = t.parent? id := by
  rw [TypeTree.parent?, TypeTree.parent?, h.getElem? ((t.contains_iff id).mp hid)]

/-- What a name stands for is kept. -/
theorem Extends.get? {t t' : TypeTree} (h : t.Extends t') (ht : t.WellFormed)
    (ht' : t'.WellFormed) {name : String} {id : TypeId} (hn : t.get? name = some id) :
    t'.get? name = some id := by
  rw [ht'.get?_iff, h.name? (ht.contains_of_get? hn)]
  exact (ht.get?_iff name id).mp hn

/-! ## Declaring -/

/-- The parent that a declaration means. -/
def parentOf (t : TypeTree) : Option String → Except Refusal TypeId
  | some p => t.resolve p
  | none => .ok .atom

/-- Once name and parent are settled, only what is known of the name decides. -/
theorem declare_eq (t : TypeTree) (name : String) (parent : Option String) :
    t.declare name parent =
      if name.isEmpty || Limits.typeNameBytes < name.utf8ByteSize then
        .error (.invalidAtom .typeNameLength)
      else
        match t.parentOf parent, t.get? name with
        | .error refusal, _ => .error refusal
        | .ok p, none => .ok (t.nextId, t.push name (some p))
        | .ok p, some id =>
          if t.parent? id = some p then .ok (id, t)
          else .error (.typeConflict name ((t.parent? id).bind t.name?)) := by
  unfold declare
  by_cases hbad : (name.isEmpty || decide (Limits.typeNameBytes < name.utf8ByteSize)) = true
  · rw [if_pos hbad, if_pos hbad]
    rfl
  · rw [if_neg hbad, if_neg hbad]
    cases parent with
    | none => cases t.get? name <;> rfl
    | some q =>
      dsimp only [parentOf]
      cases t.resolve q <;> cases t.get? name <;> rfl

/-- What a declaration that is accepted does: the type is there already under the parent that is
meant, or it is appended. -/
theorem declare_cases {t t' : TypeTree} {name : String} {parent : Option String} {id : TypeId}
    (h : t.declare name parent = .ok (id, t')) :
    ∃ p, t.parentOf parent = .ok p ∧
      (t.get? name = some id ∧ t.parent? id = some p ∧ t' = t ∨
        t.get? name = none ∧ id = t.nextId ∧ t' = t.push name (some p)) := by
  rw [declare_eq] at h
  split at h
  · cases h
  · split at h
    · cases h
    · rename_i p hp hn
      cases h
      exact ⟨p, hp, .inr ⟨hn, rfl, rfl⟩⟩
    · rename_i p old hp hn
      split at h
      · rename_i ho
        cases h
        exact ⟨p, hp, .inl ⟨hn, ho, rfl⟩⟩
      · cases h

/-- A declaration only ever appends. -/
theorem Extends.declare {t t' : TypeTree} {name : String} {parent : Option String} {id : TypeId}
    (h : t.declare name parent = .ok (id, t')) : t.Extends t' := by
  obtain ⟨p, -, ⟨-, -, rfl⟩ | ⟨-, -, rfl⟩⟩ := declare_cases h
  · exact .refl _
  · exact extends_push t name (some p)

/-- The root is registered in every tree that has grown out of the one of the beginning. -/
theorem Extends.contains_atom {t : TypeTree} (h : builtin.Extends t) : t.contains .atom :=
  h.contains (by rfl)

/-- The parent that a declaration means is registered. -/
theorem WellFormed.contains_parentOf {t : TypeTree} (ht : t.WellFormed) (hb : builtin.Extends t)
    {parent : Option String} {p : TypeId} (h : t.parentOf parent = .ok p) : t.contains p := by
  cases parent with
  | none =>
    cases h
    exact hb.contains_atom
  | some q => exact ht.contains_of_get? (resolve_eq_ok.mp h)

/-- **Declaring** keeps a tree well formed. -/
theorem WellFormed.declare {t t' : TypeTree} (ht : t.WellFormed) (hb : builtin.Extends t)
    {name : String} {parent : Option String} {id : TypeId}
    (h : t.declare name parent = .ok (id, t')) : t'.WellFormed := by
  obtain ⟨p, hp, ⟨-, -, rfl⟩ | ⟨hnew, -, rfl⟩⟩ := declare_cases h
  · exact ht
  · refine ht.push hnew ?_ (by simp)
    rintro _ ⟨⟩
    exact ht.contains_parentOf hb hp

end TypeTree

end TypedHypergraph
