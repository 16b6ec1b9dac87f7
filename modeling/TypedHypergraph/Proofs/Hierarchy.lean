/-
# The hierarchy of types

Types are declared one after the other, and any of the declarations may be refused
(`TypeTree.grow`).  Whatever was declared, the tree is a *hierarchy* (`TypeTree.Hierarchy`): its
tables list the same types, the walk upwards and the walk downwards find the same pairs of types,
and all types stand below the root, each of them below `Node` or below `Link` or below neither.
Later declarations leave untouched what is known of the types that are there (`TypeTree.Keeps`).

* `WellFormed.hierarchy` : a well formed tree that has grown out of the four types of the beginning
  is a hierarchy;
* `hierarchy_grow` : so is every tree that declarations lead to.
-/
import TypedHypergraph.Proofs.Lineage

namespace TypedHypergraph

namespace TypeTree

/-! ## Histories of declarations -/

/-- The tree after a declaration, accepted or refused. -/
def attempt (t : TypeTree) (d : TypeDeclaration) : TypeTree :=
  match t.declare d.name d.parent with
  | .ok (_, t') => t'
  | .error _ => t

/-- The tree after a list of declarations. -/
def grow (t : TypeTree) (ds : List TypeDeclaration) : TypeTree := ds.foldl attempt t

/-- A declaration keeps a tree well formed and only ever appends to it. -/
theorem attempt_grows {t : TypeTree} (ht : t.WellFormed) (hb : builtin.Extends t)
    (d : TypeDeclaration) : (t.attempt d).WellFormed ∧ t.Extends (t.attempt d) := by
  unfold attempt
  cases hd : t.declare d.name d.parent with
  | error refusal => exact ⟨ht, .refl t⟩
  | ok result => exact ⟨ht.declare hb hd, .declare hd⟩

/-- Growing keeps a tree well-formed and extends it. -/
theorem grow_grows {t : TypeTree} (ht : t.WellFormed) (hb : builtin.Extends t)
    (ds : List TypeDeclaration) : (t.grow ds).WellFormed ∧ t.Extends (t.grow ds) := by
  induction ds generalizing t with
  | nil => exact ⟨ht, .refl t⟩
  | cons d ds ih =>
    obtain ⟨first, appended⟩ := attempt_grows ht hb d
    obtain ⟨rest, more⟩ := ih first (hb.trans appended)
    exact ⟨rest, appended.trans more⟩

/-! ## All types -/

/-- The identifiers of all types, in the order of declaration. -/
def ids (t : TypeTree) : List TypeId := t.entries.toList.map (·.id)

/-- Identifiers are given out in order, from zero on. -/
theorem WellFormed.ids_eq {t : TypeTree} (h : t.WellFormed) :
    t.ids = (List.range t.size).map TypeId.mk := by
  apply List.ext_getElem?
  intro i
  rw [ids, List.getElem?_map, List.getElem?_map, Array.getElem?_toList, size]
  by_cases hi : i < t.entries.size
  · have he := Array.getElem?_eq_getElem hi
    rw [he, List.getElem?_range hi, Option.map_some, Option.map_some, h.entry_id i _ he]
  · have hnone : (List.range t.entries.size)[i]? = none :=
      List.getElem?_eq_none (by rw [List.length_range]; omega)
    rw [hnone, Array.getElem?_eq_none (by omega)]
    rfl

/-- The listed types are exactly those that are declared. -/
theorem WellFormed.mem_ids {t : TypeTree} (h : t.WellFormed) {id : TypeId} :
    id ∈ t.ids ↔ t.contains id := by
  rw [h.ids_eq, contains_iff, List.mem_map, size]
  constructor
  · rintro ⟨i, hi, rfl⟩
    exact List.mem_range.mp hi
  · intro hid
    exact ⟨id.index, List.mem_range.mpr hid, rfl⟩

/-- The types are listed in ascending order. -/
theorem WellFormed.ascending_ids {t : TypeTree} (h : t.WellFormed) :
    t.ids.Pairwise (· < ·) := by
  rw [h.ids_eq, List.pairwise_map]
  exact List.pairwise_lt_range

/-! ## Hierarchies -/

/-- What holds of the types of a tree. -/
structure Hierarchy (t : TypeTree) : Prop where
  ids_eq : t.ids = (List.range t.size).map TypeId.mk
  /-- A type is registered exactly if it has a name, -/
  named : ∀ id : TypeId, t.contains id ↔ ∃ name, t.name? id = some name
  /-- and names and identifiers determine each other. -/
  get?_iff : ∀ (name : String) (id : TypeId), t.get? name = some id ↔ t.name? id = some name
  orphan_iff : ∀ id : TypeId, t.contains id ∧ t.parent? id = none ↔ id = .atom
  parent_older : ∀ id p : TypeId, t.parent? id = some p → t.contains p ∧ p < id
  ids_ascending : t.ids.Pairwise (· < ·)
  children_eq : ∀ id : TypeId, t.children id = t.ids.filter (t.parent? · = some id)
  /-- There is no endless walk upwards, -/
  parent_wellFounded : WellFounded fun p id : TypeId => t.parent? id = some p
  /-- and a walk upwards looks at one type after the other. -/
  isA_eq : ∀ id ancestor : TypeId,
    t.isA id ancestor = (decide (id = ancestor) || (t.parent? id).any (t.isA · ancestor))
  isA_iff : ∀ id ancestor : TypeId, t.isA id ancestor ↔
    Relation.ReflTransGen (fun child parent => t.parent? child = some parent) id ancestor
  isA_refl : ∀ id : TypeId, t.isA id id
  isA_antisymm : ∀ a b : TypeId, t.isA a b → t.isA b a → a = b
  isA_trans : ∀ a b c : TypeId, t.isA a b → t.isA b c → t.isA a c
  isA_atom : ∀ id : TypeId, t.contains id → t.isA id .atom
  subtypes_eq : ∀ id : TypeId,
    t.subtypes id = if t.contains id then t.ids.filter (t.isA · id) else []
  disjoint : ∀ id : TypeId, ¬ (t.isA id .node ∧ t.isA id .link)

namespace WellFormed

variable {t : TypeTree}

/-- The way from types to their parents comes to an end. -/
theorem parent_wellFounded (h : t.WellFormed) :
    WellFounded fun p id : TypeId => t.parent? id = some p :=
  Subrelation.wf (fun hp => h.parent_lt _ _ hp) (measure TypeId.index).wf

/-- The walk upwards ends at the type that is looked for, or goes on from the parent. -/
theorem isA_eq (h : t.WellFormed) (id ancestor : TypeId) :
    t.isA id ancestor = (decide (id = ancestor) || (t.parent? id).any (t.isA · ancestor)) := by
  rw [Bool.eq_iff_iff, Bool.or_eq_true, decide_eq_true_eq, Option.any_eq_true, h.isA_iff, Below,
    Relation.ReflTransGen.cases_head_iff]
  refine or_congr_right (exists_congr fun p => ?_)
  rw [h.isA_iff, Below]

/-- Two types that are kinds of each other are the same. -/
theorem isA_antisymm (h : t.WellFormed) {a b : TypeId} (hab : t.isA a b) (hba : t.isA b a) :
    a = b := by
  rw [TypeId.eq_iff]
  exact Nat.le_antisymm (h.le_of_isA hba) (h.le_of_isA hab)

/-- The root is the only type without a parent. -/
theorem orphan_iff (h : t.WellFormed) (hb : builtin.Extends t) (id : TypeId) :
    t.contains id ∧ t.parent? id = none ↔ id = .atom := by
  constructor
  · rintro ⟨registered, noParent⟩
    exact h.orphan id registered noParent
  · rintro rfl
    exact ⟨hb.contains_atom, hb.parent? (by decide : builtin.contains .atom)⟩

/-- The walk upwards from a registered type ends at the root. -/
theorem isA_atom (h : t.WellFormed) {id : TypeId} (registered : t.contains id) :
    t.isA id .atom := by
  induction id using h.parent_wellFounded.induction with
  | _ id ih =>
    rw [h.isA_eq]
    cases hp : t.parent? id with
    | none => simp [h.orphan id registered hp]
    | some p =>
      have above := ih p hp (h.contains_parent hp)
      simp [above]

/-- Nodes and links are children of the root, and no type stands below two children. -/
theorem disjoint (h : t.WellFormed) (hb : builtin.Extends t) (id : TypeId) :
    ¬ (t.isA id .node ∧ t.isA id .link) := by
  rintro ⟨isNode, isLink⟩
  have node : TypeId.node ∈ t.children .atom :=
    (h.mem_children _ _).mpr (hb.parent? (by decide : builtin.contains .node))
  have link : TypeId.link ∈ t.children .atom :=
    (h.mem_children _ _).mpr (hb.parent? (by decide : builtin.contains .link))
  have same := h.child_unique node link isNode isLink
  cases same

/-- The children of a type are those that name it as their parent. -/
theorem children_eq (h : t.WellFormed) (id : TypeId) :
    t.children id = t.ids.filter (t.parent? · = some id) := by
  apply ascending_ext (h.children_ascending id) (h.ascending_ids.filter _)
  intro child
  rw [List.mem_filter, h.mem_ids, h.mem_children, decide_eq_true_eq]
  exact ⟨fun hp => ⟨contains_of_parent? hp, hp⟩, fun hp => hp.2⟩

/-- The walk downwards finds the types from which the walk upwards leads back. -/
theorem subtypes_eq (h : t.WellFormed) (id : TypeId) :
    t.subtypes id = if t.contains id then t.ids.filter (t.isA · id) else [] := by
  by_cases registered : t.contains id
  · rw [if_pos registered]
    apply ascending_ext (h.subtypes_ascending id) (h.ascending_ids.filter _)
    intro a
    rw [h.mem_subtypes, List.mem_filter, h.mem_ids]
    exact ⟨fun below => ⟨h.contains_of_isA below.2 registered, below.2⟩,
      fun below => ⟨registered, below.2⟩⟩
  · rw [if_neg registered, subtypes, if_neg registered]

/-- **A well formed tree** that has grown out of the types of the beginning is a hierarchy. -/
theorem hierarchy (h : t.WellFormed) (hb : builtin.Extends t) : t.Hierarchy where
  ids_eq := h.ids_eq
  named := t.contains_iff_name?
  get?_iff := h.get?_iff
  orphan_iff := h.orphan_iff hb
  parent_older _ _ hp := ⟨h.contains_parent hp, h.parent_lt _ _ hp⟩
  ids_ascending := h.ascending_ids
  children_eq := h.children_eq
  parent_wellFounded := h.parent_wellFounded
  isA_eq := h.isA_eq
  isA_iff _ _ := h.isA_iff
  isA_refl := h.isA_refl
  isA_antisymm _ _ := h.isA_antisymm
  isA_trans _ _ _ := h.isA_trans
  isA_atom _ := h.isA_atom
  subtypes_eq := h.subtypes_eq
  disjoint := h.disjoint hb

end WellFormed

/-! ## Later declarations -/

/-- What one tree says of its types, another one says too. -/
structure Keeps (t t' : TypeTree) : Prop where
  contains : ∀ id : TypeId, t.contains id → t'.contains id
  name? : ∀ id : TypeId, t.contains id → t'.name? id = t.name? id
  parent? : ∀ id : TypeId, t.contains id → t'.parent? id = t.parent? id
  isA : ∀ id ancestor : TypeId, t.contains id → t'.isA id ancestor = t.isA id ancestor
  allowsNodes : ∀ id : TypeId, t.contains id → t'.allowsNodes id = t.allowsNodes id
  allowsLinks : ∀ id : TypeId, t.contains id → t'.allowsLinks id = t.allowsLinks id

/-- A tree that is extended keeps what it says of its types. -/
theorem Extends.keeps {t t' : TypeTree} (h : t.Extends t') (ht : t.WellFormed)
    (ht' : t'.WellFormed) : t.Keeps t' where
  contains _ := h.contains
  name? _ := h.name?
  parent? _ := h.parent?
  isA _ ancestor registered := h.isA ht ht' registered ancestor
  allowsNodes _ registered := by
    rw [TypeTree.allowsNodes, TypeTree.allowsNodes, h.isA ht ht' registered,
      h.isA ht ht' registered]
  allowsLinks _ registered := by
    rw [TypeTree.allowsLinks, TypeTree.allowsLinks, h.isA ht ht' registered]

/-- A declaration that is accepted gives the type that has the name already, or the next
identifier to a type that is appended to the others. -/
theorem known_or_appended {t t' : TypeTree} {name : String} {parent : Option String} {id : TypeId}
    (accepted : t.declare name parent = .ok (id, t')) :
    (t.get? name = some id ∧ t' = t) ∨ (t.get? name = none ∧ id = ⟨t.size⟩ ∧
      ∃ p, t'.entries = t.entries.push ⟨id, name, some p⟩) := by
  obtain ⟨p, -, ⟨known, -, rfl⟩ | ⟨fresh, rfl, rfl⟩⟩ := declare_cases accepted
  · exact .inl ⟨known, rfl⟩
  · exact .inr ⟨fresh, rfl, p, entries_push t name (some p)⟩

/-- **Every tree of types** that declarations lead to, accepted or refused, is a hierarchy.  The
next declaration registers a type at its end or not at all, and whatever is declared later, what
the tree says of its types stays true. -/
theorem hierarchy_grow (declarations later : List TypeDeclaration) :
    let t := builtin.grow declarations
    t.Hierarchy ∧
    (∀ (name : String) (parent : Option String) (id : TypeId) (t' : TypeTree),
      t.declare name parent = .ok (id, t') →
        (t.get? name = some id ∧ t' = t) ∨ (t.get? name = none ∧ id = ⟨t.size⟩ ∧
          ∃ p, t'.entries = t.entries.push ⟨id, name, some p⟩)) ∧
    t.Keeps (t.grow later) := by
  intro t
  obtain ⟨ht, hb⟩ := grow_grows builtin_wellFormed (.refl builtin) declarations
  obtain ⟨ht', more⟩ := grow_grows ht hb later
  exact ⟨ht.hierarchy hb, fun _ _ _ _ => known_or_appended, more.keeps ht ht'⟩

/-- A type below `Node`, one below that, a refused second parent, a type named again and a type
below the root. -/
example :
    let t := builtin.grow [⟨"Word", some "Node"⟩, ⟨"Noun", some "Word"⟩, ⟨"Word", some "Link"⟩,
      ⟨"Word", some "Node"⟩, ⟨"Thing", none⟩]
    t.ids = [⟨0⟩, ⟨1⟩, ⟨2⟩, ⟨3⟩, ⟨4⟩, ⟨5⟩, ⟨6⟩] ∧ t.children .atom = [⟨1⟩, ⟨2⟩, ⟨6⟩] ∧
      t.lineage ⟨5⟩ = [⟨5⟩, ⟨4⟩, .node, .atom] ∧ ¬ t.isA ⟨6⟩ .node := by
  decide +kernel

end TypeTree

end TypedHypergraph
