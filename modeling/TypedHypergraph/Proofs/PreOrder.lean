/-
# The outline is the traversal in pre-order

The outline of a tree of types is printed by a walk that looks for the children of each type among
all entries, with no bound on its depth but a supply of fuel.  Described without fuel
(`TypeTree.Prints`), the walk comes to an end at every type, since children are younger than their
parents, and the supply is large enough for it.

What the walk visits below a type is the *block* of this type (`TypeTree.block`): the type, directly
followed by the blocks of its children.  A block holds the subtypes of its type, each once, and so
the block of the root holds all types (`TypeTree.OutlinedInPreOrder`).
-/
import TypedHypergraph.Proofs.Hierarchy

namespace TypedHypergraph

namespace TypeTree

variable {t : TypeTree}

/-! ## The walk without fuel -/

/-- A name, indented by two blanks for each level. -/
def indented (level : Nat) (name : String) : String :=
  String.join (List.replicate level "  ") ++ name

/-- The lines that are printed at a level for a type and what is below it, each child in turn,
however deep it goes. -/
inductive Prints (entries : List TypeEntry) : Nat → TypeEntry → List String → Prop
  | entry {level : Nat} {e : TypeEntry} (below : TypeEntry → List String) :
      (∀ child ∈ entries.filter (·.parent = some e.id),
        Prints entries (level + 1) child (below child)) →
      Prints entries level e
        (indented level e.name :: (entries.filter (·.parent = some e.id)).flatMap below)

/-- A walk prints one thing only. -/
theorem Prints.unique {entries : List TypeEntry} {level : Nat} {e : TypeEntry}
    {lines lines' : List String} (h : Prints entries level e lines)
    (h' : Prints entries level e lines') : lines = lines' := by
  induction h generalizing lines' with
  | entry below _ ih =>
    obtain ⟨below', printed⟩ := h'
    rw [List.flatMap_congr fun child hc => ih child hc (printed child hc)]

/-- **The walk comes to an end**, as there are only so many types younger than the one where it
begins. -/
theorem WellFormed.prints_outlineFrom (ht : t.WellFormed) {fuel level : Nat} {e : TypeEntry}
    (he : e ∈ t.entries.toList) (enough : t.size ≤ e.id.index + fuel) :
    Prints t.entries.toList level e (outlineFrom t.entries.toList fuel level e) := by
  induction fuel generalizing level e with
  | zero =>
    obtain ⟨inside, -⟩ := Array.getElem?_eq_some_iff.mp (ht.getElem?_of_mem he)
    rw [size] at enough
    omega
  | succ fuel ih =>
    refine .entry _ fun child hc => ?_
    obtain ⟨listed, parent⟩ := List.mem_filter.mp hc
    rw [decide_eq_true_eq, ← ht.parent?_of_mem listed] at parent
    have younger : e.id.index < child.id.index := ht.parent_lt _ _ parent
    exact ih listed (by omega)

/-! ## Blocks -/

/-- A type and what is below it, as many generations as the fuel allows. -/
def blockFrom (t : TypeTree) : Nat → TypeId → List TypeId
  | 0, _ => []
  | fuel + 1, id => id :: (t.children id).flatMap (t.blockFrom fuel)

/-- A type, directly followed by the blocks of its children. -/
def block (t : TypeTree) (id : TypeId) : List TypeId := t.blockFrom t.size id

/-- Children are declared, and younger than their parent. -/
theorem WellFormed.younger_of_mem_children (ht : t.WellFormed) {id child : TypeId}
    (hc : child ∈ t.children id) : t.contains child ∧ id.index < child.index := by
  have parent := (ht.mem_children id child).mp hc
  exact ⟨contains_of_parent? parent, ht.parent_lt child id parent⟩

/-- What holds of a type as soon as it holds of its children holds of all registered types. -/
theorem WellFormed.induction_children (ht : t.WellFormed) {P : TypeId → Prop}
    (step : ∀ id, t.contains id → (∀ child ∈ t.children id, P child) → P id) {id : TypeId}
    (hid : t.contains id) : P id := by
  -- on the number of types that are younger
  induction hk : t.entries.size - id.index using Nat.strong_induction_on generalizing id with
  | _ k ih =>
    refine step id hid fun child hc => ?_
    obtain ⟨registered, younger⟩ := ht.younger_of_mem_children hc
    have inside := (t.contains_iff child).mp registered
    exact ih (t.entries.size - child.index) (by omega) registered rfl

/-- More fuel than there are younger types makes no difference. -/
theorem WellFormed.blockFrom_eq (ht : t.WellFormed) {fuel fuel' : Nat} {id : TypeId}
    (hid : t.contains id) (enough : t.size ≤ id.index + fuel)
    (enough' : t.size ≤ id.index + fuel') : t.blockFrom fuel id = t.blockFrom fuel' id := by
  have inside := (t.contains_iff id).mp hid
  rw [size] at enough enough'
  induction fuel generalizing fuel' id with
  | zero => omega
  | succ fuel ih =>
    obtain - | fuel' := fuel'
    · omega
    rw [blockFrom, blockFrom]
    congr 1
    apply List.flatMap_congr
    intro child hc
    obtain ⟨registered, younger⟩ := ht.younger_of_mem_children hc
    exact ih registered (by omega) (by omega) ((t.contains_iff child).mp registered)

/-- The block of a type is the type and then the blocks of its children. -/
theorem WellFormed.block_eq (ht : t.WellFormed) {id : TypeId} (hid : t.contains id) :
    t.block id = id :: (t.children id).flatMap t.block := by
  have inside := (t.contains_iff id).mp hid
  have more : t.blockFrom t.size id = t.blockFrom (t.size + 1) id :=
    ht.blockFrom_eq hid (by omega) (by omega)
  rw [block, more, blockFrom]
  rfl

/-- A type occurs in a block if it stands below the type of the block, and then once. -/
theorem WellFormed.count_block (ht : t.WellFormed) (a : TypeId) {id : TypeId}
    (hid : t.contains id) : (t.block id).count a = [id].countP (t.isA a ·) := by
  refine ht.induction_children (P := fun id => (t.block id).count a = [id].countP (t.isA a ·))
    (fun id hid below => ?_) hid
  have total : ((t.children id).flatMap t.block).count a = (t.children id).countP (t.isA a ·) :=
    calc ((t.children id).flatMap t.block).count a
      _ = ((t.children id).map fun child => (t.block child).count a).sum := List.count_flatMap
      _ = ((t.children id).map fun child => [child].countP (t.isA a ·)).sum := by
        rw [List.map_congr_left below]
      _ = ((t.children id).flatMap fun child => [child]).countP (t.isA a ·) :=
        List.countP_flatMap.symm
      _ = (t.children id).countP (t.isA a ·) := by rw [List.flatMap_singleton']
  rw [ht.block_eq hid, ← List.singleton_append, List.count_append, total, ht.countP_children]

/-- **The block of a type** holds its subtypes. -/
theorem WellFormed.perm_block (ht : t.WellFormed) {id : TypeId} (hid : t.contains id) :
    (t.block id).Perm (t.subtypes id) := by
  rw [List.perm_iff_count]
  intro a
  rw [ht.count_block a hid, ht.count_subtypes hid]

/-- The block of a child stands inside that of its parent. -/
theorem block_contiguous_of_mem {id child : TypeId} (hc : child ∈ t.children id) :
    t.block child <:+: (t.children id).flatMap t.block := by
  obtain ⟨before, after, split⟩ := List.append_of_mem hc
  rw [split, List.flatMap_append, List.flatMap_cons]
  exact ⟨before.flatMap t.block, after.flatMap t.block, by rw [List.append_assoc]⟩

/-- **The block of a subtype** stands in one piece inside that of its type. -/
theorem WellFormed.block_contiguous (ht : t.WellFormed) {a b : TypeId} (below : t.isA a b)
    (hb : t.contains b) : t.block a <:+: t.block b := by
  have path := ht.isA_iff.mp below
  induction path with
  | refl => exact List.infix_rfl
  | @tail c p hac hp ih =>
    have hc := contains_of_parent? hp
    refine (ih (ht.isA_iff.mpr hac) hc).trans ?_
    rw [ht.block_eq hb]
    exact (block_contiguous_of_mem ((ht.mem_children p c).mpr hp)).trans
      (List.suffix_cons p _).isInfix

/-! ## Levels -/

/-- The types that stand above a type, oldest first. -/
def ancestors (t : TypeTree) (id : TypeId) : List TypeId :=
  t.ids.filter fun a => t.isA id a && a ≠ id

/-- The ancestors of a type are the other types of which it is a kind. -/
theorem WellFormed.mem_ancestors (ht : t.WellFormed) {a id : TypeId} :
    a ∈ t.ancestors id ↔ t.contains a ∧ t.isA id a ∧ a ≠ id := by
  rw [ancestors, List.mem_filter, ht.mem_ids, Bool.and_eq_true, decide_eq_true_eq]

/-- No ancestor is listed twice. -/
theorem WellFormed.nodup_ancestors (ht : t.WellFormed) (id : TypeId) : (t.ancestors id).Nodup :=
  nodup_of_ascending (ht.ascending_ids.filter _)

/-- Above a type stand its parent and what stands above that. -/
theorem WellFormed.length_ancestors (ht : t.WellFormed) {id p : TypeId}
    (hp : t.parent? id = some p) : (t.ancestors id).length = (t.ancestors p).length + 1 := by
  have above : ∀ a, t.isA id a ∧ a ≠ id ↔ t.isA p a := by
    intro a
    have older : p.index < id.index := ht.parent_lt id p hp
    rw [ht.isA_eq id a, hp, Option.any_some, Bool.or_eq_true, decide_eq_true_eq]
    constructor
    · rintro ⟨rfl | below, different⟩
      · exact absurd rfl different
      · exact below
    · intro below
      refine ⟨.inr below, ?_⟩
      rintro rfl
      exact absurd (ht.le_of_isA below) (by omega)
  have nodup : (p :: t.ancestors p).Nodup :=
    List.nodup_cons.mpr ⟨fun hp => (ht.mem_ancestors.mp hp).2.2 rfl, ht.nodup_ancestors p⟩
  have perm : (t.ancestors id).Perm (p :: t.ancestors p) := by
    rw [List.perm_ext_iff_of_nodup (ht.nodup_ancestors id) nodup]
    intro a
    rw [ht.mem_ancestors, List.mem_cons, ht.mem_ancestors, above]
    by_cases same : a = p
    · subst same
      simp [ht.contains_parent hp, ht.isA_refl]
    · simp [same]
  rw [perm.length_eq, List.length_cons]

/-! ## The outline -/

/-- The line of a type: its name, indented by the types above it. -/
def line (t : TypeTree) (id : TypeId) : String :=
  indented (t.ancestors id).length ((t.name? id).getD "")

/-- Types can be told apart by their parents as well as entries. -/
theorem WellFormed.map_filter_parent (ht : t.WellFormed) (parent : Option TypeId) :
    (t.entries.toList.filter (·.parent = parent)).map (·.id)
      = t.ids.filter (t.parent? · = parent) := by
  rw [ids, List.filter_map]
  congr 1
  apply List.filter_congr
  intro e he
  rw [Function.comp_apply, ht.parent?_of_mem he]

/-- The outline from a type on shows a line for each type of its block. -/
theorem WellFormed.outlineFrom_eq (ht : t.WellFormed) (fuel : Nat) {e : TypeEntry}
    (he : e ∈ t.entries.toList) :
    outlineFrom t.entries.toList fuel (t.ancestors e.id).length e
      = (t.blockFrom fuel e.id).map t.line := by
  induction fuel generalizing e with
  | zero => rfl
  | succ fuel ih =>
    have first : t.line e.id = indented (t.ancestors e.id).length e.name := by
      rw [line, ht.name?_of_mem he, Option.getD_some]
    rw [outlineFrom, blockFrom, List.map_cons, List.map_flatMap, first, ht.children_eq,
      ← ht.map_filter_parent, List.flatMap_map, indented]
    congr 1
    apply List.flatMap_congr
    intro child hc
    obtain ⟨listed, parent⟩ := List.mem_filter.mp hc
    rw [decide_eq_true_eq, ← ht.parent?_of_mem listed] at parent
    rw [← ih listed, ht.length_ancestors parent]

/-- There is one entry without a parent, that of the root. -/
theorem WellFormed.exists_root (ht : t.WellFormed) (hb : builtin.Extends t) :
    ∃ root, t.entries.toList.filter (·.parent = none) = [root] ∧ root.id = .atom := by
  have roots : (t.entries.toList.filter (·.parent = none)).map (·.id) = [.atom] := by
    rw [ht.map_filter_parent]
    apply ascending_ext (ht.ascending_ids.filter _) (List.pairwise_singleton _ _)
    intro id
    rw [List.mem_filter, ht.mem_ids, decide_eq_true_eq, List.mem_singleton, ht.orphan_iff hb]
  obtain ⟨root, one, hroot⟩ := List.map_eq_singleton_iff.mp roots
  exact ⟨root, one, hroot⟩

/-- The outline of a tree is its traversal in pre-order. -/
structure OutlinedInPreOrder (t : TypeTree) : Prop where
  /-- The walk from the root ends, and the outline is what it prints. -/
  walk : ∃ root, t.entries.toList.filter (·.parent = none) = [root] ∧
    ∀ lines, Prints t.entries.toList 0 root lines ↔ lines = t.outline
  outline_eq : t.outline = (t.block .atom).map t.line
  once : (t.block .atom).Perm t.ids
  /-- Children come in the order of declaration, -/
  children_eq : ∀ id : TypeId, t.children id = t.ids.filter (t.parent? · = some id)
  /-- and a type is directly followed by their blocks. -/
  block_eq : ∀ id : TypeId, t.contains id → t.block id = id :: (t.children id).flatMap t.block
  block_contiguous : ∀ id : TypeId, t.contains id → t.block id <:+: t.block .atom
  perm_block : ∀ id : TypeId, t.contains id → (t.block id).Perm (t.subtypes id)
  parent_first : ∀ id p : TypeId, t.parent? id = some p → [p, id].Sublist (t.block .atom)

/-- **The outline is in pre-order** for every well-formed tree that holds the types of the
beginning. -/
theorem WellFormed.outlinedInPreOrder (ht : t.WellFormed) (hb : builtin.Extends t) :
    t.OutlinedInPreOrder := by
  -- the walk starts at the only type without a parent
  obtain ⟨root, one, hroot⟩ := ht.exists_root hb
  have listed : root ∈ t.entries.toList :=
    List.mem_of_mem_filter (one ▸ List.mem_singleton_self root)
  have outline : t.outline = outlineFrom t.entries.toList t.size 0 root := by
    rw [TypeTree.outline, one, List.flatMap_singleton, Array.length_toList, size]
  have top : t.ancestors .atom = [] := by
    rw [List.eq_nil_iff_forall_not_mem]
    intro a above
    obtain ⟨-, below, different⟩ := ht.mem_ancestors.mp above
    exact different (TypeId.eq_iff _ _ |>.mpr (Nat.le_zero.mp (ht.le_of_isA below)))
  refine ⟨⟨root, one, ?walk⟩, ?outline_eq, ?once, ht.children_eq, fun _ => ht.block_eq,
    ?block_contiguous, fun _ => ht.perm_block, ?parent_first⟩
  case walk =>
    intro lines
    have printed : Prints t.entries.toList 0 root (outlineFrom t.entries.toList t.size 0 root) :=
      ht.prints_outlineFrom listed (Nat.le_add_left t.size _)
    rw [outline]
    constructor
    · intro prints
      exact prints.unique printed
    · rintro rfl
      exact printed
  case outline_eq =>
    have eq := ht.outlineFrom_eq t.size listed
    rw [hroot, top] at eq
    rw [outline, block]
    exact eq
  case once =>
    have all : t.subtypes .atom = t.ids := by
      rw [ht.subtypes_eq, if_pos hb.contains_atom, List.filter_eq_self]
      intro id hid
      exact ht.isA_atom (ht.mem_ids.mp hid)
    exact all ▸ ht.perm_block hb.contains_atom
  case block_contiguous =>
    intro id hid
    exact ht.block_contiguous (ht.isA_atom hid) hb.contains_atom
  case parent_first =>
    intro id p hp
    have hid := contains_of_parent? hp
    have registered := ht.contains_parent hp
    have inside := block_contiguous_of_mem ((ht.mem_children p id).mpr hp)
    have found : id ∈ (t.children p).flatMap t.block :=
      inside.subset (by rw [ht.block_eq hid]; exact List.mem_cons_self)
    have here : [p, id].Sublist (t.block p) := by
      rw [ht.block_eq registered]
      exact (List.singleton_sublist.mpr found).cons_cons p
    exact here.trans (ht.block_contiguous (ht.isA_atom registered) hb.contains_atom).sublist

/-- **The outline of every tree** that declarations lead to, accepted or refused, is its traversal
in pre-order. -/
theorem outlinedInPreOrder_grow (ds : List TypeDeclaration) :
    (builtin.grow ds).OutlinedInPreOrder := by
  obtain ⟨ht, hb⟩ := grow_grows builtin_wellFormed (.refl builtin) ds
  exact ht.outlinedInPreOrder hb

/-- A type that was declared late is printed below its parent. -/
example :
    (builtin.grow [⟨"Word", some "Node"⟩, ⟨"Pair", some "Link"⟩, ⟨"Noun", some "Word"⟩]).outline =
      ["Atom", "  Node", "    VariableNode", "    Word", "      Noun", "  Link", "    Pair"] := by
  decide +kernel

end TypeTree

end TypedHypergraph
